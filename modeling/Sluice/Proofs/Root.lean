import Mathlib
import Sluice.Proofs.Typing

namespace Sluice

-- The binding of a constant, and its bytes in the pool.
structure Constant.Lies (pool : Pool) (constant : Constant) (row : String × Binding) : Prop where
  name : row.1 = constant.name
  ty : row.2.ty = constant.ty
  size : constant.ty.size?.map UInt32.toNat = some constant.bytes.length
  storage : ∃ front back, pool.bytes = front ++ constant.bytes ++ back ∧
    row.2.storage = .pool (UInt32.ofNat front.length)

namespace Scopes

def nativeRow (entry : NativeId × Native) : String × Binding :=
  (entry.2.name, ⟨entry.2.ty, .native entry.1⟩)

-- More bindings of the innermost scope.
def extended (scopes : Scopes) (rows : List (String × Binding)) : Scopes :=
  { scopes with current := { scopes.current with bindings := scopes.current.bindings ++ rows } }

theorem natives_eq_ok {entries : List (NativeId × Native)} {scopes next : Scopes}
    (h : entries.foldlM declareNative scopes = .ok next) :
    next = scopes.extended (entries.map nativeRow) := by
  induction entries generalizing scopes with
  | nil =>
      cases h
      simp [Scopes.extended]
  | cons entry entries ih =>
      obtain ⟨middle, hdeclare, h⟩ := bind_eq_ok.mp h
      obtain ⟨-, rfl⟩ := declare_eq_ok hdeclare
      rw [ih h]
      simp [Scopes.extended, nativeRow]

private theorem pushTyped_eq_ok {pool larger : Pool} {ty : Ty} {bytes : Bytes} {offset : UInt32}
    (h : pool.pushTyped ty bytes = .ok (offset, larger)) :
    ty.size?.map UInt32.toNat = some bytes.length ∧ ∃ padding : Bytes,
      larger.bytes = pool.bytes ++ padding ++ bytes ∧
      offset = UInt32.ofNat (pool.bytes ++ padding).length := by
  obtain ⟨size, hsize, h⟩ := bind_eq_ok.mp h
  split at h
  · contradiction
  · rename_i hlength
    cases h
    rw [inRange_eq_ok.mp hsize]
    exact ⟨congrArg some (not_not.mp hlength).symm, _, rfl, rfl⟩

private theorem constants_eq_ok {constants : List Constant} {scopes next : Scopes}
    {pool larger : Pool}
    (h : constants.foldlM declareConstant (scopes, pool) = .ok (next, larger)) :
    ∃ rows more, next = scopes.extended rows ∧ larger.bytes = pool.bytes ++ more ∧
      List.Forall₂ (Constant.Lies larger) constants rows := by
  induction constants generalizing scopes pool with
  | nil =>
      cases h
      exact ⟨[], [], by simp [Scopes.extended], by simp, .nil⟩
  | cons constant constants ih =>
      obtain ⟨⟨middle, grown⟩, hconstant, h⟩ := bind_eq_ok.mp h
      obtain ⟨⟨offset, pushed⟩, hpush, hconstant⟩ := bind_eq_ok.mp hconstant
      obtain ⟨declared, hdeclare, hconstant⟩ := bind_eq_ok.mp hconstant
      cases hconstant
      obtain ⟨-, rfl⟩ := declare_eq_ok hdeclare
      obtain ⟨hsize, padding, hbytes, rfl⟩ := pushTyped_eq_ok hpush
      obtain ⟨rows, more, rfl, hmore, hrows⟩ := ih h
      refine ⟨(constant.name, ⟨constant.ty, _⟩) :: rows, padding ++ constant.bytes ++ more, ?_, ?_,
        .cons ⟨rfl, rfl, hsize, pool.bytes ++ padding, more, ?_, rfl⟩ hrows⟩
      · simp [Scopes.extended]
      · simp [hmore, hbytes]
      · rw [hmore, hbytes]

-- Everything in the scope that a library fills.
theorem ofLibrary_eq_ok {library : Library} {scopes : Scopes} {literals : Pool}
    (h : ofLibrary library = .ok (scopes, literals)) :
    ∃ rows, scopes = ⟨⟨library.handles.map nativeRow ++ rows, ⟨0⟩⟩, [], 0⟩ ∧
      List.Forall₂ (Constant.Lies literals) library.constants rows := by
  obtain ⟨natives, hnatives, hconstants⟩ := bind_eq_ok.mp h
  cases natives_eq_ok hnatives
  obtain ⟨rows, -, rfl, -, hrows⟩ := constants_eq_ok hconstants
  exact ⟨rows, by simp [Scopes.extended, empty], hrows⟩

-- A property of all bindings of a library.
theorem forall_ofLibrary {P : Binding → Prop} {library : Library} {scopes : Scopes}
    {literals : Pool} (hnative : ∀ id, ∀ native ∈ library.natives, P ⟨native.ty, .native id⟩)
    (hconstant : ∀ constant row, constant ∈ library.constants → constant.Lies literals row → P row.2)
    (h : ofLibrary library = .ok (scopes, literals)) :
    ∀ scope ∈ scopes.chain, ∀ entry ∈ scope.bindings, P entry.2 := by
  obtain ⟨rows, rfl, hrows⟩ := ofLibrary_eq_ok h
  intro scope hscope entry hentry
  cases List.mem_singleton.mp hscope
  rcases List.mem_append.mp hentry with hentry | hentry
  · obtain ⟨⟨id, native⟩, hmem, rfl⟩ := List.mem_map.mp hentry
    obtain ⟨⟨found, index⟩, hfound, heq⟩ := List.mem_map.mp hmem
    cases heq
    exact hnative _ _ (List.fst_mem_of_mem_zipIdx hfound)
  · obtain ⟨constant, hmem, hlies⟩ := exists_of_mem_left hrows.flip hentry
    exact hconstant constant entry hmem hlies

theorem typed_ofLibrary {P : Ty → Prop} {library : Library} {scopes : Scopes} {literals : Pool}
    (hnative : ∀ native ∈ library.natives, P native.ty)
    (hconstant : ∀ constant ∈ library.constants, P constant.ty)
    (h : ofLibrary library = .ok (scopes, literals)) : scopes.Typed P :=
  forall_ofLibrary (P := fun binding => P binding.ty) (fun _ => hnative)
    (fun constant _ hmem hlies => hlies.ty ▸ hconstant constant hmem) h

end Scopes

end Sluice

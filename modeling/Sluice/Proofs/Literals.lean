import Mathlib
import Sluice.Proofs.Registration

namespace Sluice

namespace Bytes

theorem slice?_append_self {front data : Bytes} :
    (front ++ data).slice? front.length data.length = some data := by
  simp [slice?]

-- What was inside is found again when more is put behind.
theorem slice?_append {bytes part : Bytes} {offset size : Nat}
    (h : bytes.slice? offset size = some part) (more : Bytes) :
    (bytes ++ more).slice? offset size = some part := by
  unfold slice? at h ⊢
  split at h
  · rename_i hinside
    have hlength : offset + size ≤ (bytes ++ more).length := by
      rw [List.length_append]
      omega
    rw [if_pos hlength, List.drop_append_of_le_length (by omega),
      List.take_append_of_le_length (by rw [List.length_drop]; omega), h]
  · contradiction

end Bytes

namespace Ty

-- Alignments are powers of two up to eight, so the widest is a multiple of the others.
private theorem dvd_max : ∀ left ∈ [1, 2, 4, 8], ∀ right ∈ [1, 2, 4, 8],
    max left right ∈ [1, 2, 4, 8] ∧ left ∣ max left right ∧ right ∣ max left right := by
  decide

private theorem alignment_mem (atom : Atom) : atom.alignment ∈ [1, 2, 4, 8] := by
  cases atom with
  | prim primitive => cases primitive <;> decide
  | func => decide
  | _ => exact List.mem_cons_self

private theorem widest_spec {atoms : List Atom} {widest : Nat} (h : widest ∈ [1, 2, 4, 8]) :
    atoms.foldl (fun widest atom => max widest atom.alignment) widest ∈ [1, 2, 4, 8] ∧
      widest ∣ atoms.foldl (fun widest atom => max widest atom.alignment) widest ∧
      ∀ atom ∈ atoms,
        atom.alignment ∣ atoms.foldl (fun widest atom => max widest atom.alignment) widest := by
  induction atoms generalizing widest with
  | nil => simpa using h
  | cons atom rest ih =>
      obtain ⟨hmem, hleft, hright⟩ := dvd_max widest h atom.alignment (alignment_mem atom)
      obtain ⟨hresult, hwidest, hrest⟩ := ih hmem
      exact ⟨hresult, hleft.trans hwidest,
        List.forall_mem_cons.mpr ⟨hright.trans hwidest, hrest⟩⟩

-- At a multiple of its alignment a value of the type has all of its parts in place.
theorem alignment_dvd {ty : Ty} {offset : Nat} (h : max ty.alignment 1 ∣ offset) :
    ∀ atom ∈ ty.atoms, atom.alignment ∣ offset := by
  obtain ⟨hmem, -, hatoms⟩ := @widest_spec ty.atoms 1 (by decide)
  have hpos : ∀ align ∈ [1, 2, 4, 8], max align 1 = align := by decide
  have halign : max ty.alignment 1 = ty.alignment := hpos _ hmem
  rw [halign] at h
  intro atom hatom
  exact (hatoms atom hatom).trans h

end Ty

namespace Pool

theorem dvd_add_padding {align : Nat} (h : 0 < align) (length : Nat) :
    align ∣ length + padding align length := by
  have hlt := Nat.mod_lt length h
  have hsplit := Nat.div_add_mod length align
  have hround : length + (align - length % align) = align * (length / align + 1) := by
    rw [Nat.mul_add, Nat.mul_one]
    omega
  rw [Nat.dvd_iff_mod_eq_zero, padding, Nat.add_mod_mod, hround, Nat.mul_mod_right]

inductive Request
  | plain (data : Bytes) (align : Nat)
  | typed (ty : Ty) (data : Bytes)
deriving DecidableEq, Repr

namespace Request

def data : Request → Bytes
  | plain data _ => data
  | typed _ data => data

def align : Request → Nat
  | plain _ align => align
  | typed ty _ => ty.alignment

-- Data without a type may have any length.
def Sized : Request → Prop
  | plain _ _ => True
  | typed ty data => ty.size?.map UInt32.toNat = some data.length

def serve (pool : Pool) : Request → Except Failure (UInt32 × Pool)
  | plain data align => .ok (pool.push data align)
  | typed ty data => pool.pushTyped ty data

theorem serve_of_sized {request : Request} (h : request.Sized) (pool : Pool) :
    request.serve pool = .ok (pool.push request.data request.align) := by
  cases request with
  | plain data align => rfl
  | typed ty data =>
      obtain ⟨size, hsize, hlength⟩ := Option.map_eq_some_iff.mp h
      rw [serve, pushTyped, hsize, inRange, ok_bind, if_neg (not_not.mpr hlength.symm), Request.data,
        Request.align]

theorem serve_of_not_sized {request : Request} (h : ¬ request.Sized) (pool : Pool) :
    ∃ failure, request.serve pool = .error failure := by
  cases request with
  | plain data align => exact absurd trivial h
  | typed ty data =>
      cases hsize : ty.size? with
      | none => exact ⟨_, by rw [serve, pushTyped, hsize, inRange, error_bind]⟩
      | some size =>
          have hlength : data.length ≠ size.toNat := by
            intro hlength
            exact h (by rw [Sized, hsize, Option.map_some, hlength])
          exact ⟨_, by rw [serve, pushTyped, hsize, inRange, ok_bind, if_pos hlength]⟩

theorem exists_serve_iff {request : Request} {pool : Pool} :
    (∃ offset larger, request.serve pool = .ok (offset, larger)) ↔ request.Sized := by
  constructor
  · rintro ⟨offset, larger, hserve⟩
    by_contra hsized
    obtain ⟨failure, hfailure⟩ := serve_of_not_sized hsized pool
    rw [hserve] at hfailure
    contradiction
  · intro hsized
    exact ⟨_, _, serve_of_sized hsized pool⟩

end Request

structure Entry where
  offset : UInt32
  align : Nat
  data : Bytes
deriving DecidableEq, Repr

def Entry.Covers (entry : Entry) (index : Nat) : Prop :=
  entry.offset.toNat ≤ index ∧ index < entry.offset.toNat + entry.data.length

-- The pool after some requests, with the entries of those that were served.
structure History where
  pool : Pool
  entries : List Entry
deriving DecidableEq, Repr

namespace History

def empty : History := ⟨.empty, []⟩

-- A refused request changes nothing.
def next (history : History) (request : Request) : History :=
  match request.serve history.pool with
  | .ok (offset, pool) => ⟨pool, history.entries ++ [⟨offset, request.align, request.data⟩]⟩
  | .error _ => history

def after (requests : List Request) : History := requests.foldl next empty

variable {history : History} {request : Request}

theorem next_of_sized (h : request.Sized) :
    history.next request =
      ⟨(history.pool.push request.data request.align).2, history.entries ++
        [⟨(history.pool.push request.data request.align).1, request.align, request.data⟩]⟩ := by
  rw [next, Request.serve_of_sized h]

theorem next_of_not_sized (h : ¬ request.Sized) : history.next request = history := by
  obtain ⟨failure, hfailure⟩ := Request.serve_of_not_sized h history.pool
  rw [next, hfailure]

private theorem exists_next_append (history : History) (request : Request) :
    ∃ more, (history.next request).pool.bytes = history.pool.bytes ++ more := by
  by_cases hsized : request.Sized
  · rw [next_of_sized hsized]
    exact ⟨_, List.append_assoc ..⟩
  · rw [next_of_not_sized hsized]
    exact ⟨[], (List.append_nil _).symm⟩

-- Later requests only put bytes behind.
private theorem exists_foldl_append (requests : List Request) (history : History) :
    ∃ more, (requests.foldl next history).pool.bytes = history.pool.bytes ++ more := by
  induction requests generalizing history with
  | nil => exact ⟨[], (List.append_nil _).symm⟩
  | cons request rest ih =>
      obtain ⟨first, hfirst⟩ := exists_next_append history request
      obtain ⟨second, hsecond⟩ := ih (history.next request)
      exact ⟨first ++ second, by rw [List.foldl_cons, hsecond, hfirst, List.append_assoc]⟩

theorem exists_after_append (earlier later : List Request) :
    ∃ more, (after (earlier ++ later)).pool.bytes = (after earlier).pool.bytes ++ more := by
  rw [after, List.foldl_append]
  exact exists_foldl_append later _

theorem after_concat (requests : List Request) (request : Request) :
    after (requests ++ [request]) = (after requests).next request :=
  List.foldl_concat ..

-- What holds of every history whose pool can be addressed.
structure Intact (history : History) : Prop where
  aligned : ∀ entry ∈ history.entries, max entry.align 1 ∣ entry.offset.toNat
  kept : ∀ entry ∈ history.entries,
    history.pool.read? entry.offset (UInt32.ofNat entry.data.length) = some entry.data
  ordered : history.entries.Pairwise fun first second =>
    first.offset.toNat + first.data.length ≤ second.offset.toNat
  blank : ∀ index < history.pool.bytes.length,
    (∀ entry ∈ history.entries, ¬ entry.Covers index) → history.pool.bytes[index]? = some 0

theorem intact_empty : empty.Intact := by
  refine ⟨?_, ?_, .nil, ?_⟩ <;> simp [empty, Pool.empty]

theorem Intact.inside (h : history.Intact) {entry : Entry} (hentry : entry ∈ history.entries) :
    entry.offset.toNat + entry.data.length ≤ history.pool.bytes.length := by
  have hkept := h.kept entry hentry
  rw [Bytes.length_of_slice? hkept]
  exact Bytes.le_of_slice? hkept

end History

-- The offset and the bytes of a new entry.
theorem push_spec (pool : Pool) (data : Bytes) (align : Nat)
    (h : (pool.push data align).2.bytes.length < UInt32.size) :
    ∃ gap : Nat, (pool.push data align).2.bytes = pool.bytes ++ Bytes.zeros gap ++ data ∧
      (pool.push data align).1.toNat = pool.bytes.length + gap ∧
      max align 1 ∣ (pool.push data align).1.toNat := by
  have hlength : (pool.bytes ++ Bytes.zeros (padding (max align 1) pool.bytes.length)).length =
      pool.bytes.length + padding (max align 1) pool.bytes.length := by
    rw [List.length_append, Bytes.length_zeros]
  have hoffset : (pool.push data align).1.toNat =
      pool.bytes.length + padding (max align 1) pool.bytes.length := by
    rw [push, List.length_append, hlength] at h
    rw [push, hlength, UInt32.toNat_ofNat_of_lt' (by omega)]
  refine ⟨_, rfl, hoffset, ?_⟩
  rw [hoffset]
  exact dvd_add_padding (by omega) _

theorem read?_push (pool : Pool) (data : Bytes) (align : Nat)
    (h : (pool.push data align).2.bytes.length < UInt32.size) :
    (pool.push data align).2.read? (pool.push data align).1 (UInt32.ofNat data.length) =
      some data := by
  obtain ⟨gap, hbytes, hoffset, -⟩ := push_spec pool data align h
  have hfront : (pool.bytes ++ Bytes.zeros gap).length = (pool.push data align).1.toNat := by
    rw [hoffset, List.length_append, Bytes.length_zeros]
  have hdata : data.length < UInt32.size := by
    rw [hbytes, List.length_append] at h
    omega
  rw [read?, hbytes, ← hfront, UInt32.toNat_ofNat_of_lt' hdata]
  exact Bytes.slice?_append_self

namespace History

variable {history : History} {request : Request}

theorem Intact.next_of_sized (h : history.Intact) (hsized : request.Sized)
    (hlength : (history.next request).pool.bytes.length < UInt32.size) :
    (history.next request).Intact := by
  rw [History.next_of_sized hsized] at hlength ⊢
  obtain ⟨gap, hbytes, hoffset, haligned⟩ := push_spec _ _ _ hlength
  have hread := read?_push _ _ _ hlength
  refine ⟨?_, ?_, ?_, ?_⟩
  · exact List.forall_mem_append.mpr ⟨h.aligned, List.forall_mem_singleton.mpr haligned⟩
  · refine List.forall_mem_append.mpr ⟨?_, List.forall_mem_singleton.mpr hread⟩
    intro entry hentry
    rw [read?, hbytes, List.append_assoc]
    exact Bytes.slice?_append (h.kept entry hentry) _
  · refine List.pairwise_append.mpr ⟨h.ordered, List.pairwise_singleton _ _, ?_⟩
    intro entry hentry
    refine List.forall_mem_singleton.mpr ?_
    have hinside := h.inside hentry
    dsimp only
    omega
  · -- An index in the old pool, in the gap, or in the new entry.
    intro index hindex hfree
    obtain ⟨hold, hnew⟩ := List.forall_mem_append.mp hfree
    have hnew := List.forall_mem_singleton.mp hnew
    dsimp only at hindex ⊢
    rw [hbytes] at hindex ⊢
    by_cases hinside : index < history.pool.bytes.length
    · rw [List.append_assoc, List.getElem?_append_left hinside]
      exact h.blank index hinside hold
    · have hgap : index < history.pool.bytes.length + gap := by
        by_contra hbehind
        rw [List.length_append, List.length_append, Bytes.length_zeros] at hindex
        refine hnew ⟨?_, ?_⟩ <;> dsimp only <;> omega
      rw [List.getElem?_append_left (by rw [List.length_append, Bytes.length_zeros]; omega),
        List.getElem?_append_right (by omega), Bytes.zeros, List.getElem?_replicate,
        if_pos (by omega)]

theorem Intact.next (h : history.Intact) (request : Request)
    (hlength : (history.next request).pool.bytes.length < UInt32.size) :
    (history.next request).Intact := by
  by_cases hsized : request.Sized
  · exact h.next_of_sized hsized hlength
  · rwa [next_of_not_sized hsized]

-- From the last request back: the pool was never longer before.
theorem intact_after {requests : List Request}
    (h : (after requests).pool.bytes.length < UInt32.size) : (after requests).Intact := by
  induction requests using List.reverseRecOn with
  | nil => exact intact_empty
  | append_singleton requests request ih =>
      obtain ⟨more, hmore⟩ := exists_after_append requests [request]
      have hbefore : (after requests).pool.bytes.length < UInt32.size := by
        rw [hmore, List.length_append] at h
        omega
      rw [after_concat] at h ⊢
      exact (ih hbefore).next request h

-- One request in the middle of a history: where its data went, and that it is still there.
theorem serve_kept {earlier later : List Request} {offset : UInt32} {larger : Pool}
    (h : (after (earlier ++ request :: later)).pool.bytes.length < UInt32.size)
    (hserve : request.serve (after earlier).pool = .ok (offset, larger)) :
    max request.align 1 ∣ offset.toNat ∧ (after earlier).pool.bytes.length ≤ offset.toNat ∧
      (after (earlier ++ request :: later)).pool.read? offset (UInt32.ofNat request.data.length) =
        some request.data := by
  have hsized := Request.exists_serve_iff.mp ⟨offset, larger, hserve⟩
  have hpush := Except.ok.inj ((Request.serve_of_sized hsized _).symm.trans hserve)
  obtain ⟨more, hmore⟩ := exists_after_append (earlier ++ [request]) later
  rw [List.append_assoc, List.singleton_append, after_concat, History.next_of_sized hsized,
    hpush] at hmore
  dsimp only at hmore
  have hlength : larger.bytes.length < UInt32.size := by
    rw [hmore, List.length_append] at h
    omega
  have hspec := push_spec (after earlier).pool request.data request.align
  have hread := read?_push (after earlier).pool request.data request.align
  rw [hpush] at hspec hread
  obtain ⟨gap, -, hoffset, haligned⟩ := hspec hlength
  refine ⟨haligned, by dsimp only at hoffset; omega, ?_⟩
  rw [read?, hmore]
  exact Bytes.slice?_append (hread hlength) more

end History

end Pool

namespace Scopes

def constantRequest (constant : Constant) : Pool.Request := .typed constant.ty constant.bytes

-- The constants of a library are one history of the pool.
theorem filled_eq_foldl {constants : List Constant}
    (hsized : ∀ constant ∈ constants, (constantRequest constant).Sized) (history : Pool.History) :
    filled history.pool constants =
      ((constants.map constantRequest).foldl Pool.History.next history).pool := by
  induction constants generalizing history with
  | nil => rfl
  | cons constant rest ih =>
      obtain ⟨hfirst, hrest⟩ := List.forall_mem_cons.mp hsized
      have hnext : (history.next (constantRequest constant)).pool =
          (history.pool.push constant.bytes constant.ty.alignment).2 := by
        rw [Pool.History.next_of_sized hfirst]
        rfl
      rw [List.map_cons, List.foldl_cons, ← ih hrest, hnext, filled, List.foldl_cons, filled]

private theorem constantRow_mem (pool : Pool) (front : List Constant) (constant : Constant)
    (back : List Constant) :
    constantRow (filled pool front) constant ∈ constantRows pool (front ++ constant :: back) := by
  induction front generalizing pool with
  | nil => exact List.mem_cons_self
  | cons first rest ih => exact List.mem_cons_of_mem _ (ih _)

private theorem sized_of_ofLibrary {library : Library} {scopes : Scopes} {literals : Pool}
    (h : ofLibrary library = .ok (scopes, literals)) :
    ∀ constant ∈ library.constants, (constantRequest constant).Sized := by
  obtain ⟨found, -, hlies⟩ := ofLibrary_eq_ok h
  intro constant hmem
  obtain ⟨row, hrow⟩ := exists_of_mem_left hlies hmem
  exact hrow.2.size

private theorem exists_constant_offset {library : Library} {scopes : Scopes} {literals : Pool}
    (h : ofLibrary library = .ok (scopes, literals)) (hlength : literals.bytes.length < UInt32.size)
    {constant : Constant} (hconstant : constant ∈ library.constants) :
    ∃ offset size, ⟨constant.ty, .pool offset⟩ ∈ scopes.current.overloads constant.name ∧
      constant.ty.size? = some size ∧ (∀ atom ∈ constant.ty.atoms, atom.alignment ∣ offset.toNat) ∧
      literals.read? offset size = some constant.bytes := by
  have hsized := sized_of_ofLibrary h
  have hserve := Pool.Request.serve_of_sized (hsized constant hconstant)
  obtain ⟨size, hsize, hbytes⟩ := Option.map_eq_some_iff.mp (hsized constant hconstant)
  obtain ⟨hscopes, hliterals⟩ := ofLibrary_eq_rows h
  obtain ⟨front, back, hsplit⟩ := List.append_of_mem hconstant
  have hbefore : filled .empty front = (Pool.History.after (front.map constantRequest)).pool :=
    filled_eq_foldl (fun other hmem => hsized other (hsplit ▸ List.mem_append_left _ hmem)) .empty
  have hpool : literals = (Pool.History.after
      (front.map constantRequest ++ constantRequest constant :: back.map constantRequest)).pool := by
    rw [hliterals, ← List.map_cons, ← List.map_append, ← hsplit]
    exact filled_eq_foldl hsized .empty
  rw [hpool] at hlength
  obtain ⟨haligned, -, hread⟩ := Pool.History.serve_kept hlength (hserve _)
  refine ⟨_, size, ?_, hsize, Ty.alignment_dvd haligned, ?_⟩
  · have hrow := constantRow_mem .empty front constant back
    rw [← hsplit, hbefore] at hrow
    rw [hscopes, Scope.overloads, List.mem_map]
    refine ⟨_, List.mem_filter.mpr ⟨List.mem_append_right _ (List.mem_append_right _ hrow), ?_⟩, rfl⟩
    exact decide_eq_true rfl
  · have hdata : UInt32.ofNat constant.bytes.length = size := by
      rw [← hbytes, UInt32.ofNat_toNat]
    rw [hpool, ← hdata]
    exact hread

end Scopes

namespace Machine

private theorem step_loadL {literals : Pool} {instruction : Instruction} {offset size : UInt32}
    {bytes : Bytes} (hload : (instruction.op, instruction.payload) = Analysis.loadOf (.pool offset))
    (hsize : instruction.result.size? = some size) (hread : literals.read? offset size = some bytes)
    (library : Library) (store : Store) :
    step literals library store instruction =
      .running <$> store.push instruction.placement bytes := by
  obtain ⟨hop, hpayload⟩ := Prod.mk.inj hload
  rw [step, hsize, inRange, ok_bind, hop]
  dsimp only
  rw [loadLiteral, hpayload]
  dsimp only
  rw [hread]

end Machine

-- For every history: what one request in it gets and keeps, how all entries lie at its end, and what
-- this means for the constants of a library.
theorem pool_keeps_literals :
    (∀ (earlier later : List Pool.Request) (request : Pool.Request),
      (Pool.History.after (earlier ++ request :: later)).pool.bytes.length < UInt32.size →
      ((∃ offset larger,
        request.serve (Pool.History.after earlier).pool = .ok (offset, larger)) ↔ request.Sized) ∧
      (∀ offset larger, request.serve (Pool.History.after earlier).pool = .ok (offset, larger) →
        Pool.History.after (earlier ++ [request]) =
          ⟨larger, (Pool.History.after earlier).entries ++
            [⟨offset, request.align, request.data⟩]⟩ ∧
        max request.align 1 ∣ offset.toNat ∧
        (Pool.History.after earlier).pool.bytes.length ≤ offset.toNat ∧
        (Pool.History.after (earlier ++ request :: later)).pool.read? offset
          (UInt32.ofNat request.data.length) = some request.data) ∧
      ∀ failure, request.serve (Pool.History.after earlier).pool = .error failure →
        Pool.History.after (earlier ++ [request]) = Pool.History.after earlier) ∧
    (∀ requests : List Pool.Request,
      (Pool.History.after requests).pool.bytes.length < UInt32.size →
      (Pool.History.after requests).Intact) ∧
    ∀ (library : Library) (scopes : Scopes) (literals : Pool),
      Scopes.ofLibrary library = .ok (scopes, literals) → literals.bytes.length < UInt32.size →
      ∀ constant ∈ library.constants, ∃ offset,
        ⟨constant.ty, .pool offset⟩ ∈ scopes.current.overloads constant.name ∧
        (∀ atom ∈ constant.ty.atoms, atom.alignment ∣ offset.toNat) ∧
        ∀ instruction : Instruction,
          (instruction.op, instruction.payload) = Analysis.loadOf (.pool offset) →
          instruction.result = constant.ty → ∀ (other : Library) (store : Store),
          Machine.step literals other store instruction =
            .running <$> store.push instruction.placement constant.bytes := by
  refine ⟨?_, ?_, ?_⟩
  · intro earlier later request hlength
    refine ⟨Pool.Request.exists_serve_iff, ?_, ?_⟩
    · intro offset larger hserve
      refine ⟨?_, Pool.History.serve_kept hlength hserve⟩
      rw [Pool.History.after_concat, Pool.History.next, hserve]
    · intro failure hserve
      rw [Pool.History.after_concat, Pool.History.next, hserve]
  · intro requests hlength
    exact Pool.History.intact_after hlength
  · intro library scopes literals hroot hlength constant hconstant
    obtain ⟨offset, size, hbound, hsize, haligned, hread⟩ :=
      Scopes.exists_constant_offset hroot hlength hconstant
    refine ⟨offset, hbound, haligned, ?_⟩
    intro instruction hload hresult other store
    exact Machine.step_loadL hload (hresult ▸ hsize) hread other store

-- A pair of a byte and a float, with its nine bytes.
def Pool.Request.pair : Pool.Request :=
  .typed (.tuple [.ofPrimitive .u8, .ofPrimitive .f64]) [7, 0, 0, 0, 0, 0, 0, 12, 64]

-- Too few bytes for the type.
def Pool.Request.short : Pool.Request := .typed (.ofPrimitive .f64) [0, 0, 0, 0]

def Pool.Request.before : List Pool.Request := [.plain [1] 1, .short, .plain [] 4]

def Pool.Request.behind : List Pool.Request := [.plain [2, 3] 0, .plain [4] 8]

def Pool.History.mixed : Pool.History :=
  .after (Pool.Request.before ++ .pair :: Pool.Request.behind)

theorem pool_keeps_literals_mixed :
    Pool.History.mixed.pool.bytes.length < UInt32.size ∧
    Pool.History.mixed.entries.map Pool.Entry.offset = [0, 4, 8, 17, 24] ∧
    Pool.History.mixed.Intact ∧
    Pool.History.mixed.pool.read? 8 9 = some Pool.Request.pair.data ∧
    Pool.History.after ([.plain [1] 1] ++ [Pool.Request.short]) =
      Pool.History.after [.plain [1] 1] ∧
    ∃ scopes literals, Scopes.ofLibrary .standard = .ok (scopes, literals) ∧
      literals.bytes.length < UInt32.size ∧
      ∀ constant ∈ Library.standard.constants, ∃ offset,
        ⟨constant.ty, .pool offset⟩ ∈ scopes.current.overloads constant.name := by
  obtain ⟨hrequest, hrequests, hlibrary⟩ := pool_keeps_literals
  have hlength : Pool.History.mixed.pool.bytes.length < UInt32.size := by decide +kernel
  have hserve : ∃ larger, Pool.Request.pair.serve
      (Pool.History.after Pool.Request.before).pool = .ok (8, larger) :=
    ⟨_, rfl⟩
  have hshort : ∃ failure, Pool.Request.short.serve
      (Pool.History.after [.plain [1] 1]).pool = .error failure := ⟨_, rfl⟩
  obtain ⟨larger, hserve⟩ := hserve
  obtain ⟨failure, hshort⟩ := hshort
  obtain ⟨-, hserved, -⟩ := hrequest Pool.Request.before Pool.Request.behind .pair hlength
  obtain ⟨-, -, -, hpair⟩ := hserved 8 larger hserve
  obtain ⟨-, -, hrefused⟩ := hrequest [.plain [1] 1] [] .short (by decide +kernel)
  obtain ⟨scopes, literals, hroot, hbound⟩ : ∃ scopes literals,
      Scopes.ofLibrary .standard = .ok (scopes, literals) ∧
        literals.bytes.length < UInt32.size := ⟨_, _, rfl, by decide +kernel⟩
  refine ⟨hlength, by decide +kernel, hrequests _ hlength, hpair, hrefused failure hshort, scopes,
    literals, hroot, hbound, ?_⟩
  intro constant hconstant
  obtain ⟨offset, hoffset, -⟩ := hlibrary _ scopes literals hroot hbound constant hconstant
  exact ⟨offset, hoffset⟩

end Sluice

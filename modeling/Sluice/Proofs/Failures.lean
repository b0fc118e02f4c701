import Mathlib
import Sluice.Proofs.CompiledTypes
import Sluice.Proofs.Frames

namespace Sluice

-- What an instruction checks before it works on any bytes. The check of a handle is left out, and so
-- are accesses that nothing checks.
def Problem.isChecked : Problem → Bool
  | .unknownHandle _ | .nativeMismatch .. | .outOfRange => false
  | _ => true

-- What can be said of the failure of a computation, if it fails.
def FailsAs {α : Type} (P : Failure → Prop) (outcome : Except Failure α) : Prop :=
  ∀ failure, outcome = .error failure → P failure

def Failure.Checked (failure : Failure) : Prop := failure.problem.isChecked = true

-- The two ways in which the check of a handle fails.
def Failure.FromHandle (failure : Failure) : Prop :=
  (∃ handle, failure = .plain (.unknownHandle handle)) ∨
    ∃ name ty called count, failure = .plain (.nativeMismatch name ty called count)

theorem Failure.Checked.not_fromHandle {failure : Failure} (h : failure.Checked) :
    ¬ failure.FromHandle := by
  rintro (⟨handle, rfl⟩ | ⟨name, ty, called, count, rfl⟩) <;> cases h

theorem Failure.not_fromHandle_outOfRange : ¬ (Failure.plain .outOfRange).FromHandle := by
  rintro (⟨handle, h⟩ | ⟨name, ty, called, count, h⟩) <;> cases h

section Outcomes

variable {α β : Type} {P : Failure → Prop}

theorem failsAs_ok (value : α) : FailsAs P (.ok value) := by
  intro failure hfailure
  contradiction

theorem failsAs_error {failure : Failure} (h : P failure) :
    FailsAs P (.error failure : Except _ α) := by
  rintro _ ⟨⟩
  exact h

theorem failsAs_inRange {value : Option α} (h : value ≠ none) : FailsAs P (inRange value) := by
  obtain ⟨found, rfl⟩ := Option.ne_none_iff_exists'.mp h
  exact failsAs_ok found

theorem failsAs_inRange_of {value : Option α} (h : P (.plain .outOfRange)) :
    FailsAs P (inRange value) := by
  cases value with
  | none => exact failsAs_error h
  | some found => exact failsAs_ok found

theorem FailsAs.of_checked {outcome : Except Failure α} (h : FailsAs Failure.Checked outcome) :
    FailsAs (fun failure => ¬ failure.FromHandle) outcome :=
  fun failure hfailure => (h failure hfailure).not_fromHandle

theorem FailsAs.bind {first : Except Failure α} {next : α → Except Failure β}
    (h : FailsAs P first) (hnext : ∀ value, first = .ok value → FailsAs P (next value)) :
    FailsAs P (first >>= next) := by
  cases first with
  | error failure => exact failsAs_error (h failure rfl)
  | ok value => exact hnext value rfl

theorem FailsAs.map {first : Except Failure α} (h : FailsAs P first) (f : α → β) :
    FailsAs P (f <$> first) := by
  cases first with
  | error failure => exact failsAs_error (h failure rfl)
  | ok value => exact failsAs_ok (f value)

end Outcomes

-- Operations on a buffer that is not shorter than its frame check all that they do.
namespace Store

variable {store rest : Store} {placement : Int32} {data : Bytes} {offset size : UInt32}

theorem checked_push (hstore : store.Framed) (hdata : data.length < UInt32.size) :
    FailsAs Failure.Checked (store.push placement data) := by
  rw [hstore.eq_laid, push_laid hdata]
  split
  · exact failsAs_ok _
  · split
    · exact failsAs_error rfl
    · exact failsAs_ok _

theorem checked_pop (hstore : store.Framed) : FailsAs Failure.Checked (store.pop size) := by
  rw [hstore.eq_laid, pop_laid]
  split
  · exact failsAs_error rfl
  · exact failsAs_ok _

theorem checked_readFrame (hstore : store.Framed) :
    FailsAs Failure.Checked (store.readFrame offset size) := by
  rw [hstore.eq_laid, readFrame_laid]
  split
  · exact failsAs_error rfl
  · rename_i hinside
    refine failsAs_inRange ?_
    rw [Bytes.slice?, if_pos (Nat.le_of_not_lt hinside)]
    exact Option.some_ne_none _

theorem checked_writeFrame (hstore : store.Framed) :
    FailsAs Failure.Checked (store.writeFrame offset data) := by
  rw [hstore.eq_laid, writeFrame_laid]
  split
  · exact failsAs_error rfl
  · exact failsAs_ok _

theorem checked_height (hstore : store.Framed) : FailsAs Failure.Checked store.height := by
  rw [hstore.eq_laid, height_laid]
  exact failsAs_ok _

theorem length_lt_of_pop (h : store.pop size = .ok (data, rest)) : data.length < UInt32.size := by
  rw [(pop_eq_ok h).2]
  exact size.toNat_lt

theorem length_lt_of_readFrame (h : store.readFrame offset size = .ok data) :
    data.length < UInt32.size := by
  unfold readFrame at h
  dsimp only at h
  split at h
  · contradiction
  · rw [length_of_slice h]
    exact size.toNat_lt

end Store

theorem Primitive.width_lt (primitive : Primitive) : primitive.width < UInt32.size := by
  cases primitive <;> decide

theorem Immediate.checked_encode (value : Immediate) (atom : Atom) :
    FailsAs Failure.Checked (value.encode atom) := by
  unfold encode
  split
  · exact failsAs_ok _
  · exact failsAs_ok _
  · split
    · exact failsAs_ok _
    · exact failsAs_error rfl
  · exact failsAs_error rfl

theorem Immediate.length_lt_of_encode {value : Immediate} {atom : Atom} {bytes : Bytes}
    (h : value.encode atom = .ok bytes) : bytes.length < UInt32.size := by
  unfold encode at h
  split at h
  · cases h
    rw [Bytes.length_ofNat]
    decide
  · cases h
    rw [Bytes.length_ofNat]
    decide
  · split at h
    · cases h
      cases value <;> exact (Bytes.length_ofNat _ _).trans_lt (Primitive.width_lt _)
    · contradiction
  · contradiction

namespace Arithmetic

variable {operation : Operation} {atom : Atom} {left right bytes result : Bytes}

theorem length_lt_of_binary (h : binary operation atom left right = .ok result) :
    result.length < UInt32.size := by
  unfold binary at h
  split at h
  · split at h
    · obtain ⟨leftValue, -, h⟩ := bind_eq_ok.mp h
      obtain ⟨rightValue, -, h⟩ := bind_eq_ok.mp h
      split at h
      · cases h
        exact (Bytes.length_ofNat _ _).trans_lt (Primitive.width_lt .f32)
      · cases h
        exact (Bytes.length_ofNat _ _).trans_lt (Primitive.width_lt .f64)
      · cases h
        exact (Bytes.length_ofNat _ _).trans_lt (Primitive.width_lt _)
    · contradiction
  · contradiction

theorem length_lt_of_negate (h : negate atom bytes = .ok result) :
    result.length < UInt32.size := by
  unfold negate at h
  split at h
  · split at h
    · obtain ⟨value, -, h⟩ := bind_eq_ok.mp h
      split at h <;> cases h <;> exact (Bytes.length_ofNat _ _).trans_lt (Primitive.width_lt _)
    · contradiction
  · contradiction

theorem binary_failsAs (operation : Operation) (atom : Atom) (left right : Bytes) :
    FailsAs (fun failure => ¬ failure.FromHandle) (binary operation atom left right) := by
  have hoperand (width : Nat) (bytes : Bytes) :
      FailsAs (fun failure => ¬ failure.FromHandle) (operand width bytes) :=
    (failsAs_inRange_of Failure.not_fromHandle_outOfRange).map _
  unfold binary
  split
  · split
    · refine (hoperand _ _).bind fun leftValue _ => (hoperand _ _).bind fun rightValue _ => ?_
      split <;> exact failsAs_ok _
    · exact failsAs_error (Failure.Checked.not_fromHandle rfl)
  · exact failsAs_error (Failure.Checked.not_fromHandle rfl)

theorem negate_failsAs (atom : Atom) (bytes : Bytes) :
    FailsAs (fun failure => ¬ failure.FromHandle) (negate atom bytes) := by
  unfold negate
  split
  · split
    · refine ((failsAs_inRange_of Failure.not_fromHandle_outOfRange).map _).bind fun value _ => ?_
      split <;> exact failsAs_ok _
    · exact failsAs_error (Failure.Checked.not_fromHandle rfl)
  · exact failsAs_error (Failure.Checked.not_fromHandle rfl)

end Arithmetic

namespace Ty

theorem exists_size? {ty : Ty} (h : ty.isWellFormed = true) : ∃ size, ty.size? = some size :=
  ⟨_, size?_eq_extent h⟩

theorem exists_head? {ty : Ty} (h : ty.isWellFormed = true) :
    ∃ atom, ty.atoms.head? = some atom := by
  obtain ⟨tree, htree⟩ := isWellFormed_iff.mp h
  obtain ⟨atom, rest, hatoms⟩ := List.exists_cons_of_ne_nil tree.atoms_ne_nil
  exact ⟨atom, by rw [htree.atoms, hatoms, List.head?_cons]⟩

end Ty

namespace Machine

variable {literals : Pool} {library : Library} {store rest : Store} {instruction : Instruction}
variable {size : UInt32} {left right : Bytes}

theorem checked_operandSize (h : instruction.Typed fun ty => ty.isWellFormed = true)
    (index : Nat) : FailsAs Failure.Checked (operandSize instruction index) := by
  unfold operandSize
  split
  · rename_i ty hty
    obtain ⟨size, hsize⟩ :=
      Ty.exists_size? (h ty (List.mem_cons_of_mem _ (List.mem_of_getElem? hty)))
    exact failsAs_inRange (by simp [hsize])
  · exact failsAs_error rfl

theorem checked_popPair (h : instruction.Typed fun ty => ty.isWellFormed = true)
    (hstore : store.Framed) : FailsAs Failure.Checked (popPair store instruction) := by
  refine (checked_operandSize h 1).bind fun _ _ => (Store.checked_pop hstore).bind ?_
  intro top htop
  have hrest := ((Store.pop_eq_ok htop).1 hstore).1
  exact (checked_operandSize h 0).bind fun _ _ => (Store.checked_pop hrest).bind fun _ _ =>
    failsAs_ok _

-- What is popped is small enough to be pushed again.
theorem popPair_eq_ok (hstore : store.Framed)
    (h : popPair store instruction = .ok (left, right, rest)) :
    rest.Framed ∧ right.length < UInt32.size := by
  refine ⟨(keeps_popPair h hstore).1, ?_⟩
  obtain ⟨size, -, h⟩ := bind_eq_ok.mp h
  obtain ⟨⟨found, middle⟩, hpop, h⟩ := bind_eq_ok.mp h
  obtain ⟨width, -, h⟩ := bind_eq_ok.mp h
  obtain ⟨⟨other, last⟩, -, h⟩ := bind_eq_ok.mp h
  cases h
  exact Store.length_lt_of_pop hpop

theorem fits_iff {native : Native} {argument : Bytes} {size : UInt32} :
    fits native instruction argument size = true ↔
      (∃ ty, instruction.operands.head? = some ty ∧ ty.same native.ty = true) ∧
      (native.ty.argument?.bind Ty.size?).map UInt32.toNat = some argument.length ∧
      native.ty.result?.bind Ty.size? = some size := by
  simp only [fits, Bool.and_eq_true, decide_eq_true_eq, Option.any_eq_true, and_assoc]

section Operations

variable (hstore : store.Framed)

include hstore

theorem checked_loadImmediate (h : instruction.Typed fun ty => ty.isWellFormed = true) :
    FailsAs Failure.Checked (loadImmediate store instruction) := by
  obtain ⟨atom, hatom⟩ := Ty.exists_head? (h _ (List.mem_cons_self ..))
  unfold loadImmediate
  split
  · rename_i value hpayload
    refine (failsAs_inRange (by simp [hatom])).bind fun first _ => ?_
    exact (value.checked_encode first).bind fun bytes hbytes =>
      Store.checked_push hstore (Immediate.length_lt_of_encode hbytes)
  · refine Store.checked_push hstore ?_
    rw [NativeId.toBytes, Bytes.length_ofNat]
    decide
  · exact failsAs_error rfl

theorem checked_loadLiteral :
    FailsAs Failure.Checked (loadLiteral literals store instruction size) := by
  unfold loadLiteral
  split
  · split
    · rename_i bytes hbytes
      exact Store.checked_push hstore (Bytes.length_of_slice? hbytes ▸ size.toNat_lt)
    · exact failsAs_error rfl
  · exact failsAs_error rfl

theorem checked_load : FailsAs Failure.Checked (load store instruction size) := by
  unfold load
  split
  · exact (Store.checked_readFrame hstore).bind fun bytes hbytes =>
      Store.checked_push hstore (Store.length_lt_of_readFrame hbytes)
  · exact failsAs_error rfl

theorem checked_copy : FailsAs Failure.Checked (copy store instruction size) := by
  unfold copy
  split
  · refine (Store.checked_pop hstore).bind fun top htop => ?_
    have hrest := ((Store.pop_eq_ok htop).1 hstore).1
    refine (Store.checked_writeFrame hrest).bind fun written hwritten => ?_
    exact Store.checked_push (Store.writeFrame_eq_ok hrest hwritten).2.1
      (Store.length_lt_of_pop htop)
  · exact failsAs_error rfl

theorem checked_tuple : FailsAs Failure.Checked (tuple store instruction size) := by
  unfold tuple
  split
  · exact failsAs_ok _
  · refine (Store.checked_pop hstore).bind fun top htop => ?_
    exact Store.checked_push ((Store.pop_eq_ok htop).1 hstore).1 (Store.length_lt_of_pop htop)

theorem checked_member (h : instruction.Typed fun ty => ty.isWellFormed = true) :
    FailsAs Failure.Checked (member store instruction size) := by
  unfold member
  split
  · refine (checked_operandSize h 0).bind fun width _ => ?_
    refine (Store.checked_pop hstore).bind fun top htop => ?_
    dsimp only
    split
    · rename_i bytes hbytes
      exact Store.checked_push ((Store.pop_eq_ok htop).1 hstore).1
        (Bytes.length_of_slice? hbytes ▸ size.toNat_lt)
    · exact failsAs_error rfl
  · exact failsAs_error rfl

theorem checked_sequence (h : instruction.Typed fun ty => ty.isWellFormed = true) :
    FailsAs Failure.Checked (sequence store instruction) := by
  refine (checked_popPair h hstore).bind fun pair hpair => ?_
  obtain ⟨hrest, hkept⟩ := popPair_eq_ok hstore hpair
  exact Store.checked_push hrest hkept

theorem checked_finish : FailsAs Failure.Checked (finish store instruction size) := by
  refine (Store.checked_pop hstore).bind fun top htop => ?_
  refine (Store.checked_height ((Store.pop_eq_ok htop).1 hstore).1).bind fun height _ => ?_
  split
  · exact failsAs_error rfl
  · exact failsAs_ok _

theorem arithmetic_failsAs (h : instruction.Typed fun ty => ty.isWellFormed = true)
    (operation : Arithmetic.Operation) :
    FailsAs (fun failure => ¬ failure.FromHandle) (arithmetic store instruction operation) := by
  refine ((checked_popPair h hstore).of_checked).bind fun pair hpair => ?_
  refine (failsAs_inRange_of Failure.not_fromHandle_outOfRange).bind fun first _ => ?_
  refine (Arithmetic.binary_failsAs _ _ _ _).bind fun bytes hbytes => ?_
  exact (Store.checked_push (popPair_eq_ok hstore hpair).1
    (Arithmetic.length_lt_of_binary hbytes)).of_checked

theorem negate_failsAs (h : instruction.Typed fun ty => ty.isWellFormed = true) :
    FailsAs (fun failure => ¬ failure.FromHandle) (negate store instruction) := by
  refine ((checked_operandSize h 0).of_checked).bind fun size _ => ?_
  refine ((Store.checked_pop hstore).of_checked).bind fun top htop => ?_
  refine (failsAs_inRange_of Failure.not_fromHandle_outOfRange).bind fun first _ => ?_
  refine (Arithmetic.negate_failsAs _ _).bind fun bytes hbytes => ?_
  exact (Store.checked_push ((Store.pop_eq_ok htop).1 hstore).1
    (Arithmetic.length_lt_of_negate hbytes)).of_checked

-- Only calls look at handles.
theorem op_eq_call_of_fromHandle {failure : Failure}
    (htyped : instruction.Typed fun ty => ty.isWellFormed = true)
    (h : step literals library store instruction = .error failure)
    (hhandle : failure.FromHandle) : instruction.op = .call := by
  by_contra hcall
  suffices hstep : FailsAs (fun failure => ¬ failure.FromHandle)
      (step literals library store instruction) from hstep failure h hhandle
  refine (failsAs_inRange_of Failure.not_fromHandle_outOfRange).bind fun size _ => ?_
  cases hop : instruction.op
  case call => exact absurd hop hcall
  case unresolved => exact failsAs_error (Failure.Checked.not_fromHandle rfl)
  case nop => exact failsAs_ok _
  case add => exact (arithmetic_failsAs hstore htyped _).map _
  case sub => exact (arithmetic_failsAs hstore htyped _).map _
  case mul => exact (arithmetic_failsAs hstore htyped _).map _
  case neg => exact (negate_failsAs hstore htyped).map _
  all_goals refine FailsAs.map (FailsAs.of_checked ?_) _
  case loadI => exact checked_loadImmediate hstore htyped
  case loadL => exact checked_loadLiteral hstore
  case load => exact checked_load hstore
  case copy => exact checked_copy hstore
  case tuple => exact checked_tuple hstore
  case member => exact checked_member hstore htyped
  case seq => exact checked_sequence hstore htyped
  case finish => exact checked_finish hstore

end Operations

end Machine

end Sluice

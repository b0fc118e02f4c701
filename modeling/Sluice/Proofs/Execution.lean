import Mathlib
import Sluice.Proofs.Steps
import Sluice.Proofs.Stores
import Sluice.Proofs.Types

namespace Sluice

namespace Machine

variable (literals : Pool) (library : Library)

-- An instruction that is not the last one.
def advance (store : Store) (instruction : Instruction) : Except Failure Store := do
  match ← step literals library store instruction with
  | .running store => .ok store
  | .done _ => .error (.plain .endedWithoutFinish)

def exec (store : Store) (code : List Instruction) : Except Failure Store :=
  code.foldlM (advance literals library) store

variable {literals library}

theorem exec_append (store : Store) (first second : List Instruction) :
    exec literals library store (first ++ second) =
      exec literals library store first >>= fun store => exec literals library store second :=
  List.foldlM_append

theorem exec_singleton (store : Store) (instruction : Instruction) :
    exec literals library store [instruction] = advance literals library store instruction := by
  simp only [exec, List.foldlM_cons, List.foldlM_nil]
  cases advance literals library store instruction <;> rfl

-- Code that runs to its end is followed by what comes behind it.
theorem run_of_exec_ok {index : Nat} {store after : Store} {code : List Instruction}
    (rest : List Instruction) (h : exec literals library store code = .ok after) :
    (run literals library index store (code ++ rest)).2 =
      (run literals library (index + code.length) after rest).2 := by
  induction code generalizing index store with
  | nil =>
      cases h
      rfl
  | cons instruction code ih =>
      obtain ⟨next, hadvance, h⟩ := bind_eq_ok.mp h
      obtain ⟨outcome, hstep, hrunning⟩ := bind_eq_ok.mp hadvance
      cases outcome with
      | done value => contradiction
      | running store =>
          cases hrunning
          have hindex : index + (code.length + 1) = index + 1 + code.length := by omega
          simp only [List.cons_append, run, hstep, List.length_cons, hindex]
          exact ih h

theorem run_of_exec_error {index : Nat} {store : Store} {code : List Instruction}
    {failure : Failure} (rest : List Instruction) (hfailure : failure ≠ .plain .endedWithoutFinish)
    (h : exec literals library store code = .error failure) :
    (run literals library index store (code ++ rest)).2 = .error failure := by
  induction code generalizing index store with
  | nil => contradiction
  | cons instruction code ih =>
      simp only [exec, List.foldlM_cons] at h
      simp only [List.cons_append, run]
      cases hstep : step literals library store instruction with
      | error first =>
          simp only [advance, hstep, error_bind, Except.error.injEq] at h
          rw [h]
      | ok outcome =>
          cases outcome with
          | done value =>
              simp only [advance, hstep, ok_bind, error_bind, Except.error.injEq] at h
              exact absurd h.symm hfailure
          | running store =>
              simp only [advance, hstep, ok_bind] at h
              exact ih h

-- A run that fails does so at an instruction that it has reached.
theorem run_eq_error_iff {index : Nat} {store : Store} {code : List Instruction} {failure : Failure}
    (hfailure : failure ≠ .plain .endedWithoutFinish) :
    (run literals library index store code).2 = .error failure ↔
      ∃ before instruction after reached, code = before ++ instruction :: after ∧
        exec literals library store before = .ok reached ∧
        step literals library reached instruction = .error failure := by
  constructor
  · intro h
    induction code generalizing index store with
    | nil =>
        simp only [run, Except.error.injEq] at h
        exact absurd h.symm hfailure
    | cons instruction code ih =>
        rw [run] at h
        cases hstep : step literals library store instruction with
        | error found =>
            rw [hstep] at h
            cases h
            exact ⟨[], instruction, code, store, rfl, rfl, hstep⟩
        | ok outcome =>
            rw [hstep] at h
            cases outcome with
            | done value => cases h
            | running next =>
                obtain ⟨before, found, after, reached, rfl, hexec, hfound⟩ := ih h
                refine ⟨instruction :: before, found, after, reached, rfl, ?_, hfound⟩
                simp only [exec, List.foldlM_cons, advance, hstep, ok_bind]
                exact hexec
  · rintro ⟨before, instruction, after, reached, rfl, hexec, hstep⟩
    rw [run_of_exec_ok _ hexec, run, hstep]

end Machine

namespace Store

-- The topmost bytes are taken off as they were put on.
theorem pop_append {frame stack data : Bytes} {size : UInt32} (h : size.toNat = data.length) :
    (laid frame (stack ++ data)).pop size = .ok (data, laid frame stack) := by
  simp [pop_laid, h]

theorem push_zero {frame stack data : Bytes} (h : data.length < UInt32.size) :
    (laid frame stack).push 0 data = .ok (laid frame (stack ++ data)) := by
  simp [push_laid h, Bytes.zeros]

-- A hole below the topmost bytes is filled from above.
theorem push_below {frame stack hole top data : Bytes} {placement : Int32}
    (hdata : data.length < UInt32.size) (hhole : hole.length = data.length)
    (hpos : 0 < data.length)
    (hplacement : placement.toInt = -((data.length + top.length : Nat) : Int)) :
    (laid frame (stack ++ hole ++ top)).push placement data =
      .ok (laid frame (stack ++ data ++ top)) := by
  have hnegative : ¬ (0 : Int32) ≤ placement := by
    rw [Int32.le_iff_toInt_le, hplacement]
    simp
    omega
  have hbelow : (-placement.toInt).toNat = data.length + top.length := by
    rw [hplacement]
    omega
  have hheight : (stack ++ hole ++ top).length = stack.length + (data.length + top.length) := by
    simp [hhole]
  have hfits : ¬ ((stack ++ hole ++ top).length < data.length + top.length ∨
      data.length + top.length < data.length) := by omega
  have hwrite : (stack ++ hole ++ top).write stack.length data = stack ++ data ++ top := by
    rw [List.append_assoc, ← Nat.add_zero stack.length, Bytes.write_append, Bytes.write,
      List.take_zero, Nat.zero_add, List.nil_append, List.drop_left' hhole, List.append_assoc]
  rw [push_laid hdata, if_neg hnegative, hbelow, if_neg hfits, hheight, Nat.add_sub_cancel, hwrite]

end Store

theorem toInt_toInt32_eq_bmod (word : UInt32) :
    word.toInt32.toInt = (word.toNat : Int).bmod (2 ^ 32) := by
  have hbits : word.toInt32.toInt = word.toBitVec.toInt := rfl
  have hnat : word.toBitVec.toNat = word.toNat := rfl
  rw [hbits, BitVec.toInt_eq_toNat_bmod, hnat]

theorem toInt_toInt32 {size : UInt32} (h : size.toNat < 2147483648) :
    size.toInt32.toInt = size.toNat := by
  rw [toInt_toInt32_eq_bmod]
  exact Int.bmod_eq_of_le_mul_two (by omega) (by omega)

namespace Analysis

-- A pool, a library and a size of the frame, with the failures that a run may end in.
structure Setting where
  literals : Pool
  library : Library
  limit : Nat
  allowed : Failure → Prop

-- From a frame to a value and a frame.
abbrev Meaning := Bytes → Except Failure (Bytes × Bytes)

variable (setting : Setting)

structure Meaning.Bounded (meaning : Meaning) (width : Nat) : Prop where
  width : ∀ {frame value after : Bytes}, frame.length = setting.limit →
    meaning frame = .ok (value, after) → value.length = width ∧ after.length = setting.limit
  failure : ∀ {frame : Bytes} {failure : Failure}, frame.length = setting.limit →
    meaning frame = .error failure → setting.allowed failure

-- Code that leaves the value on top of the stack.
structure Prepares (code : List Instruction) (width : Nat) (meaning : Meaning) : Prop where
  bounded : meaning.Bounded setting width
  exec : ∀ frame stack : Bytes, frame.length = setting.limit →
    Machine.exec setting.literals setting.library (.laid frame stack) code =
      (meaning frame).map fun outcome => .laid outcome.2 (stack ++ outcome.1)

-- Code that places the value where it is told to.
structure Yields (segment : Segment) (width : Nat) (meaning : Meaning) : Prop where
  small : width < UInt32.size
  bounded : meaning.Bounded setting width
  exec : ∀ (frame stack : Bytes) (placement : Int32), frame.length = setting.limit →
    Machine.exec setting.literals setting.library (.laid frame stack) (segment.code placement) =
      meaning frame >>= fun outcome => (Store.laid outcome.2 stack).push placement outcome.1

-- One instruction that takes the topmost bytes and places what it makes of them.
structure Acts (instruction : Instruction) (need width : Nat)
    (action : Bytes → Meaning) : Prop where
  small : width < UInt32.size
  bounded : ∀ {operand : Bytes}, operand.length = need → (action operand).Bounded setting width
  advance : ∀ (frame stack operand : Bytes) (placement : Int32), frame.length = setting.limit →
    operand.length = need →
    Machine.advance setting.literals setting.library (.laid frame (stack ++ operand))
        (instruction.placed placement) =
      action operand frame >>= fun outcome => (Store.laid outcome.2 stack).push placement outcome.1

variable {setting}

-- One meaning after the other.
def Meaning.andThen (first : Meaning) (action : Bytes → Meaning) : Meaning := fun frame => do
  let (value, frame) ← first frame
  action value frame

theorem Meaning.Bounded.andThen {first : Meaning} {action : Bytes → Meaning} {need width : Nat}
    (hfirst : first.Bounded setting need)
    (haction : ∀ {operand : Bytes}, operand.length = need →
      (action operand).Bounded setting width) :
    (first.andThen action).Bounded setting width := by
  constructor
  · intro frame value after hframe h
    obtain ⟨⟨operand, middle⟩, hoperand, h⟩ := bind_eq_ok.mp h
    obtain ⟨hneed, hmiddle⟩ := hfirst.width hframe hoperand
    exact (haction hneed).width hmiddle h
  · intro frame failure hframe h
    cases hoperand : first frame with
    | error first =>
        simp only [Meaning.andThen, hoperand, error_bind, Except.error.injEq] at h
        exact h ▸ hfirst.failure hframe hoperand
    | ok outcome =>
        simp only [Meaning.andThen, hoperand, ok_bind] at h
        obtain ⟨hneed, hmiddle⟩ := hfirst.width hframe hoperand
        exact (haction hneed).failure hmiddle h

-- A value that needs no more work.
def Meaning.give (value : Bytes) : Meaning := fun frame => .ok (value, frame)

theorem Meaning.bounded_give {value : Bytes} {width : Nat} (h : value.length = width) :
    (Meaning.give value).Bounded setting width := by
  constructor
  · intro frame found after hframe hfound
    cases hfound
    exact ⟨h, hframe⟩
  · intro frame failure hframe hfailure
    contradiction

-- Two values next to each other.
def Meaning.pair (left right : Meaning) : Meaning :=
  left.andThen fun first => right.andThen fun second => .give (first ++ second)

theorem Meaning.Bounded.pair {left right : Meaning} {leftWidth rightWidth : Nat}
    (hleft : left.Bounded setting leftWidth) (hright : right.Bounded setting rightWidth) :
    (Meaning.pair left right).Bounded setting (leftWidth + rightWidth) :=
  hleft.andThen fun hfirst => hright.andThen fun hsecond =>
    Meaning.bounded_give (by rw [List.length_append, hfirst, hsecond])

theorem Yields.prepares {segment : Segment} {width : Nat} {meaning : Meaning}
    (h : Yields setting segment width meaning) :
    Prepares setting (segment.code 0) width meaning := by
  refine ⟨h.bounded, fun frame stack hframe => ?_⟩
  rw [h.exec frame stack 0 hframe]
  cases hmeaning : meaning frame with
  | error failure => rfl
  | ok outcome => exact Store.push_zero ((h.bounded.width hframe hmeaning).1 ▸ h.small)

theorem prepares_nil : Prepares setting [] 0 (.give []) := by
  refine ⟨Meaning.bounded_give rfl, fun frame stack hframe => ?_⟩
  simp [Machine.exec, Meaning.give, Except.map, pure, Except.pure]

theorem Prepares.append {first second : List Instruction} {leftWidth rightWidth : Nat}
    {left right : Meaning} (hfirst : Prepares setting first leftWidth left)
    (hsecond : Prepares setting second rightWidth right) :
    Prepares setting (first ++ second) (leftWidth + rightWidth) (.pair left right) := by
  refine ⟨hfirst.bounded.pair hsecond.bounded, fun frame stack hframe => ?_⟩
  rw [Machine.exec_append, hfirst.exec frame stack hframe]
  cases hleft : left frame with
  | error failure => simp [Meaning.pair, Meaning.andThen, hleft, Except.map]
  | ok outcome =>
      obtain ⟨value, middle⟩ := outcome
      have hmiddle := (hfirst.bounded.width hframe hleft).2
      simp only [Except.map, ok_bind, hsecond.exec middle (stack ++ value) hmiddle, Meaning.pair,
        Meaning.andThen, hleft]
      cases right middle with
      | error failure => rfl
      | ok outcome => simp [Meaning.give]

theorem Prepares.yields {code : List Instruction} {instruction : Instruction} {need width : Nat}
    {meaning : Meaning} {action : Bytes → Meaning} (hcode : Prepares setting code need meaning)
    (hlast : Acts setting instruction need width action) :
    Yields setting ⟨code, instruction⟩ width (meaning.andThen action) := by
  refine ⟨hlast.small, hcode.bounded.andThen hlast.bounded, fun frame stack placement hframe => ?_⟩
  rw [Segment.code, Machine.exec_append, hcode.exec frame stack hframe]
  cases hmeaning : meaning frame with
  | error failure => simp [Meaning.andThen, hmeaning, Except.map]
  | ok outcome =>
      obtain ⟨value, middle⟩ := outcome
      obtain ⟨hvalue, hmiddle⟩ := hcode.bounded.width hframe hmeaning
      simp only [Except.map, ok_bind, Machine.exec_singleton, Meaning.andThen, hmeaning]
      exact hlast.advance middle stack value placement hmiddle hvalue

-- The handle goes into the gap that the value has left below itself.
theorem Yields.piped {value callee : Segment} {ty : Ty} {width : Nat} {first second : Meaning}
    (hvalue : Yields setting value width first)
    (hcallee : Yields setting callee handleWidth second)
    (hback : (backward ty).toInt = -((handleWidth + width : Nat) : Int)) :
    Prepares setting (value.code gap ++ callee.code (backward ty)) (handleWidth + width)
      (first.andThen fun value => second.andThen fun handle => .give (handle ++ value)) := by
  constructor
  · exact hvalue.bounded.andThen fun hfirst => hcallee.bounded.andThen fun hsecond =>
      Meaning.bounded_give (by rw [List.length_append, hfirst, hsecond])
  · intro frame stack hframe
    rw [Machine.exec_append, hvalue.exec frame stack gap hframe]
    cases hfirst : first frame with
    | error failure => simp [Meaning.andThen, hfirst, Except.map]
    | ok outcome =>
        obtain ⟨bytes, middle⟩ := outcome
        obtain ⟨hbytes, hmiddle⟩ := hvalue.bounded.width hframe hfirst
        have hgap : (Store.laid middle stack).push gap bytes =
            .ok (.laid middle (stack ++ Bytes.zeros handleWidth ++ bytes)) :=
          Store.push_laid (hbytes ▸ hvalue.small)
        simp only [ok_bind, hgap, hcallee.exec middle _ _ hmiddle, Meaning.andThen, hfirst]
        cases hsecond : second middle with
        | error failure => rfl
        | ok outcome =>
            obtain ⟨handle, after⟩ := outcome
            have hhandle := (hcallee.bounded.width hmiddle hsecond).1
            have hhole : (Bytes.zeros handleWidth).length = handle.length := by
              rw [Bytes.length_zeros, hhandle]
            have hback' : (backward ty).toInt = -((handle.length + bytes.length : Nat) : Int) := by
              rw [hback, hhandle, hbytes]
            have hpos : 0 < handle.length := by
              rw [hhandle]
              decide
            simp only [ok_bind, Meaning.give, Except.map]
            rw [Store.push_below (hhandle ▸ hcallee.small) hhole hpos hback', List.append_assoc]

-- An instruction that does nothing may stand anywhere.
theorem advance_spent (literals : Pool) (library : Library) (store : Store) (text : String)
    (position : Position) {result : Ty} {size : UInt32} (hsize : result.size? = some size) :
    Machine.advance literals library store (Piece.spent text position result) = .ok store := by
  simp [Machine.advance, Machine.step, Piece.spent, inRange, hsize]

theorem Prepares.spent_cons {code : List Instruction} {width : Nat} {meaning : Meaning}
    (h : Prepares setting code width meaning) (text : String) (position : Position) {result : Ty}
    {size : UInt32} (hsize : result.size? = some size) :
    Prepares setting (Piece.spent text position result :: code) width meaning := by
  refine ⟨h.bounded, fun frame stack hframe => ?_⟩
  rw [Machine.exec, List.foldlM_cons, advance_spent _ _ _ _ _ hsize, ok_bind]
  exact h.exec frame stack hframe

theorem Prepares.append_spent {code : List Instruction} {width : Nat} {meaning : Meaning}
    (h : Prepares setting code width meaning) (text : String) (position : Position) {result : Ty}
    {size : UInt32} (hsize : result.size? = some size) :
    Prepares setting (code ++ [Piece.spent text position result]) width meaning := by
  refine ⟨h.bounded, fun frame stack hframe => ?_⟩
  rw [Machine.exec_append, h.exec frame stack hframe]
  cases meaning frame with
  | error failure => rfl
  | ok outcome =>
      simp only [Except.map, ok_bind, Machine.exec_singleton, advance_spent _ _ _ _ _ hsize]

end Analysis

end Sluice

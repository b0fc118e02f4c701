import Mathlib
import Sluice.Proofs.Failures
import Sluice.Proofs.Files
import Sluice.Proofs.Rendering

namespace Sluice

-- The outcome of an access that nothing has checked.
abbrev Lost {α : Type} (outcome : Except Failure α) : Prop := outcome = .error (.plain .outOfRange)

section Lost

variable {α β : Type}

theorem lost_bind {first : Except Failure α} {next : α → Except Failure β} :
    Lost (first >>= next) ↔ Lost first ∨ ∃ value, first = .ok value ∧ Lost (next value) := by
  cases first with
  | error failure => simp [Lost]
  | ok value => simp [Lost]

theorem lost_map {first : Except Failure α} {f : α → β} : Lost (f <$> first) ↔ Lost first := by
  cases first <;> simp [Lost, Functor.map, Except.map]

theorem lost_inRange {value : Option α} : Lost (inRange value) ↔ value = none := by
  cases value <;> simp [Lost, inRange]

theorem FailsAs.not_lost {outcome : Except Failure α} (h : FailsAs Failure.Checked outcome) :
    ¬ Lost outcome := by
  intro hlost
  cases h _ hlost

end Lost

namespace Arithmetic

variable {primitive : Primitive} {left right bytes : Bytes} {operation : Operation}

theorem lost_operand {width : Nat} : Lost (operand width bytes) ↔ bytes.length < width := by
  unfold operand
  have hmap : Lost ((inRange (bytes.split? width)).map fun parts => Bytes.toNat parts.1) ↔
      Lost (inRange (bytes.split? width)) := lost_map
  rw [hmap, lost_inRange, Bytes.split?]
  simp only [List.length_take]
  split <;> simp <;> omega

private theorem exists_operand {width : Nat} (h : width ≤ bytes.length) :
    ∃ value, operand width bytes = .ok value := by
  cases hoperand : operand width bytes with
  | ok value => exact ⟨value, rfl⟩
  | error failure =>
      have hsplit : bytes.split? width = some (bytes.take width, bytes.drop width) := by
        rw [Bytes.split?, if_pos (by simp [h])]
      simp [operand, hsplit, inRange, Except.map] at hoperand

-- Both operands are read at the width of the number.
theorem lost_binary {atom : Atom} :
    Lost (binary operation atom left right) ↔ ∃ primitive, atom = .prim primitive ∧
      primitive.isNumeric = true ∧
      (left.length < primitive.width ∨ right.length < primitive.width) := by
  constructor
  · intro hlost
    unfold binary at hlost
    split at hlost
    · rename_i primitive
      split at hlost
      · rename_i hnumeric
        refine ⟨primitive, rfl, hnumeric, ?_⟩
        rcases lost_bind.mp hlost with hleft | ⟨leftValue, -, hlost⟩
        · exact .inl (lost_operand.mp hleft)
        · rcases lost_bind.mp hlost with hright | ⟨rightValue, -, hlost⟩
          · exact .inr (lost_operand.mp hright)
          · split at hlost <;> cases hlost
      · cases hlost
    · cases hlost
  · rintro ⟨primitive, rfl, hnumeric, hnarrow⟩
    rw [binary, if_pos hnumeric, lost_bind, lost_operand]
    by_cases hleft : left.length < primitive.width
    · exact .inl hleft
    · obtain ⟨leftValue, hvalue⟩ := exists_operand (Nat.le_of_not_lt hleft)
      have hright := lost_operand.mpr (hnarrow.resolve_left hleft)
      exact .inr ⟨leftValue, hvalue, lost_bind.mpr (.inl hright)⟩

theorem lost_negate {atom : Atom} :
    Lost (negate atom bytes) ↔ ∃ primitive, atom = .prim primitive ∧
      primitive.isNumeric = true ∧ bytes.length < primitive.width := by
  constructor
  · intro hlost
    unfold negate at hlost
    split at hlost
    · rename_i primitive
      split at hlost
      · rename_i hnumeric
        refine ⟨primitive, rfl, hnumeric, ?_⟩
        rcases lost_bind.mp hlost with hoperand | ⟨value, -, hlost⟩
        · exact lost_operand.mp hoperand
        · split at hlost <;> cases hlost
      · cases hlost
    · cases hlost
  · rintro ⟨primitive, rfl, hnumeric, hnarrow⟩
    rw [negate, if_pos hnumeric, lost_bind]
    exact .inl (lost_operand.mpr hnarrow)

end Arithmetic

namespace Machine

-- An arithmetic instruction that takes fewer bytes from the stack than its number has.
inductive Starves (store : Store) (instruction : Instruction) : Prop
  | binary {operation : Arithmetic.Operation} {primitive : Primitive} {left right : Bytes}
      {rest : Store} (hop : Arithmetic.Operation.ofOp? instruction.op = some operation)
      (hpop : popPair store instruction = .ok (left, right, rest))
      (hatom : instruction.result.atoms.head? = some (.prim primitive))
      (hnumeric : primitive.isNumeric = true)
      (hnarrow : left.length < primitive.width ∨ right.length < primitive.width) :
      Starves store instruction
  | negate {primitive : Primitive} {size : UInt32} {value : Bytes} {rest : Store}
      (hop : instruction.op = .neg) (hsize : operandSize instruction 0 = .ok size)
      (hpop : store.pop size = .ok (value, rest))
      (hatom : instruction.result.atoms.head? = some (.prim primitive))
      (hnumeric : primitive.isNumeric = true) (hnarrow : value.length < primitive.width) :
      Starves store instruction

-- A native that finds too few bytes although it is called as its type says.
inductive Lacks (library : Library) (store : Store) (instruction : Instruction) : Prop
  | call {handle argument : Bytes} {rest : Store} {native : Native} {size : UInt32}
      (hop : instruction.op = .call)
      (hpop : popPair store instruction = .ok (handle, argument, rest))
      (hnative : (NativeId.ofBytes? handle).bind library.native? = some native)
      (hsize : instruction.result.size? = some size)
      (hfits : fits native instruction argument size = true)
      (hrun : native.run argument size.toNat = none) : Lacks library store instruction

section Steps

variable {literals : Pool} {library : Library} {store : Store} {instruction : Instruction}
variable {size : UInt32}
variable (h : instruction.Typed fun ty => ty.isWellFormed = true) (hstore : store.Framed)

include h hstore

-- The operands are on the stack, and the result finds its place. What is left is the arithmetic.
theorem lost_arithmetic {operation : Arithmetic.Operation}
    (hop : Arithmetic.Operation.ofOp? instruction.op = some operation) :
    Lost (arithmetic store instruction operation) ↔ Starves store instruction := by
  obtain ⟨atom, hatom⟩ := Ty.exists_head? (h _ (List.mem_cons_self ..))
  rw [arithmetic, lost_bind]
  constructor
  · rintro (hlost | ⟨⟨left, right, rest⟩, hpop, hlost⟩)
    · exact absurd hlost (checked_popPair h hstore).not_lost
    · simp only [hatom, inRange, ok_bind] at hlost
      rcases lost_bind.mp hlost with hlost | ⟨bytes, hbytes, hlost⟩
      · obtain ⟨primitive, rfl, hnumeric, hnarrow⟩ := Arithmetic.lost_binary.mp hlost
        exact .binary hop hpop hatom hnumeric hnarrow
      · exact absurd hlost (Store.checked_push (popPair_eq_ok hstore hpop).1
          (Arithmetic.length_lt_of_binary hbytes)).not_lost
  · intro hstarves
    cases hstarves with
    | @binary _ primitive left right rest hop hpop hatom hnumeric hnarrow =>
        refine .inr ⟨(left, right, rest), hpop, ?_⟩
        simp only [hatom, inRange, ok_bind, lost_bind]
        exact .inl (Arithmetic.lost_binary.mpr ⟨primitive, rfl, hnumeric, hnarrow⟩)
    | negate hneg => simp [hneg, Arithmetic.Operation.ofOp?] at hop

theorem lost_negate (hop : instruction.op = .neg) :
    Lost (negate store instruction) ↔ Starves store instruction := by
  obtain ⟨atom, hatom⟩ := Ty.exists_head? (h _ (List.mem_cons_self ..))
  rw [negate, lost_bind]
  constructor
  · rintro (hlost | ⟨size, hsize, hlost⟩)
    · exact absurd hlost (checked_operandSize h 0).not_lost
    · rcases lost_bind.mp hlost with hlost | ⟨⟨value, rest⟩, hpop, hlost⟩
      · exact absurd hlost (Store.checked_pop hstore).not_lost
      · simp only [hatom, inRange, ok_bind] at hlost
        rcases lost_bind.mp hlost with hlost | ⟨bytes, hbytes, hlost⟩
        · obtain ⟨primitive, rfl, hnumeric, hnarrow⟩ := Arithmetic.lost_negate.mp hlost
          exact .negate hop hsize hpop hatom hnumeric hnarrow
        · exact absurd hlost (Store.checked_push ((Store.pop_eq_ok hpop).1 hstore).1
            (Arithmetic.length_lt_of_negate hbytes)).not_lost
  · intro hstarves
    cases hstarves with
    | binary harithmetic => simp [hop, Arithmetic.Operation.ofOp?] at harithmetic
    | @negate primitive size value rest _ hsize hpop hatom hnumeric hnarrow =>
        refine .inr ⟨size, hsize, lost_bind.mpr (.inr ⟨(value, rest), hpop, ?_⟩)⟩
        simp only [hatom, inRange, ok_bind, lost_bind]
        exact .inl (Arithmetic.lost_negate.mpr ⟨primitive, rfl, hnumeric, hnarrow⟩)

theorem lost_call (hop : instruction.op = .call) (hsize : instruction.result.size? = some size) :
    Lost (call library store instruction size) ↔ Lacks library store instruction := by
  rw [call, lost_bind]
  constructor
  · rintro (hlost | ⟨⟨handle, argument, rest⟩, hpop, hlost⟩)
    · exact absurd hlost (checked_popPair h hstore).not_lost
    · dsimp only at hlost
      split at hlost
      · cases hlost
      · rename_i native hnative
        split at hlost
        · rename_i hfits
          rcases lost_bind.mp hlost with hlost | ⟨result, hresult, hlost⟩
          · exact .call hop hpop hnative hsize hfits (lost_inRange.mp hlost)
          · have hwidth := native.length_run (inRange_eq_ok.mp hresult)
            exact absurd hlost (Store.checked_push (popPair_eq_ok hstore hpop).1
              (hwidth ▸ size.toNat_lt)).not_lost
        · cases hlost
  · rintro ⟨-, hpop, hnative, hfound, hfits, hrun⟩
    cases hsize.symm.trans hfound
    refine .inr ⟨_, hpop, ?_⟩
    simp only [hnative, hfits, if_true, lost_bind, lost_inRange]
    exact .inl hrun

omit h hstore in
theorem lost_iff_of_not_lost {outcome : Except Failure Outcome}
    (hop : Arithmetic.Operation.ofOp? instruction.op = none) (hneg : instruction.op ≠ .neg)
    (hcall : instruction.op ≠ .call) (houtcome : ¬ Lost outcome) :
    Lost outcome ↔ Starves store instruction ∨ Lacks library store instruction := by
  refine iff_of_false houtcome ?_
  rintro ((harithmetic | hnegate) | ⟨hfound, -⟩)
  · simp_all
  · exact hneg ‹_›
  · exact hcall hfound

theorem lost_running_arithmetic {operation : Arithmetic.Operation}
    (hop : Arithmetic.Operation.ofOp? instruction.op = some operation)
    (hcall : instruction.op ≠ .call) :
    Lost (Outcome.running <$> arithmetic store instruction operation) ↔
      Starves store instruction ∨ Lacks library store instruction := by
  rw [lost_map, lost_arithmetic h hstore hop]
  refine (or_iff_left ?_).symm
  rintro ⟨hfound, -⟩
  exact hcall hfound

-- A step goes astray in one of the two ways only.
theorem lost_step :
    Lost (step literals library store instruction) ↔
      Starves store instruction ∨ Lacks library store instruction := by
  obtain ⟨size, hsize⟩ := Ty.exists_size? (h _ (List.mem_cons_self ..))
  rw [step, hsize, inRange, ok_bind]
  cases hop : instruction.op <;> dsimp only [hop]
  case add => exact lost_running_arithmetic h hstore (by rw [hop]; rfl) (by simp [hop])
  case sub => exact lost_running_arithmetic h hstore (by rw [hop]; rfl) (by simp [hop])
  case mul => exact lost_running_arithmetic h hstore (by rw [hop]; rfl) (by simp [hop])
  case neg =>
    rw [lost_map, lost_negate h hstore hop]
    refine (or_iff_left ?_).symm
    rintro ⟨hfound, -⟩
    simp [hop] at hfound
  case call =>
    rw [lost_map, lost_call h hstore hop hsize]
    refine (or_iff_right ?_).symm
    rintro (harithmetic | hnegate)
    · simp_all [Arithmetic.Operation.ofOp?]
    · simp_all
  all_goals
    refine lost_iff_of_not_lost (by rw [hop]; rfl) (by simp [hop]) (by simp [hop])
      (FailsAs.not_lost ?_)
  case unresolved => exact failsAs_error rfl
  case nop => exact failsAs_ok _
  all_goals refine FailsAs.map ?_ _
  case finish => exact checked_finish hstore
  case loadI => exact checked_loadImmediate hstore h
  case loadL => exact checked_loadLiteral hstore
  case load => exact checked_load hstore
  case copy => exact checked_copy hstore
  case tuple => exact checked_tuple hstore
  case member => exact checked_member hstore h
  case seq => exact checked_sequence hstore h

omit h hstore in
-- The value of a run has as many bytes as its type says.
private theorem done_eq_ok {value : Value}
    (h : step literals library store instruction = .ok (.done value)) :
    value.ty = instruction.result ∧
      instruction.result.size?.map UInt32.toNat = some value.bytes.length := by
  obtain ⟨size, hsize, h⟩ := bind_eq_ok.mp h
  have hdone : ∀ outcome : Except Failure Store,
      Outcome.running <$> outcome ≠ .ok (.done value) := fun outcome => by
    cases outcome <;> simp [Functor.map, Except.map]
  cases hop : instruction.op <;> simp only [hop] at h
  case unresolved => cases h
  case nop => cases h
  case finish =>
    obtain ⟨found, hfinish, hvalue⟩ := map_eq_ok.mp h
    cases hvalue
    obtain ⟨⟨bytes, rest⟩, hpop, hfinish⟩ := bind_eq_ok.mp hfinish
    obtain ⟨height, -, hfinish⟩ := bind_eq_ok.mp hfinish
    split at hfinish
    · cases hfinish
    · cases hfinish
      rw [inRange_eq_ok.mp hsize]
      exact ⟨rfl, congrArg some (Store.pop_eq_ok hpop).2.symm⟩
  all_goals exact absurd h (hdone _)

end Steps

section Runs

variable {literals : Pool} {library : Library} {store : Store} {code : List Instruction}
variable {index : Nat}

private theorem exists_done_of_run {value : Value}
    (h : (run literals library index store code).2 = .ok value) : ∃ instruction ∈ code, ∃ reached,
      step literals library reached instruction = .ok (.done value) := by
  induction code generalizing index store with
  | nil => cases h
  | cons instruction code ih =>
      rw [run] at h
      cases hstep : step literals library store instruction with
      | error failure =>
          rw [hstep] at h
          cases h
      | ok outcome =>
          rw [hstep] at h
          cases outcome with
          | done found =>
              cases h
              exact ⟨instruction, List.mem_cons_self .., store, hstep⟩
          | running next =>
              obtain ⟨found, hfound, hreached⟩ := ih h
              exact ⟨found, List.mem_cons_of_mem _ hfound, hreached⟩

end Runs

end Machine

-- What a program out of a file may run into. A step goes astray exactly if it is an arithmetic
-- instruction that is handed fewer bytes than its number has, or a call of a native that finds too
-- few bytes itself. A run is lost exactly if it reaches such a step, and every result has a text.
theorem run_lost_iff (bytes : Bytes) (library : Library) (program : Program)
    (hread : Bytecode.read bytes = .ok program)
    (hsizes : ∀ instruction ∈ program.instructions,
      instruction.Typed fun ty => ty.extent < 4294967296) :
    (∀ before instruction after reached,
      program.instructions.toList = before ++ instruction :: after →
      Machine.exec program.literals library (.ofFrameSize program.frameSize) before = .ok reached →
      (Machine.step program.literals library reached instruction = .error (.plain .outOfRange) ↔
        Machine.Starves reached instruction ∨ Machine.Lacks library reached instruction)) ∧
    (program.run library = .error (.plain .outOfRange) ↔ ∃ before instruction after reached,
      program.instructions.toList = before ++ instruction :: after ∧
      Machine.exec program.literals library (.ofFrameSize program.frameSize) before = .ok reached ∧
      (Machine.Starves reached instruction ∨ Machine.Lacks library reached instruction)) ∧
    ∀ value, program.run library = .ok value → value.render?.isSome = true := by
  obtain ⟨-, -, -, hreadable, -⟩ := Bytecode.read_eq_ok hread
  have hstep : ∀ before instruction after reached,
      program.instructions.toList = before ++ instruction :: after →
      Machine.exec program.literals library (.ofFrameSize program.frameSize) before = .ok reached →
      (Machine.step program.literals library reached instruction = .error (.plain .outOfRange) ↔
        Machine.Starves reached instruction ∨ Machine.Lacks library reached instruction) := by
    intro before instruction after reached hcode hexec
    exact Machine.lost_step (hreadable.typed instruction (by simp [hcode]))
      (Machine.framed_of_exec (Store.framed_ofFrameSize _) hexec)
  refine ⟨hstep, ?_, ?_⟩
  · rw [Program.run, Program.trace, Machine.run_eq_error_iff (by simp [Failure.plain])]
    constructor
    · rintro ⟨before, instruction, after, reached, hcode, hexec, hlost⟩
      exact ⟨before, instruction, after, reached, hcode, hexec,
        (hstep before instruction after reached hcode hexec).mp hlost⟩
    · rintro ⟨before, instruction, after, reached, hcode, hexec, hstray⟩
      exact ⟨before, instruction, after, reached, hcode, hexec,
        (hstep before instruction after reached hcode hexec).mpr hstray⟩
  · intro value hvalue
    obtain ⟨instruction, hmem, reached, hdone⟩ := Machine.exists_done_of_run hvalue
    obtain ⟨hty, hlength⟩ := Machine.done_eq_ok hdone
    have hwellFormed := hreadable.typed instruction hmem _ (List.mem_cons_self ..)
    have hsize := hsizes instruction (Array.mem_toList_iff.mp hmem) _ (List.mem_cons_self ..)
    apply Value.isSome_render?
    · rwa [hty]
    · rwa [hty]
    · rw [Ty.size?_eq_extent hwellFormed, Option.map_some, Option.some.injEq,
        UInt32.toNat_ofNat_of_lt' hsize] at hlength
      rw [hty, hlength]

-- Two numbers of one byte, added as if they had eight.
def Program.starving : Program :=
  ⟨#[⟨.loadI, .ofPrimitive .i8, [], .immediate (.int 1), 0, .start⟩,
    ⟨.loadI, .ofPrimitive .i8, [], .immediate (.int 1), 0, .start⟩,
    ⟨.add, .ofPrimitive .i64, [.ofPrimitive .i8, .ofPrimitive .i8], .none, 0, .start⟩,
    ⟨.finish, .ofPrimitive .i64, [.ofPrimitive .i64], .none, 0, .start⟩], ⟨[]⟩, 0⟩

-- The file is accepted, and its run is lost.
theorem run_starving_lost :
    Bytecode.read (Bytecode.write 0 .starving) = .ok .starving ∧
      Program.starving.run .standard = .error (.plain .outOfRange) := by
  exact ⟨by decide +kernel, by decide +kernel⟩

theorem run_lost_iff_starving :
    Bytecode.read (Bytecode.write 0 .starving) = .ok .starving ∧
    (∀ instruction ∈ Program.starving.instructions,
      instruction.Typed fun ty => ty.extent < 4294967296) ∧
    (Program.starving.run .standard = .error (.plain .outOfRange) ↔
      ∃ before instruction after reached,
        Program.starving.instructions.toList = before ++ instruction :: after ∧
        Machine.exec ⟨[]⟩ .standard (.ofFrameSize 0) before = .ok reached ∧
        (Machine.Starves reached instruction ∨ Machine.Lacks .standard reached instruction)) := by
  have hread : Bytecode.read (Bytecode.write 0 .starving) = .ok .starving := by decide +kernel
  have hsizes : ∀ instruction ∈ Program.starving.instructions,
      instruction.Typed fun ty => ty.extent < 4294967296 := by
    unfold Instruction.Typed
    decide +kernel
  exact ⟨hread, hsizes, (run_lost_iff _ .standard .starving hread hsizes).2.1⟩

end Sluice

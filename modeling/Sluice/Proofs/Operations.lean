import Mathlib
import Sluice.Proofs.Execution
import Sluice.Proofs.Typing

namespace Sluice

-- The end of the frame bytes that an instruction reads or writes.
def Instruction.frameEnd (instruction : Instruction) : Nat :=
  match instruction.op, instruction.payload with
  | .load, .stack offset => offset.toNat + instruction.result.extent
  | .copy, .stack offset => offset.toNat + instruction.result.extent
  | _, _ => 0

-- No size and no offset of the instruction is cut down to a word.
structure Instruction.Fits (instruction : Instruction) : Prop where
  indexable : instruction.Indexable
  result : instruction.result.extent < 2147483648
  operands : (instruction.operands.map Ty.extent).sum < 2147483648
  frame : instruction.frameEnd < UInt32.size

instance (instruction : Instruction) : Decidable instruction.Fits :=
  decidable_of_iff
    (instruction.Indexable ∧ instruction.result.extent < 2147483648 ∧
      (instruction.operands.map Ty.extent).sum < 2147483648 ∧
      instruction.frameEnd < UInt32.size)
    ⟨fun h => ⟨h.1, h.2.1, h.2.2.1, h.2.2.2⟩,
      fun h => ⟨h.indexable, h.result, h.operands, h.frame⟩⟩

theorem Analysis.uniform_fits : Analysis.Uniform Instruction.Fits := by
  constructor
  · intro instruction placement
    exact ⟨fun h => ⟨h.indexable, h.result, h.operands, h.frame⟩,
      fun h => ⟨h.indexable, h.result, h.operands, h.frame⟩⟩
  · intro text position
    refine ⟨Analysis.uniform_indexable.placeholder text position, ?_, ?_, ?_⟩
    · simp [Instruction.placeholder, Ty.undecided, Ty.extent_ofPrimitive, Primitive.width]
    · simp [Instruction.placeholder]
    · simp [Instruction.placeholder, Instruction.frameEnd, UInt32.size]

-- The same for the sizes that the machine computes with. The operands of a sequence need not fit
-- together, and those of a call lie next to each other.
structure Instruction.Measured (instruction : Instruction) : Prop where
  indexable : instruction.Indexable
  result : instruction.result.extent < 2147483648
  operands : ∀ ty ∈ instruction.operands, ty.extent < 2147483648
  call : ∀ {callee argument : Ty}, instruction.op = .call →
    instruction.operands = [callee, argument] → callee.extent = handleWidth →
    callee.extent + argument.extent < 2147483648
  frame : instruction.frameEnd < UInt32.size

theorem Instruction.Fits.measured {instruction : Instruction} (h : instruction.Fits) :
    instruction.Measured := by
  refine ⟨h.indexable, h.result, fun ty hty => ?_, fun _ hoperands _ => ?_, h.frame⟩
  · have hmem : ty.extent ∈ instruction.operands.map Ty.extent := List.mem_map_of_mem hty
    exact Nat.lt_of_le_of_lt (List.single_le_sum (by simp) _ hmem) h.operands
  · have hsum := h.operands
    rw [hoperands] at hsum
    simpa using hsum

theorem Analysis.uniform_measured : Analysis.Uniform Instruction.Measured := by
  constructor
  · intro instruction placement
    exact ⟨fun h => ⟨h.indexable, h.result, h.operands, h.call, h.frame⟩,
      fun h => ⟨h.indexable, h.result, h.operands, h.call, h.frame⟩⟩
  · intro text position
    exact (Analysis.uniform_fits.placeholder text position).measured

-- A size that fits is the size that the machine works with.
theorem Ty.toNat_size {ty : Ty} (hsize : ty.extent < 2147483648) :
    (UInt32.ofNat ty.extent).toNat = ty.extent := by
  refine UInt32.toNat_ofNat_of_lt' (Nat.lt_trans hsize ?_)
  decide

theorem Ty.extent_lt_size {ty : Ty} (h : ty.extent < 2147483648) : ty.extent < UInt32.size :=
  Nat.lt_trans h (by decide)

theorem Ty.extent_ofPrimitive_lt (primitive : Primitive) :
    (Ty.ofPrimitive primitive).extent < UInt32.size := by
  rw [Ty.extent_ofPrimitive]
  cases primitive <;> decide

namespace Machine

theorem operandSize_eq {instruction : Instruction} {index : Nat} {ty : Ty}
    (hoperand : instruction.operands[index]? = some ty) (hty : ty.isWellFormed = true) :
    operandSize instruction index = .ok (UInt32.ofNat ty.extent) := by
  simp [operandSize, hoperand, inRange, Ty.size?_eq_extent hty]

theorem popPair_append {instruction : Instruction} {left right : Ty} {frame stack first second : Bytes}
    (hoperands : instruction.operands = [left, right]) (hleft : left.isWellFormed = true)
    (hright : right.isWellFormed = true) (hleftSize : left.extent < 2147483648)
    (hrightSize : right.extent < 2147483648) (hfirst : first.length = left.extent)
    (hsecond : second.length = right.extent) :
    popPair (.laid frame (stack ++ (first ++ second))) instruction =
      .ok (first, second, .laid frame stack) := by
  have hzero : operandSize instruction 0 = .ok (UInt32.ofNat left.extent) :=
    operandSize_eq (by rw [hoperands]; rfl) hleft
  have hone : operandSize instruction 1 = .ok (UInt32.ofNat right.extent) :=
    operandSize_eq (by rw [hoperands]; rfl) hright
  have htop := @Store.pop_append frame (stack ++ first) second (UInt32.ofNat right.extent)
    (by rw [Ty.toNat_size hrightSize, hsecond])
  have hnext := @Store.pop_append frame stack first (UInt32.ofNat left.extent)
    (by rw [Ty.toNat_size hleftSize, hfirst])
  rw [List.append_assoc] at htop
  simp only [popPair, hzero, hone, ok_bind, htop, hnext]

theorem tuple_append {instruction : Instruction} {frame stack operand : Bytes} {size : UInt32}
    (hsize : size.toNat = operand.length) :
    tuple (.laid frame (stack ++ operand)) instruction size =
      (Store.laid frame stack).push instruction.placement operand := by
  unfold tuple
  split
  · rename_i hplacement
    rw [hplacement, Store.push_zero (hsize ▸ UInt32.toNat_lt size)]
  · rw [Store.pop_append hsize]
    rfl

-- A call without the stack: what the library makes of a handle and an argument.
def invoke (library : Library) (callee : Ty) (size : UInt32) (handle argument : Bytes) :
    Except Failure Bytes :=
  match (NativeId.ofBytes? handle).bind library.native? with
  | none => .error (.plain (.unknownHandle handle))
  | some native =>
      if callee.same native.ty &&
          (native.ty.argument?.bind Ty.size?).map UInt32.toNat = some argument.length &&
          native.ty.result?.bind Ty.size? = some size then
        inRange (native.run argument size.toNat)
      else .error (.plain (.nativeMismatch native.name native.ty (some callee) argument.length))

theorem call_eq_invoke {library : Library} {store rest : Store} {instruction : Instruction}
    {callee argumentTy : Ty} {size : UInt32} {handle argument : Bytes}
    (hoperands : instruction.operands = [callee, argumentTy])
    (hpop : popPair store instruction = .ok (handle, argument, rest)) :
    call library store instruction size =
      invoke library callee size handle argument >>= rest.push instruction.placement := by
  simp only [call, hpop, ok_bind, invoke]
  cases (NativeId.ofBytes? handle).bind library.native? with
  | none => rfl
  | some native =>
      simp only [fits, hoperands, List.head?_cons, Option.any_some]
      split <;> rfl

end Machine

namespace Arithmetic

theorem operand_eq {width : Nat} {bytes : Bytes} (h : bytes.length = width) :
    operand width bytes = .ok bytes.toNat := by
  subst h
  simp [operand, Bytes.split?, inRange, Except.map]

-- Numbers of the right width have a sum, a difference and a product of that width.
theorem binary_numeric (operation : Operation) {primitive : Primitive} {left right : Bytes}
    (hnumeric : primitive.isNumeric = true) (hleft : left.length = primitive.width)
    (hright : right.length = primitive.width) :
    ∃ bytes, binary operation (.prim primitive) left right = .ok bytes ∧
      bytes.length = primitive.width := by
  simp only [binary, hnumeric, if_true, operand_eq hleft, operand_eq hright, ok_bind]
  cases primitive with
  | f32 => exact ⟨_, rfl, Bytes.length_ofNat _ _⟩
  | f64 => exact ⟨_, rfl, Bytes.length_ofNat _ _⟩
  | _ => exact ⟨_, rfl, Bytes.length_ofNat _ _⟩

theorem negate_numeric {primitive : Primitive} {bytes : Bytes}
    (hnumeric : primitive.isNumeric = true) (hbytes : bytes.length = primitive.width) :
    ∃ result, negate (.prim primitive) bytes = .ok result ∧
      result.length = primitive.width := by
  simp only [negate, hnumeric, if_true, operand_eq hbytes, ok_bind]
  split
  · exact ⟨_, rfl, Bytes.length_ofNat _ _⟩
  · exact ⟨_, rfl, Bytes.length_ofNat _ _⟩

end Arithmetic

namespace Analysis

variable {setting : Setting} {position : Position}

-- Running an instruction is running its operation.
theorem advance_eq {instruction : Instruction} {store : Store} {result : Except Failure Store}
    (hstep : Machine.step setting.literals setting.library store instruction =
      Machine.Outcome.running <$> result) :
    Machine.advance setting.literals setting.library store instruction = result := by
  rw [Machine.advance, hstep]
  cases result <;> rfl

theorem acts_int (value : Int64) :
    Acts setting ⟨.loadI, .ofPrimitive .i32, [], .immediate (.int value), 0, position⟩ 0
      (Ty.ofPrimitive .i32).extent fun _ => .give (Bytes.ofInt 4 value.toInt) := by
  refine ⟨Ty.extent_ofPrimitive_lt _, ?_, ?_⟩
  · intro operand hoperand
    exact Meaning.bounded_give (by simp [Bytes.ofInt, Ty.extent_ofPrimitive, Primitive.width])
  · intro frame stack operand placement hframe hoperand
    rw [List.length_eq_zero_iff.mp hoperand, List.append_nil]
    exact advance_eq rfl

theorem acts_float (bits : UInt64) :
    Acts setting ⟨.loadI, .ofPrimitive .f64, [], .immediate (.float bits), 0, position⟩ 0
      (Ty.ofPrimitive .f64).extent fun _ => .give (Bytes.ofNat 8 bits.toNat) := by
  refine ⟨Ty.extent_ofPrimitive_lt _, ?_, ?_⟩
  · intro operand hoperand
    exact Meaning.bounded_give (by simp [Ty.extent_ofPrimitive, Primitive.width])
  · intro frame stack operand placement hframe hoperand
    rw [List.length_eq_zero_iff.mp hoperand, List.append_nil]
    exact advance_eq rfl

theorem acts_copy {ty : Ty} {offset : UInt32} (hty : ty.isWellFormed = true)
    (hsize : ty.extent < 2147483648) (hlimit : offset.toNat + ty.extent ≤ setting.limit) :
    Acts setting ⟨.copy, ty, [ty], .stack offset, 0, position⟩ ty.extent ty.extent
      fun operand frame => .ok (operand, Bytes.write frame offset.toNat operand) := by
  refine ⟨Ty.extent_lt_size hsize, ?_, ?_⟩
  · intro operand hoperand
    constructor
    · intro frame value after hframe h
      cases h
      exact ⟨hoperand, by rw [Bytes.length_write (by rw [hoperand, hframe]; exact hlimit), hframe]⟩
    · intro frame failure hframe h
      contradiction
  · intro frame stack operand placement hframe hoperand
    have hpop := @Store.pop_append frame stack operand (UInt32.ofNat ty.extent)
      (by rw [Ty.toNat_size hsize, hoperand])
    have hwrite : ¬ frame.length < offset.toNat + operand.length := by
      rw [hframe, hoperand]
      omega
    apply advance_eq
    simp only [Machine.step, Instruction.placed, Ty.size?_eq_extent hty, inRange, ok_bind,
      Machine.copy, hpop, Store.writeFrame_laid, if_neg hwrite]

theorem acts_arithmetic {op : Op} {primitive : Primitive} {left right : Ty}
    {operation : Arithmetic.Operation} (hop : Arithmetic.Operation.ofOp? op = some operation)
    (hnumeric : primitive.isNumeric = true) (hleft : left.atoms = [.prim primitive])
    (hright : right.atoms = [.prim primitive]) (hwell : left.isWellFormed = true)
    (hwell' : right.isWellFormed = true) :
    Acts setting ⟨op, .ofPrimitive primitive, [left, right], .none, 0, position⟩
      (left.extent + right.extent) (Ty.ofPrimitive primitive).extent fun operand frame =>
        (Arithmetic.binary operation (.prim primitive) (operand.take left.extent)
          (operand.drop left.extent)).map fun bytes => (bytes, frame) := by
  have hleftExtent : left.extent = primitive.width := by
    rw [← Ty.extent_ofPrimitive, Ty.extent, hleft]
    rfl
  have hrightExtent : right.extent = primitive.width := by
    rw [← Ty.extent_ofPrimitive, Ty.extent, hright]
    rfl
  have hwidth : primitive.width < 2147483648 := by cases primitive <;> decide
  have hresult : ∀ {operand : Bytes}, operand.length = left.extent + right.extent →
      ∃ bytes, Arithmetic.binary operation (.prim primitive) (operand.take left.extent)
        (operand.drop left.extent) = .ok bytes ∧ bytes.length = primitive.width := by
    intro operand hoperand
    exact Arithmetic.binary_numeric operation hnumeric
      (by rw [List.length_take, hoperand, ← hleftExtent]; omega)
      (by rw [List.length_drop, hoperand, ← hrightExtent]; omega)
  refine ⟨Ty.extent_ofPrimitive_lt _, ?_, ?_⟩
  · intro operand hoperand
    obtain ⟨bytes, hbytes, hlength⟩ := hresult hoperand
    rw [hbytes]
    exact Meaning.bounded_give (by rw [hlength, Ty.extent_ofPrimitive])
  · intro frame stack operand placement hframe hoperand
    obtain ⟨bytes, hbytes, -⟩ := hresult hoperand
    have hpop := @Machine.popPair_append
      (Instruction.placed ⟨op, .ofPrimitive primitive, [left, right], .none, 0, position⟩ placement)
      left right frame stack (operand.take left.extent) (operand.drop left.extent) rfl hwell hwell'
      (by omega) (by omega) (by rw [List.length_take]; omega) (by rw [List.length_drop]; omega)
    rw [List.take_append_drop] at hpop
    have harithmetic : Machine.arithmetic (.laid frame (stack ++ operand))
        (Instruction.placed ⟨op, .ofPrimitive primitive, [left, right], .none, 0, position⟩ placement)
        operation = (Store.laid frame stack).push placement bytes := by
      have hhead : inRange (Ty.ofPrimitive primitive).atoms.head? = .ok (.prim primitive) := rfl
      simp only [Machine.arithmetic, hpop, ok_bind, Instruction.placed_result, hhead, hbytes,
        Instruction.placed_placement]
    have hstep : Machine.step setting.literals setting.library (.laid frame (stack ++ operand))
        (Instruction.placed ⟨op, .ofPrimitive primitive, [left, right], .none, 0, position⟩
          placement) = Machine.Outcome.running <$> (Store.laid frame stack).push placement bytes := by
      have hsize := Ty.size?_eq_extent (Ty.kept_isWellFormed.numeric hnumeric)
      rw [← harithmetic]
      cases op <;> cases hop <;>
        simp only [Machine.step, Instruction.placed, hsize, inRange, ok_bind]
    rw [advance_eq hstep, hbytes]
    rfl

theorem acts_negate {primitive : Primitive} {ty : Ty} (hnumeric : primitive.isNumeric = true)
    (hty : ty.atoms = [.prim primitive]) (hwell : ty.isWellFormed = true) :
    Acts setting ⟨.neg, ty, [ty], .none, 0, position⟩ ty.extent ty.extent fun operand frame =>
      (Arithmetic.negate (.prim primitive) operand).map fun bytes => (bytes, frame) := by
  have hextent : ty.extent = primitive.width := by
    rw [← Ty.extent_ofPrimitive, Ty.extent, hty]
    rfl
  have hwidth : primitive.width < 2147483648 := by cases primitive <;> decide
  refine ⟨Ty.extent_lt_size (hextent ▸ hwidth), ?_, ?_⟩
  · intro operand hoperand
    obtain ⟨bytes, hbytes, hlength⟩ := Arithmetic.negate_numeric hnumeric (hoperand.trans hextent)
    rw [hbytes]
    exact Meaning.bounded_give (by rw [hlength, hextent])
  · intro frame stack operand placement hframe hoperand
    obtain ⟨bytes, hbytes, -⟩ := Arithmetic.negate_numeric hnumeric (hoperand.trans hextent)
    have hpop := @Store.pop_append frame stack operand (UInt32.ofNat ty.extent)
      (by rw [Ty.toNat_size (by omega), hoperand])
    have hzero : Machine.operandSize
        (Instruction.placed ⟨.neg, ty, [ty], .none, 0, position⟩ placement) 0 =
          .ok (UInt32.ofNat ty.extent) := Machine.operandSize_eq rfl hwell
    have hhead : inRange ty.atoms.head? = .ok (.prim primitive) := by
      rw [hty]
      rfl
    rw [hbytes]
    apply advance_eq
    simp only [Machine.step, Machine.negate, hzero, ok_bind, hpop]
    simp only [Instruction.placed, Ty.size?_eq_extent hwell, inRange, ok_bind] at hhead ⊢
    rw [hhead, ok_bind, hbytes]
    rfl

theorem acts_tuple {left right whole : Ty} (hwell : whole.isWellFormed = true)
    (hsize : whole.extent < 2147483648) (hextent : whole.extent = left.extent + right.extent) :
    Acts setting ⟨.tuple, whole, [left, right], .none, 0, position⟩
      (left.extent + right.extent) whole.extent Meaning.give := by
  refine ⟨Ty.extent_lt_size hsize, ?_, ?_⟩
  · intro operand hoperand
    exact Meaning.bounded_give (by rw [hoperand, hextent])
  · intro frame stack operand placement hframe hoperand
    have htuple := fun instruction => @Machine.tuple_append instruction frame stack operand
      (UInt32.ofNat whole.extent) (by rw [Ty.toNat_size hsize, hoperand, hextent])
    apply advance_eq
    simp only [Machine.step, Instruction.placed_op, Instruction.placed_result,
      Ty.size?_eq_extent hwell, inRange, ok_bind, htuple, Instruction.placed_placement,
      Meaning.give]

theorem acts_sequence {left right : Ty} (hleft : left.isWellFormed = true)
    (hright : right.isWellFormed = true) (hleftSize : left.extent < 2147483648)
    (hrightSize : right.extent < 2147483648) :
    Acts setting ⟨.seq, right, [left, right], .none, 0, position⟩ (left.extent + right.extent)
      right.extent fun operand => .give (operand.drop left.extent) := by
  refine ⟨Ty.extent_lt_size hrightSize, ?_, ?_⟩
  · intro operand hoperand
    exact Meaning.bounded_give (by rw [List.length_drop, hoperand]; omega)
  · intro frame stack operand placement hframe hoperand
    have hpop := @Machine.popPair_append
      (Instruction.placed ⟨.seq, right, [left, right], .none, 0, position⟩ placement)
      left right frame stack (operand.take left.extent) (operand.drop left.extent) rfl hleft hright
      hleftSize hrightSize (by rw [List.length_take]; omega) (by rw [List.length_drop]; omega)
    rw [List.take_append_drop] at hpop
    apply advance_eq
    simp only [Machine.step, Machine.sequence, hpop, ok_bind]
    simp only [Instruction.placed, Ty.size?_eq_extent hright, inRange, ok_bind, Meaning.give]

theorem acts_member {ty inner : Ty} {offset : UInt32} (hty : ty.isWellFormed = true)
    (hinner : inner.isWellFormed = true) (hsize : ty.extent < 2147483648)
    (hinside : offset.toNat + inner.extent ≤ ty.extent) :
    Acts setting ⟨.member, inner, [ty], .member offset, 0, position⟩ ty.extent inner.extent
      fun operand => .give ((operand.drop offset.toNat).take inner.extent) := by
  refine ⟨Ty.extent_lt_size (by omega), ?_, ?_⟩
  · intro operand hoperand
    exact Meaning.bounded_give (by rw [List.length_take, List.length_drop, hoperand]; omega)
  · intro frame stack operand placement hframe hoperand
    have hpop := @Store.pop_append frame stack operand (UInt32.ofNat ty.extent)
      (by rw [Ty.toNat_size hsize, hoperand])
    have hzero : Machine.operandSize
        (Instruction.placed ⟨.member, inner, [ty], .member offset, 0, position⟩ placement) 0 =
          .ok (UInt32.ofNat ty.extent) := Machine.operandSize_eq rfl hty
    have hslice : operand.slice? offset.toNat (UInt32.ofNat inner.extent).toNat =
        some ((operand.drop offset.toNat).take inner.extent) := by
      rw [Ty.toNat_size (by omega), Bytes.slice?, if_pos (by rw [hoperand]; exact hinside)]
    apply advance_eq
    simp only [Machine.step, Machine.member, hzero, ok_bind, hpop]
    simp only [Instruction.placed, Ty.size?_eq_extent hinner, inRange, ok_bind, hslice,
      Meaning.give]

-- The failures of a call are among those that are allowed.
structure Setting.Lenient (setting : Setting) : Prop where
  handle : ∀ handle, setting.allowed (.plain (.unknownHandle handle))
  mismatch : ∀ name ty called count,
    setting.allowed (.plain (.nativeMismatch name ty called count))
  native : ∀ native ∈ setting.library.natives, ∀ (argument : Bytes) (size : UInt32),
    (native.ty.argument?.bind Ty.size?).map UInt32.toNat = some argument.length →
    native.ty.result?.bind Ty.size? = some size → native.run argument size.toNat = none →
    setting.allowed (.plain .outOfRange)

private theorem bounded_invoke (hlenient : setting.Lenient) (callee : Ty) (size : UInt32)
    (handle argument : Bytes) :
    Meaning.Bounded setting (fun frame =>
      (Machine.invoke setting.library callee size handle argument).map fun bytes => (bytes, frame))
      size.toNat := by
  unfold Machine.invoke
  cases hnative : (NativeId.ofBytes? handle).bind setting.library.native? with
  | none =>
      constructor
      · intro frame value after hframe h
        contradiction
      · intro frame failure hframe h
        cases h
        exact hlenient.handle handle
  | some native =>
      dsimp only
      split
      · rename_i hfits
        simp only [Bool.and_eq_true, decide_eq_true_eq] at hfits
        obtain ⟨id, -, hid⟩ := Option.bind_eq_some_iff.mp hnative
        have hmem : native ∈ setting.library.natives := List.mem_of_getElem? hid
        cases hrun : native.run argument size.toNat with
        | none =>
            constructor
            · intro frame value after hframe h
              contradiction
            · intro frame failure hframe h
              cases h
              exact hlenient.native native hmem argument size hfits.1.2 hfits.2 hrun
        | some result => exact Meaning.bounded_give (native.length_run hrun)
      · constructor
        · intro frame value after hframe h
          contradiction
        · intro frame failure hframe h
          cases h
          exact hlenient.mismatch _ _ _ _

theorem acts_call (hlenient : setting.Lenient) {callee argument result : Ty}
    (hcallee : callee.isWellFormed = true) (hargument : argument.isWellFormed = true)
    (hresult : result.isWellFormed = true)
    (hsizes : callee.extent + argument.extent < 2147483648) (hsize : result.extent < 2147483648) :
    Acts setting ⟨.call, result, [callee, argument], .none, 0, position⟩
      (callee.extent + argument.extent) result.extent fun operand frame =>
        (Machine.invoke setting.library callee (UInt32.ofNat result.extent)
          (operand.take callee.extent) (operand.drop callee.extent)).map
            fun bytes => (bytes, frame) := by
  refine ⟨Ty.extent_lt_size hsize, ?_, ?_⟩
  · intro operand hoperand
    have hbounded := bounded_invoke hlenient callee (UInt32.ofNat result.extent)
      (operand.take callee.extent) (operand.drop callee.extent)
    rwa [Ty.toNat_size hsize] at hbounded
  · intro frame stack operand placement hframe hoperand
    have hpop := @Machine.popPair_append
      (Instruction.placed ⟨.call, result, [callee, argument], .none, 0, position⟩ placement)
      callee argument frame stack (operand.take callee.extent) (operand.drop callee.extent) rfl
      hcallee hargument (by omega) (by omega) (by rw [List.length_take]; omega)
      (by rw [List.length_drop]; omega)
    rw [List.take_append_drop] at hpop
    apply advance_eq
    simp only [Machine.step, Instruction.placed_op, Instruction.placed_result,
      Ty.size?_eq_extent hresult, inRange, ok_bind, Machine.call_eq_invoke rfl hpop,
      Instruction.placed_placement]
    cases Machine.invoke setting.library callee (UInt32.ofNat result.extent)
      (operand.take callee.extent) (operand.drop callee.extent) <;> rfl

theorem toInt_backward {ty : Ty} (hty : ty.isWellFormed = true)
    (hsize : handleWidth + ty.extent < 2147483648) :
    (backward ty).toInt = -((handleWidth + ty.extent : Nat) : Int) := by
  have hextent : (UInt32.ofNat ty.extent).toNat = ty.extent := Ty.toNat_size (by omega)
  have hword : (UInt32.ofNat ty.extent).toInt32.toInt = ty.extent := by
    rw [toInt_toInt32 (by omega), hextent]
  have hgap : gap.toInt = 8 := rfl
  have hwidth : handleWidth = 8 := rfl
  rw [hwidth] at hsize ⊢
  have hsum : ((ty.extent : Int) + 8).bmod (2 ^ 32) = ty.extent + 8 :=
    Int.bmod_eq_of_le_mul_two (by omega) (by omega)
  simp only [backward, Ty.size?_eq_extent hty, Option.getD_some, Int32.toInt_neg, Int32.toInt_add,
    hword, hgap, hsum]
  rw [Int.bmod_eq_of_le_mul_two (by omega) (by omega)]
  omega

end Analysis

-- The bytes that a binding stands for.
def Binding.fetch? (literals : Pool) (frame : Bytes) (binding : Binding) : Option Bytes :=
  match binding.storage with
  | .stack offset => frame.slice? offset.toNat binding.ty.extent
  | .pool offset =>
      literals.bytes.slice? offset.toNat (UInt32.ofNat binding.ty.extent).toNat
  | .native id => some id.toBytes
  | .immediate _ => none

-- The bytes of the binding are inside of the frame or of the pool.
def Binding.Stored (literals : Pool) (limit : Nat) (binding : Binding) : Prop :=
  match binding.storage with
  | .stack offset => offset.toNat + binding.ty.extent ≤ limit
  | .pool offset =>
      offset.toNat + (UInt32.ofNat binding.ty.extent).toNat ≤ literals.bytes.length
  | .native _ => binding.ty.extent = handleWidth
  | .immediate _ => False

namespace Analysis

variable {setting : Setting}

theorem bounded_fetch {binding : Binding} (hsize : binding.ty.extent < 2147483648)
    (hstored : binding.Stored setting.literals setting.limit) :
    Meaning.Bounded setting (fun frame =>
      (inRange (binding.fetch? setting.literals frame)).map fun bytes => (bytes, frame))
      binding.ty.extent := by
  obtain ⟨ty, storage⟩ := binding
  have hslice : ∀ {bytes : Bytes} {offset size : Nat}, offset + size ≤ bytes.length →
      ∃ part, bytes.slice? offset size = some part ∧ part.length = size := by
    intro bytes offset size h
    refine ⟨_, if_pos h, ?_⟩
    rw [List.length_take, List.length_drop]
    omega
  have hnat := Ty.toNat_size hsize
  have hfetch : ∀ frame : Bytes, frame.length = setting.limit → ∃ bytes,
      Binding.fetch? setting.literals frame ⟨ty, storage⟩ = some bytes ∧
        bytes.length = ty.extent := by
    intro frame hframe
    cases storage with
    | stack offset => exact hslice (hframe ▸ hstored)
    | pool offset =>
        obtain ⟨part, hpart, hlength⟩ := hslice hstored
        exact ⟨part, hpart, hlength.trans hnat⟩
    | native id => exact ⟨id.toBytes, rfl, (Bytes.length_ofNat _ _).trans hstored.symm⟩
    | immediate value => exact hstored.elim
  constructor
  · intro frame value after hframe h
    obtain ⟨bytes, hbytes, hlength⟩ := hfetch frame hframe
    rw [hbytes] at h
    cases h
    exact ⟨hlength, hframe⟩
  · intro frame failure hframe h
    obtain ⟨bytes, hbytes, -⟩ := hfetch frame hframe
    rw [hbytes] at h
    contradiction

theorem yields_loading {binding : Binding} {position : Position}
    (hty : binding.ty.isWellFormed = true) (hsize : binding.ty.extent < 2147483648)
    (hstored : binding.Stored setting.literals setting.limit) :
    Yields setting (Operand.loading binding position) binding.ty.extent fun frame =>
      (inRange (binding.fetch? setting.literals frame)).map fun bytes => (bytes, frame) := by
  refine ⟨Ty.extent_lt_size hsize, bounded_fetch hsize hstored,
    fun frame stack placement hframe => ?_⟩
  obtain ⟨ty, storage⟩ := binding
  have hsized := Ty.size?_eq_extent hty
  have hnat := Ty.toNat_size hsize
  have hcode : (Operand.loading ⟨ty, storage⟩ position).code placement =
      [(Operand.loading ⟨ty, storage⟩ position).last.placed placement] := rfl
  rw [hcode, Machine.exec_singleton]
  apply advance_eq
  cases storage with
  | stack offset =>
      have hinside : offset.toNat + ty.extent ≤ frame.length := hframe ▸ hstored
      have hslice : frame.slice? offset.toNat ty.extent =
          some ((frame.drop offset.toNat).take ty.extent) := if_pos hinside
      simp only [Machine.step, Operand.loading, loadOf, Instruction.placed_op,
        Instruction.placed_result, Instruction.placed_payload, Instruction.placed_placement, hsized,
        inRange, ok_bind, Machine.load, Store.readFrame_laid, hnat,
        if_neg (Nat.not_lt_of_le hinside), hslice, Binding.fetch?, Except.map]
  | pool offset =>
      have hslice : setting.literals.bytes.slice? offset.toNat (UInt32.ofNat ty.extent).toNat =
          some ((setting.literals.bytes.drop offset.toNat).take (UInt32.ofNat ty.extent).toNat) :=
        if_pos hstored
      simp only [Machine.step, Operand.loading, loadOf, Instruction.placed_op,
        Instruction.placed_result, Instruction.placed_payload, Instruction.placed_placement, hsized,
        inRange, ok_bind, Machine.loadLiteral, Pool.read?, hslice, Binding.fetch?, Except.map]
  | native id =>
      simp only [Machine.step, Operand.loading, loadOf, Instruction.placed_op,
        Instruction.placed_result, Instruction.placed_payload, Instruction.placed_placement, hsized,
        inRange, ok_bind, Machine.loadImmediate, Binding.fetch?, Except.map]
  | immediate value => exact hstored.elim

end Analysis

end Sluice

import Mathlib
import Sluice.Analysis

namespace Sluice

section Outcomes

variable {ε α β : Type}

@[simp] theorem ok_bind (value : α) (next : α → Except ε β) :
    (Except.ok value >>= next) = next value := rfl

@[simp] theorem error_bind (failure : ε) (next : α → Except ε β) :
    ((Except.error failure : Except ε α) >>= next) = .error failure := rfl

-- What comes out of two steps came out of both.
theorem bind_eq_ok {first : Except ε α} {next : α → Except ε β} {result : β} :
    (first >>= next) = .ok result ↔ ∃ value, first = .ok value ∧ next value = .ok result := by
  cases first with
  | error failure => simp
  | ok value => simp

theorem map_eq_ok {first : Except ε α} {f : α → β} {result : β} :
    first.map f = .ok result ↔ ∃ value, first = .ok value ∧ f value = result := by
  cases first <;> simp [Except.map]

-- A fold that comes out keeps what every step keeps.
theorem foldlM_keeps {P : β → Prop} {step : β → α → Except ε β} {items : List α} {first last : β}
    (hstep : ∀ item ∈ items, ∀ state next, P state → step state item = .ok next → P next)
    (hfirst : P first) (h : items.foldlM step first = .ok last) : P last := by
  induction items generalizing first with
  | nil =>
      cases h
      exact hfirst
  | cons item items ih =>
      obtain ⟨next, hnext, h⟩ := bind_eq_ok.mp h
      refine ih (fun item hitem => hstep item (List.mem_cons_of_mem _ hitem)) ?_ h
      exact hstep item (List.mem_cons_self ..) first next hfirst hnext

-- What a test has found out about an outcome.
theorem exists_ok_of_any {outcome : Except ε α} {test : α → Bool}
    (h : outcome.toOption.any test = true) : ∃ value, outcome = .ok value ∧ test value = true := by
  cases outcome with
  | error failure => contradiction
  | ok value => exact ⟨value, rfl, h⟩

end Outcomes

section Lockstep

variable {α β : Type} {R : α → β → Prop} {xs : List α} {ys : List β}

-- Searching two lists that go along with each other.
theorem rel_find? {p : α → Bool} {q : β → Bool} (h : List.Forall₂ R xs ys)
    (hsame : ∀ x y, R x y → p x = q y) : Option.Rel R (xs.find? p) (ys.find? q) := by
  induction h with
  | nil => exact .none
  | @cons x y xs ys hfirst hrest ih =>
      rw [List.find?_cons, List.find?_cons, hsame x y hfirst]
      cases q y with
      | true => exact .some hfirst
      | false => exact ih

theorem rel_findSome? {γ δ : Type} {S : γ → δ → Prop} {f : α → Option γ} {g : β → Option δ}
    (h : List.Forall₂ R xs ys) (hrel : ∀ x y, R x y → Option.Rel S (f x) (g y)) :
    Option.Rel S (xs.findSome? f) (ys.findSome? g) := by
  induction h with
  | nil => exact .none
  | @cons x y xs ys hfirst hrest ih =>
      have hfg := hrel x y hfirst
      rw [List.findSome?_cons, List.findSome?_cons]
      cases hx : f x with
      | none =>
          rw [hx] at hfg
          cases hy : g y with
          | none => exact ih
          | some b =>
              rw [hy] at hfg
              cases hfg
      | some a =>
          rw [hx] at hfg
          cases hy : g y with
          | none =>
              rw [hy] at hfg
              cases hfg
          | some b =>
              rw [hy] at hfg
              exact hfg

theorem forall₂_imp_mem {S : α → β → Prop} (h : List.Forall₂ R xs ys)
    (himp : ∀ x, ∀ y ∈ ys, R x y → S x y) : List.Forall₂ S xs ys := by
  induction h with
  | nil => exact .nil
  | @cons x y xs ys hfirst hrest ih =>
      exact .cons (himp x y (List.mem_cons_self ..) hfirst)
        (ih fun x y hmem => himp x y (List.mem_cons_of_mem _ hmem))

theorem exists_of_mem_left (h : List.Forall₂ R xs ys) {x : α} (hx : x ∈ xs) :
    ∃ y ∈ ys, R x y := by
  induction h with
  | nil => contradiction
  | @cons first y xs ys hfirst hrest ih =>
      rcases List.mem_cons.mp hx with rfl | hx
      · exact ⟨y, List.mem_cons_self .., hfirst⟩
      · obtain ⟨found, hmem, hfound⟩ := ih hx
        exact ⟨found, List.mem_cons_of_mem _ hmem, hfound⟩

end Lockstep

@[simp] theorem inRange_eq_ok {α : Type} {value : Option α} {result : α} :
    inRange value = .ok result ↔ value = some result := by
  cases value <;> simp [inRange]

def Instruction.placed (instruction : Instruction) (placement : Int32) : Instruction :=
  { instruction with placement := placement }

namespace Instruction

variable (instruction : Instruction) (placement other : Int32)

@[simp] theorem placed_op : (instruction.placed placement).op = instruction.op := rfl

@[simp] theorem placed_result : (instruction.placed placement).result = instruction.result := rfl

@[simp] theorem placed_operands : (instruction.placed placement).operands = instruction.operands :=
  rfl

@[simp] theorem placed_payload : (instruction.placed placement).payload = instruction.payload := rfl

@[simp] theorem placed_placement : (instruction.placed placement).placement = placement := rfl

@[simp] theorem placed_placed :
    (instruction.placed placement).placed other = instruction.placed other := rfl

end Instruction

namespace Analysis

-- Code that leaves one value. The placement of the last instruction tells where the value goes.
structure Segment where
  init : List Instruction
  last : Instruction

def Segment.code (segment : Segment) (placement : Int32) : List Instruction :=
  segment.init ++ [segment.last.placed placement]

-- A value with its code, or a name that no sign has taken yet.
inductive Operand
  | value (ty : Ty) (segment : Segment)
  | name (text : String) (position : Position)

-- What stands on the pending list. The callee of a pipe is only an operand.
inductive Piece
  | single (operand : Operand)
  | piped (ty : Ty) (value : Segment) (callee : Operand)

-- The gap for a handle below a piped value, and the way back into it.
def gap : Int32 := Int32.ofNat handleWidth

def backward (ty : Ty) : Int32 := -((ty.size?.getD 0).toInt32 + gap)

namespace Operand

def segment : Operand → Segment
  | .value _ segment => segment
  | .name text position => ⟨[], .placeholder text position⟩

def code (operand : Operand) (placement : Int32) : List Instruction :=
  operand.segment.code placement

def entry (start : Nat) : Operand → Pending
  | .value ty segment => .resolved ty (start + segment.init.length)
  | .name _ _ => .unresolved start

-- The one instruction that brings a binding to the stack.
def loading (binding : Binding) (position : Position) : Segment :=
  ⟨[], ⟨(loadOf binding.storage).1, binding.ty, [], (loadOf binding.storage).2, 0, position⟩⟩

def settle (scopes : Scopes) : Operand → Except Failure (Ty × Segment)
  | .value ty segment => .ok (ty, segment)
  | .name text position =>
      match scopes.lookup text with
      | none => .error (.located position (.undefinedName text))
      | some binding => .ok (binding.ty, loading binding position)

-- As `resolveCallee` has it, with the code of the callee.
def settleCallee (scopes : Scopes) (argument : Ty) (position : Position) :
    Operand → Except Failure (Ty × Segment)
  | .value ty segment =>
      if ¬ ty.isFunc then .error (.located position (.callOfNonFunction ty))
      else do
        let isMatch ← inRange ((Ty.func .undecided argument).matches? ty)
        if ¬ isMatch then .error (.located position (.argumentMismatch ty argument))
        else .ok (ty, segment)
  | .name text place =>
      match scopes.lookupMatching text (.func .undecided argument) with
      | none => .error (.located place (calleeProblem scopes text argument))
      | some binding => .ok (binding.ty, loading binding place)

-- A value that is called is a function and takes the argument.
theorem eq_of_settleCallee_value {scopes : Scopes} {ty valueTy argument : Ty}
    {segment code : Segment} {position : Position}
    (h : (Operand.value valueTy code).settleCallee scopes argument position = .ok (ty, segment)) :
    ty = valueTy ∧ segment = code ∧ valueTy.isFunc = true ∧
      (Ty.func .undecided argument).matches? valueTy = some true := by
  simp only [Operand.settleCallee] at h
  split at h
  · contradiction
  · rename_i hfunc
    obtain ⟨isMatch, hmatch, h⟩ := bind_eq_ok.mp h
    cases isMatch with
    | false => simp at h
    | true =>
        simp only [not_true_eq_false, if_false, Except.ok.injEq, Prod.mk.injEq] at h
        exact ⟨h.1.symm, h.2.symm, by simpa using hfunc, inRange_eq_ok.mp hmatch⟩

end Operand

namespace Piece

def code : Piece → List Instruction
  | .single operand => operand.code 0
  | .piped ty value callee => value.code gap ++ callee.code (backward ty)

def entry (start : Nat) : Piece → Pending
  | .single operand => operand.entry start
  | .piped ty value callee =>
      .piped ty (callee.entry (start + (value.init.length + 1))) (start + value.init.length)

def settle (scopes : Scopes) : Piece → Except Failure (Ty × Segment)
  | .single operand => operand.settle scopes
  | .piped .. => .error (.plain .pipedOutsideCall)

end Piece

-- Operands of a sign give the value of the sign, and maybe a new binding.
abbrev Joined := Except Failure (Operand × Scopes)

-- The code of the operands followed by one more instruction.
def Operand.made (before : List Instruction) (op : Op) (result : Ty) (operands : List Ty)
    (payload : Payload) (position : Position) : Operand :=
  .value result ⟨before, ⟨op, result, operands, payload, 0, position⟩⟩

def join (scopes : Scopes) (before : List Instruction) (op : Op) (result : Ty) (operands : List Ty)
    (payload : Payload) (position : Position) : Joined :=
  .ok (.made before op result operands payload position, scopes)

namespace Piece

def number (text : String) (position : Position) (scopes : Scopes) : Joined :=
  if text.contains '.' then
    match Decimal.readFloat? text with
    | none => .error (.located position (.invalidNumber text))
    | some bits => join scopes [] .loadI (.ofPrimitive .f64) [] (.immediate (.float bits)) position
  else
    match Decimal.readInteger? text with
    | none => .error (.located position (.integerTooLarge text))
    | some value =>
        if Primitive.i32.least ≤ value ∧ value ≤ Primitive.i32.greatest then
          join scopes [] .loadI (.ofPrimitive .i32) [] (.immediate (.int (Int64.ofInt value)))
            position
        else .error (.located position (.integerTooLarge text))

-- The name of an assignment or of a member leaves an instruction that does nothing.
def spent (text : String) (position : Position) (result : Ty) : Instruction :=
  { Instruction.placeholder text position with op := .nop, result := result }

def assign (position : Position) (left right : Piece) (scopes : Scopes) : Joined := do
  let (ty, segment) ← right.settle scopes
  let ty := ty.close
  match left with
  | .single (.name name place) => do
      let size ← inRange ty.size?
      let (offset, scopes) := scopes.allocate size
      let scopes ← scopes.declare name ⟨ty, .stack offset⟩ place
      join scopes (spent name place ty :: segment.code 0) .copy ty [ty] (.stack offset) position
  | _ => .error (.located position .assignmentToNonName)

def arithmetic (op : Op) (sign : String) (position : Position) (left right : Piece)
    (scopes : Scopes) : Joined := do
  let (leftTy, leftSegment) ← left.settle scopes
  let (rightTy, rightSegment) ← right.settle scopes
  match leftTy.numeric? with
  | some primitive =>
      if leftTy.same rightTy then
        join scopes (leftSegment.code 0 ++ rightSegment.code 0) op (.ofPrimitive primitive)
          [leftTy, rightTy] .none position
      else .error (.located position (.operandMismatch sign leftTy rightTy))
  | none => .error (.located position (.operandMismatch sign leftTy rightTy))

def negate (position : Position) (piece : Piece) (scopes : Scopes) : Joined := do
  let (ty, segment) ← piece.settle scopes
  if ty.numeric?.isSome then join scopes (segment.code 0) .neg ty [ty] .none position
  else .error (.located position (.negationMismatch ty))

def tuple (position : Position) (left right : Piece) (scopes : Scopes) : Joined := do
  let (leftTy, leftSegment) ← left.settle scopes
  let (rightTy, rightSegment) ← right.settle scopes
  let whole ← inRange (leftTy.append? rightTy)
  join scopes (leftSegment.code 0 ++ rightSegment.code 0) .tuple whole [leftTy, rightTy] .none
    position

-- `before` and `behind` are the codes around the callee.
def call (before behind : List Instruction) (placement : Int32) (argument : Ty)
    (position : Position) (callee : Operand) (scopes : Scopes) : Joined := do
  let (ty, segment) ← callee.settleCallee scopes argument position
  match ty.result? with
  | none => .error (.plain (.noReturnType ty))
  | some result =>
      join scopes (before ++ segment.code placement ++ behind) .call result [ty, argument] .none
        position

def applied (position : Position) (left argument : Piece) (scopes : Scopes) : Joined := do
  let (ty, segment) ← argument.settle scopes
  match left with
  | .piped valueTy value callee => do
      let whole ← inRange (valueTy.append? ty)
      call (value.code gap) (segment.code 0) (backward valueTy) whole position callee scopes
  | .single callee => call [] (segment.code 0) 0 ty position callee scopes

def completed (position : Position) (piece : Piece) (scopes : Scopes) : Joined :=
  match piece with
  | .piped ty value callee => call (value.code gap) [] (backward ty) ty position callee scopes
  | .single _ => .error (.plain .appliedUnpiped)

-- A callee that is piped itself has been placed already. `start` is where the code begins.
def pipe (start : Nat) (value callee : Piece) (scopes : Scopes) : Except Failure Piece := do
  let (ty, segment) ← value.settle scopes
  let _ ← inRange ty.size?
  match callee with
  | .single callee => .ok (.piped ty segment callee)
  | .piped _ inner _ =>
      .error (.plain (.placedTwice (start + (segment.init.length + 1) + inner.init.length)))

def member (position : Position) (subject field : Piece) (scopes : Scopes) : Joined :=
  match field with
  | .single (.name name place) => do
      let (ty, segment) ← subject.settle scopes
      match if ty.isTuple then ty.member? name else none with
      | none => .error (.located position (.unknownMember ty name))
      | some row => do
          let inner ← inRange (Ty.inner? ty.atoms row.index.toNat)
          join scopes (segment.code 0 ++ [spent name place .undecided]) .member inner [ty]
            (.member row.offset) position
  | _ => .error (.plain .memberWithoutName)

def group (piece : Piece) (scopes : Scopes) : Joined :=
  match piece with
  | .single (.value ty segment) => .ok (.value ty.close segment, scopes)
  | .single (.name text position) => .ok (.name text position, scopes)
  | .piped .. => .error (.plain .groupedPipe)

def elementsOf (ty : Ty) (position : Position) : Except Failure (Ty × Nat) :=
  if ty.isTuple && !ty.isClosed then do
    match ← inRange ty.elements? with
    | [] => .error (.plain .outOfRange)
    | first :: rest =>
        match rest.zipIdx.find? fun entry => !entry.1.same first with
        | some (other, index) =>
            .error (.located position (.mixedElements (index + 2) other first))
        | none => .ok (first, rest.length + 1)
  else .ok (ty, 1)

def array (position : Position) (piece : Piece) (scopes : Scopes) : Joined := do
  let (ty, segment) ← piece.settle scopes
  let (element, count) ← elementsOf ty position
  .ok (.value (.array element (UInt32.ofNat count)) segment, scopes)

def sequence (position : Position) (left right : Piece) (scopes : Scopes) : Joined := do
  let (leftTy, leftSegment) ← left.settle scopes
  let (rightTy, rightSegment) ← right.settle scopes
  join scopes (leftSegment.code 0 ++ rightSegment.code 0) .seq rightTy [leftTy, rightTy] .none
    position

def blockEnd (piece : Piece) (scopes : Scopes) : Joined := do
  let (ty, segment) ← piece.settle scopes
  let scopes ← scopes.leave
  .ok (.value ty.close segment, scopes)

end Piece

-- The topmost piece comes first.
structure Plan where
  pieces : List Piece
  scopes : Scopes

def codeOf : List Piece → List Instruction
  | [] => []
  | piece :: rest => codeOf rest ++ piece.code

def entriesOf : List Piece → List Pending
  | [] => []
  | piece :: rest => piece.entry (codeOf rest).length :: entriesOf rest

namespace Plan

def code (plan : Plan) : List Instruction := codeOf plan.pieces

-- The state of the analysis that a plan stands for.
def state (plan : Plan) (events : List Event) : State :=
  ⟨plan.code.toArray, entriesOf plan.pieces, plan.scopes, false, events⟩

def put (rest : List Piece) (joined : Joined) : Except Failure Plan :=
  joined.map fun outcome => ⟨.single outcome.1 :: rest, outcome.2⟩

def unary (sign : Piece → Scopes → Joined) (plan : Plan) : Except Failure Plan :=
  match plan.pieces with
  | piece :: rest => put rest (sign piece plan.scopes)
  | [] => .error (.plain .missingOperands)

def binary (sign : Piece → Piece → Scopes → Joined) (plan : Plan) : Except Failure Plan :=
  match plan.pieces with
  | right :: left :: rest => put rest (sign left right plan.scopes)
  | _ => .error (.plain .missingOperands)

def pipe (plan : Plan) : Except Failure Plan :=
  match plan.pieces with
  | callee :: value :: rest =>
      (Piece.pipe (codeOf rest).length value callee plan.scopes).map fun piece =>
        ⟨piece :: rest, plan.scopes⟩
  | _ => .error (.plain .missingOperands)

-- What a token does. The token at the end is left out: it makes a program.
def step (token : Token) (plan : Plan) : Except Failure Plan :=
  match token.kind, token.arity with
  | .number, .nullary => put plan.pieces (Piece.number token.text token.position plan.scopes)
  | .name, .nullary => .ok ⟨.single (.name token.text token.position) :: plan.pieces, plan.scopes⟩
  | .assign, .binary => plan.binary (Piece.assign token.position)
  | .plus, .binary => plan.binary (Piece.arithmetic .add token.shown token.position)
  | .minus, .binary => plan.binary (Piece.arithmetic .sub token.shown token.position)
  | .star, .binary => plan.binary (Piece.arithmetic .mul token.shown token.position)
  | .minus, .rightUnary => plan.unary (Piece.negate token.position)
  | .comma, .binary => plan.binary (Piece.tuple token.position)
  | .call, .binary => plan.binary (Piece.applied token.position)
  | .call, .leftUnary => plan.unary (Piece.completed token.position)
  | .pipe, .binary => plan.pipe
  | .member, .binary => plan.binary (Piece.member token.position)
  | .group, .leftUnary => plan.unary Piece.group
  | .array, .leftUnary => plan.unary (Piece.array token.position)
  | .sequence, .binary => plan.binary (Piece.sequence token.position)
  | .blockBegin, .nullary => .ok ⟨plan.pieces, plan.scopes.enter⟩
  | .blockEnd, .leftUnary => plan.unary Piece.blockEnd
  | kind, arity => .error (.plain (.unexpectedToken kind arity))

def ends (token : Token) : Bool := token.kind = .finish && token.arity = .leftUnary

-- The program that the token at the end makes of a plan.
def finish (literals : Pool) (token : Token) (plan : Plan) : Except Failure Program :=
  match plan.pieces with
  | [] => .error (.plain .missingOperands)
  | piece :: rest => do
      let (ty, segment) ← piece.settle plan.scopes
      if rest ≠ [] then .error (.plain (.valuesLeftOver rest.length))
      else if plan.scopes.depth ≠ 1 then .error (.plain .unbalancedScopes)
      else
        let last : Instruction := ⟨.finish, ty, [ty], .none, 0, token.position⟩
        .ok ⟨(segment.code 0 ++ [last]).toArray, literals, plan.scopes.frameSize⟩

def assemble (literals : Pool) : List Token → Plan → Except Failure Program
  | [], _ => .error (.plain .missingEnd)
  | token :: rest, plan =>
      if ends token then do
        let program ← plan.finish literals token
        match rest with
        | [] => .ok program
        | extra :: _ => .error (.plain (.tokenAfterEnd extra.shown))
      else do
        let plan ← plan.step token
        plan.assemble literals rest

end Plan

end Analysis

end Sluice

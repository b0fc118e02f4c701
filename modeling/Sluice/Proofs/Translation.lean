import Mathlib
import Sluice.Proofs.Floors
import Sluice.Proofs.Interpreter

namespace Sluice

namespace Analysis

-- The code of a value that is used as it is, and the scopes behind it.
structure Coded where
  ty : Ty
  segment : Segment
  scopes : Scopes

namespace Coded

def made (before : List Instruction) (op : Op) (result : Ty) (operands : List Ty)
    (payload : Payload) (position : Position) (scopes : Scopes) : Coded :=
  ⟨result, ⟨before, ⟨op, result, operands, payload, 0, position⟩⟩, scopes⟩

def literal? (text : String) (position : Position) (scopes : Scopes) : Option Coded :=
  if text.contains '.' then
    (Decimal.readFloat? text).map fun bits =>
      made [] .loadI (.ofPrimitive .f64) [] (.immediate (.float bits)) position scopes
  else
    (Decimal.readInteger? text).bind fun value =>
      if Primitive.i32.least ≤ value ∧ value ≤ Primitive.i32.greatest then
        some (made [] .loadI (.ofPrimitive .i32) [] (.immediate (.int (Int64.ofInt value))) position
          scopes)
      else none

def close (coded : Coded) : Coded := { coded with ty := coded.ty.close }

-- Two operands and the sign between them.
def pair (op : Op) (result : Ty) (position : Position) (first second : Coded) : Coded :=
  made (first.segment.code 0 ++ second.segment.code 0) op result [first.ty, second.ty] .none
    position second.scopes

def arithmetic? (op : Op) (position : Position) (first second : Coded) : Option Coded :=
  match first.ty.numeric? with
  | some primitive =>
      if first.ty.same second.ty then some (pair op (.ofPrimitive primitive) position first second)
      else none
  | none => none

-- A sign between two values. Assignments and calls are no such signs.
def sign? : Operator → Position → Coded → Coded → Option Coded
  | .sequence, position, first, second => some (pair .seq second.ty position first second)
  | .comma, position, first, second =>
      (first.ty.append? second.ty).map fun whole => pair .tuple whole position first second
  | .plus, position, first, second => arithmetic? .add position first second
  | .minus, position, first, second => arithmetic? .sub position first second
  | .star, position, first, second => arithmetic? .mul position first second
  | .assign, _, _, _ => none
  | .call, _, _, _ => none

def negate? (position : Position) (coded : Coded) : Option Coded :=
  if coded.ty.numeric?.isSome then
    some (made (coded.segment.code 0) .neg coded.ty [coded.ty] .none position coded.scopes)
  else none

def member? (name : String) (position : Position) (coded : Coded) : Option Coded :=
  (if coded.ty.isTuple then coded.ty.member? name else none).bind fun row =>
    (Ty.inner? coded.ty.atoms row.index.toNat).map fun inner =>
      made (coded.segment.code 0 ++ [Piece.spent name position .undecided]) .member inner
        [coded.ty] (.member row.offset) position coded.scopes

def array? (position : Position) (coded : Coded) : Option Coded :=
  (Piece.elementsOf coded.ty position).toOption.map fun found =>
    { coded with ty := .array found.1 (UInt32.ofNat found.2) }

def assign? (name : String) (place position : Position) (coded : Coded) : Option Coded := do
  let size ← coded.ty.close.size?
  let (offset, scopes) := coded.scopes.allocate size
  let scopes ← (scopes.declare name ⟨coded.ty.close, .stack offset⟩ place).toOption
  some (made (Piece.spent name place coded.ty.close :: coded.segment.code 0) .copy coded.ty.close
    [coded.ty.close] (.stack offset) position scopes)

def leave? (coded : Coded) : Option Coded :=
  coded.scopes.leave.toOption.map fun outer => ⟨coded.ty.close, coded.segment, outer⟩

-- `before` and `behind` are the codes around the callee.
def call? (before behind : List Instruction) (placement : Int32) (argument : Ty)
    (position : Position) (callee : Operand) (scopes : Scopes) : Option Coded := do
  let (ty, segment) ← (callee.settleCallee scopes argument position).toOption
  let result ← ty.result?
  some (made (before ++ segment.code placement ++ behind) .call result [ty, argument] .none position
    scopes)

end Coded

def Operand.code? (operand : Operand) (scopes : Scopes) : Option Coded :=
  (operand.settle scopes).toOption.map fun found => ⟨found.1, found.2, scopes⟩

-- What a sign gives when its value is used as it is.
def coded? (joined : Joined) : Option Coded :=
  joined.toOption.bind fun found => found.1.code? found.2

@[simp] theorem toOption_ok {ε α : Type} (value : α) :
    (Except.ok value : Except ε α).toOption = some value := rfl

@[simp] theorem toOption_error {ε α : Type} (failure : ε) :
    (Except.error failure : Except ε α).toOption = none := rfl

theorem toOption_eq_some {ε α : Type} {result : Except ε α} {value : α}
    (h : result.toOption = some value) : result = .ok value := by
  cases result with
  | error failure => contradiction
  | ok found =>
      cases h
      rfl

@[simp] theorem toOption_inRange {α : Type} (value : Option α) :
    (inRange value).toOption = value := by
  cases value <;> rfl

@[simp] theorem coded?_error (failure : Failure) : coded? (.error failure) = none := rfl

@[simp] theorem coded?_ok (operand : Operand) (scopes : Scopes) :
    coded? (.ok (operand, scopes)) = operand.code? scopes := rfl

theorem coded?_bind {α : Type} (first : Except Failure α) (next : α → Joined) :
    coded? (first >>= next) = first.toOption.bind fun value => coded? (next value) := by
  cases first <;> rfl

section Signs

variable {scopes : Scopes} {position : Position} {operand left right : Operand}

theorem coded?_number (text : String) :
    coded? (Piece.number text position scopes) = Coded.literal? text position scopes := by
  unfold Piece.number Coded.literal?
  split
  · cases Decimal.readFloat? text <;> rfl
  · cases Decimal.readInteger? text with
    | none => rfl
    | some value =>
        dsimp only [Option.bind_some]
        split <;> rfl

-- A sign goes on with the type and the code of its operand.
theorem coded?_settle {next : Ty × Segment → Joined} {sign : Coded → Option Coded}
    (h : ∀ ty segment, coded? (next (ty, segment)) = sign ⟨ty, segment, scopes⟩) :
    coded? ((Piece.single operand).settle scopes >>= next) =
      (operand.code? scopes).bind sign := by
  rw [coded?_bind, Piece.settle, Operand.code?]
  cases operand.settle scopes with
  | error failure => rfl
  | ok found => exact h found.1 found.2

theorem coded?_two {next : Ty × Segment → Ty × Segment → Joined}
    {sign : Coded → Coded → Option Coded}
    (h : ∀ first second : Ty × Segment, coded? (next first second) =
      sign ⟨first.1, first.2, scopes⟩ ⟨second.1, second.2, scopes⟩) :
    coded? (do
        let first ← (Piece.single left).settle scopes
        let second ← (Piece.single right).settle scopes
        next first second) =
      (left.code? scopes).bind fun first => (right.code? scopes).bind (sign first) :=
  coded?_settle fun ty segment => coded?_settle fun ty' segment' => h (ty, segment) (ty', segment')

theorem coded?_arithmetic (op : Op) (sign : String) :
    coded? (Piece.arithmetic op sign position (.single left) (.single right) scopes) =
      (left.code? scopes).bind fun first =>
        (right.code? scopes).bind (Coded.arithmetic? op position first) := by
  refine coded?_two fun first second => ?_
  dsimp only [Coded.arithmetic?]
  cases first.1.numeric? with
  | none => rfl
  | some primitive =>
      dsimp only
      split <;> rfl

theorem coded?_sign {operator : Operator} (hassign : operator ≠ .assign)
    (hcall : operator ≠ .call) :
    coded? (Expr.sign operator position (.single left) (.single right) scopes) =
      (left.code? scopes).bind fun first =>
        (right.code? scopes).bind (Coded.sign? operator position first) := by
  cases operator with
  | sequence => exact coded?_two fun first second => rfl
  | assign => contradiction
  | comma =>
      refine coded?_two fun first second => ?_
      dsimp only [Coded.sign?]
      cases first.1.append? second.1 <;> rfl
  | plus => exact coded?_arithmetic .add "+"
  | minus => exact coded?_arithmetic .sub "-"
  | star => exact coded?_arithmetic .mul "*"
  | call => contradiction

theorem coded?_negate :
    coded? (Piece.negate position (.single operand) scopes) =
      (operand.code? scopes).bind (Coded.negate? position) := by
  refine coded?_settle fun ty segment => ?_
  dsimp only [Coded.negate?]
  split <;> rfl

theorem coded?_member (name : String) :
    coded? (Piece.member position (.single operand) (.single (.name name position)) scopes) =
      (operand.code? scopes).bind (Coded.member? name position) := by
  refine coded?_settle fun ty segment => ?_
  dsimp only [Coded.member?]
  cases if ty.isTuple then ty.member? name else none with
  | none => rfl
  | some row =>
      dsimp only [Option.bind_some]
      cases Ty.inner? ty.atoms row.index.toNat <;> rfl

theorem coded?_array :
    coded? (Piece.array position (.single operand) scopes) =
      (operand.code? scopes).bind (Coded.array? position) := by
  refine coded?_settle fun ty segment => ?_
  dsimp only [Coded.array?]
  cases Piece.elementsOf ty position <;> rfl

theorem coded?_assign (name : String) (place : Position) :
    coded? (Piece.assign position (.single (.name name place)) (.single operand) scopes) =
      (operand.code? scopes).bind (Coded.assign? name place position) := by
  refine coded?_settle fun ty segment => ?_
  dsimp only [Coded.assign?, Option.bind_eq_bind]
  cases ty.close.size? with
  | none => rfl
  | some size =>
      dsimp only [inRange, ok_bind, Option.bind_some]
      cases (scopes.allocate size).2.declare name ⟨ty.close, .stack (scopes.allocate size).1⟩
        place <;> rfl

theorem coded?_blockEnd :
    coded? (Piece.blockEnd (.single operand) scopes) =
      (operand.code? scopes).bind Coded.leave? := by
  refine coded?_settle fun ty segment => ?_
  dsimp only [Coded.leave?]
  cases scopes.leave <;> rfl

theorem coded?_call (before behind : List Instruction) (placement : Int32) (argument : Ty)
    (callee : Operand) :
    coded? (Piece.call before behind placement argument position callee scopes) =
      Coded.call? before behind placement argument position callee scopes := by
  rw [Piece.call, coded?_bind, Coded.call?]
  cases callee.settleCallee scopes argument position with
  | error failure => rfl
  | ok found =>
      dsimp only [toOption_ok, Option.bind_some, Option.bind_eq_bind]
      cases found.1.result? <;> rfl

end Signs

end Analysis

namespace Expr

open Analysis

theorem build_of_bare? {expr : Expr} {text : String} {place : Position}
    (h : expr.bare? = some (text, place)) (scopes : Scopes) :
    expr.build scopes = .ok (.name text place, scopes) := by
  induction expr with
  | name found position =>
      cases h
      rfl
  | bracketed bracket inner opened closed ih =>
      cases bracket with
      | round =>
          rw [build, ih h]
          rfl
      | _ => contradiction
  | _ => contradiction

-- Behind an operand that binds nothing, the operand in front of it is found as before. A value does
-- not have to be looked up at all.
theorem settle_behind {left right : Expr} {scopes middle outer : Scopes} {first second : Operand}
    (hleft : left.build scopes = .ok (first, middle))
    (hright : right.build middle = .ok (second, outer))
    (h : left.bare? = none ∨ right.binds = false) :
    first.settle outer = first.settle middle := by
  rcases h with hvalue | hpure
  · cases first with
    | value ty segment => rfl
    | name text place =>
        rw [bare?_of_build hleft] at hvalue
        contradiction
  · exact Operand.settle_congr (chain_of_build hpure hright) first

def code? (expr : Expr) (scopes : Scopes) : Option Coded := coded? (expr.build scopes)

theorem code?_eq_some {expr : Expr} {scopes : Scopes} {coded : Coded}
    (h : expr.code? scopes = some coded) :
    ∃ operand, expr.build scopes = .ok (operand, coded.scopes) ∧
      operand.settle coded.scopes = .ok (coded.ty, coded.segment) := by
  obtain ⟨built, hbuild, h⟩ := Option.bind_eq_some_iff.mp h
  obtain ⟨found, hfound, rfl⟩ := Option.map_eq_some_iff.mp h
  exact ⟨built.1, toOption_eq_some hbuild, toOption_eq_some hfound⟩

section Equations

variable {scopes : Scopes} {position : Position}

theorem code?_of_bare? {expr : Expr} {text : String} {place : Position}
    (h : expr.bare? = some (text, place)) :
    expr.code? scopes = (scopes.lookup text).map fun binding =>
      ⟨binding.ty, Operand.loading binding place, scopes⟩ := by
  rw [code?, build_of_bare? h, coded?_ok, Operand.code?, Operand.settle]
  cases scopes.lookup text <;> rfl

theorem code?_negate (inner : Expr) :
    (Expr.negate inner position).code? scopes =
      (inner.code? scopes).bind (Coded.negate? position) := by
  rw [code?, build, coded?_bind, code?, coded?, Option.bind_assoc]
  exact congrArg _ (funext fun found => coded?_negate)

theorem code?_member (subject : Expr) (field : String) :
    (Expr.member subject field position).code? scopes =
      (subject.code? scopes).bind (Coded.member? field position) := by
  rw [code?, build, coded?_bind, code?, coded?, Option.bind_assoc]
  exact congrArg _ (funext fun found => coded?_member field)

theorem code?_square (inner : Expr) (opened closed : Position) :
    (Expr.bracketed .square inner opened closed).code? scopes =
      (inner.code? scopes).bind (Coded.array? opened) := by
  rw [code?, build, coded?_bind, code?, coded?, Option.bind_assoc]
  exact congrArg _ (funext fun found => coded?_array)

theorem code?_curly (inner : Expr) (opened closed : Position) :
    (Expr.bracketed .curly inner opened closed).code? scopes =
      (inner.code? scopes.enter).bind Coded.leave? := by
  rw [code?, build, coded?_bind, code?, coded?, Option.bind_assoc]
  exact congrArg _ (funext fun found => coded?_blockEnd)

-- Brackets close the type of a value.
theorem code?_round {inner : Expr} (h : inner.bare? = none) (opened closed : Position) :
    (Expr.bracketed .round inner opened closed).code? scopes =
      (inner.code? scopes).map Coded.close := by
  rw [code?, build, coded?_bind, code?]
  cases hinner : inner.build scopes with
  | error failure => rfl
  | ok found =>
      obtain ⟨operand, outer⟩ := found
      cases operand with
      | value ty segment => rfl
      | name text place =>
          rw [bare?_of_build hinner] at h
          contradiction

-- What comes out of both operands, the first one looked up behind the second, comes out of them one
-- after the other.
theorem settle_bind {α : Type} {left right : Expr}
    (h : left.bare? = none ∨ right.binds = false)
    (next : Ty × Segment → Operand × Scopes → Option α) :
    ((left.build scopes).toOption.bind fun built =>
      (right.build built.2).toOption.bind fun other =>
        (built.1.settle other.2).toOption.bind fun found => next found other) =
      (left.code? scopes).bind fun first =>
        (right.build first.scopes).toOption.bind (next (first.ty, first.segment)) := by
  rw [code?]
  cases hleft : left.build scopes with
  | error failure => rfl
  | ok built =>
      obtain ⟨first, middle⟩ := built
      rw [coded?_ok, Operand.code?, Option.bind_map, toOption_ok, Option.bind_some]
      cases hright : right.build middle with
      | error failure => cases first.settle middle <;> simp [hright]
      | ok other =>
          rw [toOption_ok, Option.bind_some, settle_behind hleft hright h]
          cases first.settle middle <;> simp [hright]

theorem code?_binary {operator : Operator} {left right : Expr} (hassign : operator ≠ .assign)
    (hcall : operator ≠ .call) (h : left.bare? = none ∨ right.binds = false) :
    (Expr.binary operator left right position).code? scopes =
      (left.code? scopes).bind fun first =>
        (right.code? first.scopes).bind (Coded.sign? operator position first) := by
  have hsign : ∀ (first : Coded) (scopes : Scopes),
      Coded.sign? operator position ⟨first.ty, first.segment, scopes⟩ =
        Coded.sign? operator position first := by
    intro first scopes
    cases operator <;> rfl
  have hright : ∀ first : Coded, (right.code? first.scopes).bind
      (Coded.sign? operator position first) =
      (right.build first.scopes).toOption.bind fun other => (other.1.code? other.2).bind
        (Coded.sign? operator position ⟨first.ty, first.segment, other.2⟩) := by
    intro first
    simp only [hsign, code?, coded?, Option.bind_assoc]
  simp only [hright]
  refine Eq.trans ?_ (settle_bind h fun found other => (other.1.code? other.2).bind
    (Coded.sign? operator position ⟨found.1, found.2, other.2⟩))
  rw [code?, build, coded?_bind]
  refine congrArg _ (funext fun first => ?_)
  rw [coded?_bind]
  refine congrArg _ (funext fun other => ?_)
  rw [coded?_sign hassign hcall, Operand.code?, Option.bind_map]
  rfl

theorem code?_assign {target : Expr} {text : String} {place : Position} (right : Expr)
    (h : target.bare? = some (text, place)) :
    (Expr.binary .assign target right position).code? scopes =
      (right.code? scopes).bind (Coded.assign? text place position) := by
  rw [code?, build, build_of_bare? h, ok_bind, coded?_bind, code?, coded?, Option.bind_assoc]
  exact congrArg _ (funext fun found => coded?_assign text place)

-- The callee stays an operand until the type of the argument is known.
theorem code?_call (callee argument : Expr) :
    (Expr.binary .call callee argument position).code? scopes =
      (callee.build scopes).toOption.bind fun built =>
        (argument.code? built.2).bind fun second =>
          Coded.call? [] (second.segment.code 0) 0 second.ty position built.1 second.scopes := by
  rw [code?, build, coded?_bind]
  refine congrArg _ (funext fun built => ?_)
  rw [coded?_bind, code?, coded?, Option.bind_assoc]
  exact congrArg _ (funext fun other => coded?_settle fun ty segment => coded?_call ..)

theorem code?_pipe {value callee : Expr} (h : value.bare? = none ∨ callee.binds = false) :
    (Expr.pipe value callee position).code? scopes =
      (value.code? scopes).bind fun first =>
        (callee.build first.scopes).toOption.bind fun built =>
          first.ty.size?.bind fun _ =>
            Coded.call? (first.segment.code gap) [] (backward first.ty) first.ty position built.1
              built.2 := by
  refine Eq.trans ?_ (settle_bind h fun found built => found.1.size?.bind fun _ =>
    Coded.call? (found.2.code gap) [] (backward found.1) found.1 position built.1 built.2)
  rw [code?, build, coded?_bind]
  refine congrArg _ (funext fun first => ?_)
  rw [coded?_bind]
  refine congrArg _ (funext fun built => ?_)
  rw [coded?_bind, Operand.piping]
  cases first.1.settle built.2 with
  | error failure => rfl
  | ok found =>
      simp only [ok_bind, toOption_ok, Option.bind_some]
      cases found.1.size? with
      | none => rfl
      | some size => exact coded?_call ..

theorem code?_pipeWith {value callee argument : Expr}
    (h : value.bare? = none ∨ callee.binds = false) :
    (Expr.pipeWith value callee argument position).code? scopes =
      (value.code? scopes).bind fun first =>
        (callee.build first.scopes).toOption.bind fun built =>
          first.ty.size?.bind fun _ =>
            (argument.code? built.2).bind fun third =>
              (first.ty.append? third.ty).bind fun whole =>
                Coded.call? (first.segment.code gap) (third.segment.code 0) (backward first.ty)
                  whole position built.1 third.scopes := by
  refine Eq.trans ?_ (settle_bind h fun found built => found.1.size?.bind fun _ =>
    (argument.code? built.2).bind fun third => (found.1.append? third.ty).bind fun whole =>
      Coded.call? (found.2.code gap) (third.segment.code 0) (backward found.1) whole position
        built.1 third.scopes)
  rw [code?, build, coded?_bind]
  refine congrArg _ (funext fun first => ?_)
  rw [coded?_bind]
  refine congrArg _ (funext fun built => ?_)
  rw [coded?_bind, Operand.piping]
  cases first.1.settle built.2 with
  | error failure => rfl
  | ok found =>
      simp only [ok_bind, toOption_ok, Option.bind_some]
      cases found.1.size? with
      | none => rfl
      | some size =>
          simp only [inRange, ok_bind, toOption_ok, Option.bind_some]
          rw [coded?_bind, code?, coded?, Option.bind_assoc]
          refine congrArg _ (funext fun other => coded?_settle fun ty segment => ?_)
          rw [coded?_bind, toOption_inRange]
          exact congrArg _ (funext fun whole => coded?_call ..)

end Equations

end Expr

end Sluice

import Mathlib
import Sluice.Proofs.Refinement
import Sluice.Proofs.Steps
import Sluice.Source.Compile

namespace Sluice

namespace Analysis

-- A pipe whose callee is no pipe itself. In an expression no other one occurs.
def Operand.piping (value callee : Operand) (scopes : Scopes) : Except Failure Piece := do
  let (ty, segment) ← value.settle scopes
  let _ ← inRange ty.size?
  .ok (.piped ty segment callee)

theorem Operand.piping_eq_ok {value callee : Operand} {scopes : Scopes} {piece : Piece}
    (h : value.piping callee scopes = .ok piece) :
    ∃ ty segment size, value.settle scopes = .ok (ty, segment) ∧ ty.size? = some size ∧
      piece = .piped ty segment callee := by
  obtain ⟨⟨ty, segment⟩, hvalue, h⟩ := bind_eq_ok.mp h
  obtain ⟨size, hsize, h⟩ := bind_eq_ok.mp h
  cases h
  exact ⟨ty, segment, size, hvalue, inRange_eq_ok.mp hsize, rfl⟩

namespace Plan

def steps (tokens : List Token) (plan : Plan) : Except Failure Plan :=
  tokens.foldlM (fun plan token => plan.step token) plan

@[simp] theorem steps_nil (plan : Plan) : plan.steps [] = .ok plan := rfl

@[simp] theorem steps_cons (token : Token) (rest : List Token) (plan : Plan) :
    plan.steps (token :: rest) = plan.step token >>= steps rest := rfl

@[simp] theorem steps_singleton (token : Token) (plan : Plan) :
    plan.steps [token] = plan.step token := by
  rw [steps_cons]
  cases plan.step token <;> rfl

theorem steps_append (first rest : List Token) (plan : Plan) :
    plan.steps (first ++ rest) = plan.steps first >>= steps rest := by
  simp only [steps, List.foldlM_append]
  rfl

-- Tokens in front of the last one are steps.
theorem assemble_append {first : List Token} (hfirst : ∀ token ∈ first, ends token = false)
    (literals : Pool) (rest : List Token) (plan : Plan) :
    plan.assemble literals (first ++ rest) =
      plan.steps first >>= fun plan => plan.assemble literals rest := by
  induction first generalizing plan with
  | nil => rfl
  | cons token first ih =>
      obtain ⟨htoken, hfirst⟩ := List.forall_mem_cons.mp hfirst
      simp only [List.cons_append, assemble, htoken, Bool.false_eq_true, if_false, steps_cons,
        bind_assoc, ih hfirst]

theorem assemble_end {token : Token} (htoken : ends token = true) (literals : Pool)
    (plan : Plan) : plan.assemble literals [token] = plan.finish literals token := by
  simp only [assemble, htoken, if_true]
  cases plan.finish literals token <;> rfl

@[simp] theorem put_ok (rest : List Piece) (built : Operand × Scopes) :
    put rest (.ok built) = .ok ⟨.single built.1 :: rest, built.2⟩ := rfl

@[simp] theorem put_error (rest : List Piece) (failure : Failure) :
    put rest (.error failure) = .error failure := rfl

end Plan

end Analysis

namespace Expr

open Analysis

def sign : Operator → Position → Piece → Piece → Scopes → Joined
  | .sequence => Piece.sequence
  | .assign => Piece.assign
  | .comma => Piece.tuple
  | .plus => Piece.arithmetic .add "+"
  | .minus => Piece.arithmetic .sub "-"
  | .star => Piece.arithmetic .mul "*"
  | .call => Piece.applied

-- The operand that an expression becomes, and the scopes behind it.
def build : Expr → Scopes → Joined
  | .number text position, scopes => Piece.number text position scopes
  | .name text position, scopes => .ok (.name text position, scopes)
  | .negate operand position, scopes => do
      let (operand, scopes) ← operand.build scopes
      Piece.negate position (.single operand) scopes
  | .binary operator left right position, scopes => do
      let (left, scopes) ← left.build scopes
      let (right, scopes) ← right.build scopes
      sign operator position (.single left) (.single right) scopes
  | .pipe value callee position, scopes => do
      let (value, scopes) ← value.build scopes
      let (callee, scopes) ← callee.build scopes
      let piped ← value.piping callee scopes
      Piece.completed position piped scopes
  | .pipeWith value callee argument position, scopes => do
      let (value, scopes) ← value.build scopes
      let (callee, scopes) ← callee.build scopes
      let piped ← value.piping callee scopes
      let (argument, scopes) ← argument.build scopes
      Piece.applied position piped (.single argument) scopes
  | .member subject field position, scopes => do
      let (subject, scopes) ← subject.build scopes
      Piece.member position (.single subject) (.single (.name field position)) scopes
  | .bracketed .round inner _ _, scopes => do
      let (inner, scopes) ← inner.build scopes
      Piece.group (.single inner) scopes
  | .bracketed .square inner opened _, scopes => do
      let (inner, scopes) ← inner.build scopes
      Piece.array opened (.single inner) scopes
  | .bracketed .curly inner _ _, scopes => do
      let (inner, scopes) ← inner.build scopes.enter
      Piece.blockEnd (.single inner) scopes

section Inversion

variable {scopes outer : Scopes} {operand : Operand} {position : Position}

theorem build_negate {inner : Expr}
    (h : (Expr.negate inner position).build scopes = .ok (operand, outer)) :
    ∃ value middle, inner.build scopes = .ok (value, middle) ∧
      Piece.negate position (.single value) middle = .ok (operand, outer) := by
  obtain ⟨⟨value, middle⟩, hinner, h⟩ := bind_eq_ok.mp h
  exact ⟨value, middle, hinner, h⟩

theorem build_binary {operator : Operator} {left right : Expr}
    (h : (Expr.binary operator left right position).build scopes = .ok (operand, outer)) :
    ∃ first middle second built, left.build scopes = .ok (first, middle) ∧
      right.build middle = .ok (second, built) ∧
      sign operator position (.single first) (.single second) built = .ok (operand, outer) := by
  obtain ⟨⟨first, middle⟩, hleft, h⟩ := bind_eq_ok.mp h
  obtain ⟨⟨second, built⟩, hright, h⟩ := bind_eq_ok.mp h
  exact ⟨first, middle, second, built, hleft, hright, h⟩

theorem build_pipe {value callee : Expr}
    (h : (Expr.pipe value callee position).build scopes = .ok (operand, outer)) :
    ∃ first middle second built piped, value.build scopes = .ok (first, middle) ∧
      callee.build middle = .ok (second, built) ∧ first.piping second built = .ok piped ∧
      Piece.completed position piped built = .ok (operand, outer) := by
  obtain ⟨⟨first, middle⟩, hvalue, h⟩ := bind_eq_ok.mp h
  obtain ⟨⟨second, built⟩, hcallee, h⟩ := bind_eq_ok.mp h
  obtain ⟨piped, hpiped, h⟩ := bind_eq_ok.mp h
  exact ⟨first, middle, second, built, piped, hvalue, hcallee, hpiped, h⟩

theorem build_pipeWith {value callee argument : Expr}
    (h : (Expr.pipeWith value callee argument position).build scopes = .ok (operand, outer)) :
    ∃ first middle second behind piped third built, value.build scopes = .ok (first, middle) ∧
      callee.build middle = .ok (second, behind) ∧ first.piping second behind = .ok piped ∧
      argument.build behind = .ok (third, built) ∧
      Piece.applied position piped (.single third) built = .ok (operand, outer) := by
  obtain ⟨⟨first, middle⟩, hvalue, h⟩ := bind_eq_ok.mp h
  obtain ⟨⟨second, behind⟩, hcallee, h⟩ := bind_eq_ok.mp h
  obtain ⟨piped, hpiped, h⟩ := bind_eq_ok.mp h
  obtain ⟨⟨third, built⟩, hargument, h⟩ := bind_eq_ok.mp h
  exact ⟨first, middle, second, behind, piped, third, built, hvalue, hcallee, hpiped, hargument, h⟩

theorem build_member {subject : Expr} {field : String}
    (h : (Expr.member subject field position).build scopes = .ok (operand, outer)) :
    ∃ value middle, subject.build scopes = .ok (value, middle) ∧
      Piece.member position (.single value) (.single (.name field position)) middle =
        .ok (operand, outer) := by
  obtain ⟨⟨value, middle⟩, hsubject, h⟩ := bind_eq_ok.mp h
  exact ⟨value, middle, hsubject, h⟩

theorem build_round {inner : Expr} {opened closed : Position}
    (h : (Expr.bracketed .round inner opened closed).build scopes = .ok (operand, outer)) :
    ∃ value middle, inner.build scopes = .ok (value, middle) ∧
      Piece.group (.single value) middle = .ok (operand, outer) := by
  obtain ⟨⟨value, middle⟩, hinner, h⟩ := bind_eq_ok.mp h
  exact ⟨value, middle, hinner, h⟩

theorem build_square {inner : Expr} {opened closed : Position}
    (h : (Expr.bracketed .square inner opened closed).build scopes = .ok (operand, outer)) :
    ∃ value middle, inner.build scopes = .ok (value, middle) ∧
      Piece.array opened (.single value) middle = .ok (operand, outer) := by
  obtain ⟨⟨value, middle⟩, hinner, h⟩ := bind_eq_ok.mp h
  exact ⟨value, middle, hinner, h⟩

theorem build_curly {inner : Expr} {opened closed : Position}
    (h : (Expr.bracketed .curly inner opened closed).build scopes = .ok (operand, outer)) :
    ∃ value middle, inner.build scopes.enter = .ok (value, middle) ∧
      Piece.blockEnd (.single value) middle = .ok (operand, outer) := by
  obtain ⟨⟨value, middle⟩, hinner, h⟩ := bind_eq_ok.mp h
  exact ⟨value, middle, hinner, h⟩

end Inversion

theorem step_sign (operator : Operator) (left right : Piece) (rest : List Piece)
    (position : Position) (scopes : Scopes) :
    Plan.step ⟨tokenKind operator, .binary, "", position⟩ ⟨right :: left :: rest, scopes⟩ =
      Plan.put rest (sign operator position left right scopes) := by
  cases operator <;> rfl

theorem makes_of_sign {operator : Operator} {position : Position} {left right : Piece}
    {scopes outer : Scopes} {operand : Operand}
    (h : sign operator position left right scopes = .ok (operand, outer)) :
    Makes scopes (tokenKind operator) [right, left] operand outer := by
  cases operator with
  | sequence => exact Makes.of_sequence h
  | assign => exact Makes.of_assign h
  | comma => exact Makes.of_tuple h
  | plus => exact Makes.of_arithmetic rfl h
  | minus => exact Makes.of_arithmetic rfl h
  | star => exact Makes.of_arithmetic rfl h
  | call => exact Makes.of_applied h

theorem step_pipe (value callee : Operand) (rest : List Piece) (position : Position)
    (scopes : Scopes) :
    Plan.step ⟨.pipe, .binary, "|>", position⟩
        ⟨.single callee :: .single value :: rest, scopes⟩ =
      (value.piping callee scopes).map fun piece => ⟨piece :: rest, scopes⟩ := rfl

-- The tokens of an expression push what is built.
theorem steps_postfixTokens (expr : Expr) (pieces : List Piece) (scopes : Scopes) :
    Plan.steps expr.postfixTokens ⟨pieces, scopes⟩ = Plan.put pieces (expr.build scopes) := by
  induction expr generalizing pieces scopes with
  | number text position => exact Plan.steps_singleton _ _
  | name text position => rfl
  | negate operand position ih =>
      simp only [postfixTokens, Plan.steps_append, ih, build]
      cases operand.build scopes with
      | error failure => rfl
      | ok built => exact Plan.steps_singleton _ _
  | binary operator left right position ihleft ihright =>
      simp only [postfixTokens, Plan.steps_append, ihleft, build]
      cases left.build scopes with
      | error failure => rfl
      | ok left =>
          simp only [Plan.put_ok, ok_bind, ihright]
          cases right.build left.2 with
          | error failure => rfl
          | ok right => exact (Plan.steps_singleton _ _).trans (step_sign ..)
  | pipe value callee position ihvalue ihcallee =>
      simp only [postfixTokens, Plan.steps_append, ihvalue, build]
      cases value.build scopes with
      | error failure => rfl
      | ok value =>
          simp only [Plan.put_ok, ok_bind, ihcallee]
          cases callee.build value.2 with
          | error failure => rfl
          | ok callee =>
              simp only [Plan.put_ok, ok_bind, Plan.steps_cons, step_pipe]
              cases value.1.piping callee.1 callee.2 with
              | error failure => rfl
              | ok piped => exact Plan.steps_singleton _ _
  | pipeWith value callee argument position ihvalue ihcallee ihargument =>
      simp only [postfixTokens, Plan.steps_append, ihvalue, build]
      cases value.build scopes with
      | error failure => rfl
      | ok value =>
          simp only [Plan.put_ok, ok_bind, ihcallee]
          cases callee.build value.2 with
          | error failure => rfl
          | ok callee =>
              simp only [Plan.put_ok, ok_bind, Plan.steps_singleton, step_pipe]
              cases value.1.piping callee.1 callee.2 with
              | error failure => rfl
              | ok piped =>
                  simp only [Except.map, ok_bind, ihargument]
                  cases argument.build callee.2 with
                  | error failure => rfl
                  | ok argument => exact Plan.steps_singleton _ _
  | member subject field position ih =>
      simp only [postfixTokens, Plan.steps_append, ih, build]
      cases subject.build scopes with
      | error failure => rfl
      | ok subject => exact Plan.steps_singleton _ _
  | bracketed bracket inner opened closed ih =>
      cases bracket with
      | round =>
          simp only [postfixTokens, Plan.steps_append, ih, build]
          cases inner.build scopes with
          | error failure => rfl
          | ok inner => exact Plan.steps_singleton _ _
      | square =>
          simp only [postfixTokens, Plan.steps_append, ih, build]
          cases inner.build scopes with
          | error failure => rfl
          | ok inner => exact Plan.steps_singleton _ _
      | curly =>
          have henter : Plan.step ⟨.blockBegin, .nullary, "\x7b", opened⟩ ⟨pieces, scopes⟩ =
              .ok ⟨pieces, scopes.enter⟩ := rfl
          simp only [postfixTokens, Plan.steps_cons, henter, ok_bind, Plan.steps_append, ih, build]
          cases inner.build scopes.enter with
          | error failure => rfl
          | ok inner => exact Plan.steps_singleton _ _

theorem steps_of_build {expr : Expr} {scopes outer : Scopes} {operand : Operand}
    (h : expr.build scopes = .ok (operand, outer)) (pieces : List Piece) :
    Plan.steps expr.postfixTokens ⟨pieces, scopes⟩ = .ok ⟨.single operand :: pieces, outer⟩ := by
  rw [steps_postfixTokens, h, Plan.put_ok]

-- A value and its callee become one piece of the plan.
theorem steps_pipe {value callee : Expr} {scopes middle outer : Scopes} {first second : Operand}
    {piped : Piece} (hvalue : value.build scopes = .ok (first, middle))
    (hcallee : callee.build middle = .ok (second, outer))
    (hpiped : first.piping second outer = .ok piped) (position : Position)
    (pieces : List Piece) :
    Plan.steps (value.postfixTokens ++ callee.postfixTokens ++ [⟨.pipe, .binary, "|>", position⟩])
      ⟨pieces, scopes⟩ = .ok ⟨piped :: pieces, outer⟩ := by
  rw [Plan.steps_append, Plan.steps_append, steps_of_build hvalue, ok_bind, steps_of_build hcallee,
    ok_bind, Plan.steps_singleton, step_pipe, hpiped]
  rfl

theorem ends_postfixTokens (expr : Expr) :
    ∀ token ∈ expr.postfixTokens, Plan.ends token = false := by
  induction expr with
  | number text position => simp [postfixTokens, Plan.ends]
  | name text position => simp [postfixTokens, Plan.ends]
  | negate operand position ih => simp_all [postfixTokens, Plan.ends, or_imp]
  | binary operator left right position ihleft ihright =>
      have hkind : tokenKind operator ≠ .finish := by cases operator <;> decide
      simp_all [postfixTokens, Plan.ends, or_imp]
  | pipe value callee position ihvalue ihcallee =>
      simp_all [postfixTokens, Plan.ends, or_imp]
  | pipeWith value callee argument position ihvalue ihcallee ihargument =>
      simp_all [postfixTokens, Plan.ends, or_imp]
  | member subject field position ih => simp_all [postfixTokens, Plan.ends, or_imp]
  | bracketed bracket inner opened closed ih =>
      cases bracket <;> simp_all [postfixTokens, Plan.ends, or_imp]

end Expr

namespace Source

-- The expression of a source, and the place of its last lexeme.
def expr (source : Bytes) : Except Failure (Expr × Position) := do
  let lexemes ← Lexeme.scan source
  let expr ← Expr.parse lexemes
  .ok (expr, (lexemes.getLast?.map Lexeme.position).getD .start)

theorem tokens_eq_expr (source : Bytes) :
    tokens source =
      (do
        let (expr, last) ← expr source
        .ok (expr.postfixTokens ++ [⟨.finish, .leftUnary, "", last⟩])) := by
  unfold tokens expr
  cases Lexeme.scan source with
  | error failure => rfl
  | ok lexemes =>
      simp only [ok_bind]
      cases Expr.parse lexemes <;> rfl

-- A source is compiled by building its expression.
theorem compile_eq_build (library : Library) (source : Bytes) :
    compile library source =
      (do
        let (expr, last) ← expr source
        let (scopes, literals) ← Scopes.ofLibrary library
        let (operand, scopes) ← expr.build scopes
        Analysis.Plan.finish literals ⟨.finish, .leftUnary, "", last⟩
          ⟨[.single operand], scopes⟩) := by
  rw [compile, compileLogged, tokens_eq_expr]
  cases expr source with
  | error failure => rfl
  | ok parsed =>
      obtain ⟨expr, last⟩ := parsed
      simp only [ok_bind, Analysis.compile_eq_assemble]
      cases Scopes.ofLibrary library with
      | error failure => rfl
      | ok root =>
          simp only [ok_bind, Analysis.Plan.assemble_append expr.ends_postfixTokens,
            Expr.steps_postfixTokens]
          cases expr.build root.1 with
          | error failure => rfl
          | ok built =>
              simp only [Analysis.Plan.put_ok, ok_bind]
              rw [Analysis.Plan.assemble_end (by rfl)]

end Source

end Sluice

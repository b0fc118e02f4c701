import Sluice.Expr
import Sluice.Problem

namespace Sluice

namespace Expr

-- What may follow a complete operand.
inductive Link
  | sign (operator : Operator)
  | pipe
  | dot
deriving DecidableEq, Repr

namespace Link

-- A sign takes everything to its left that binds at least as strongly as its left power, and
-- everything to its right that binds at least as strongly as its right power.
def leftPower : Link → Nat
  | .sign .sequence => 1
  | .sign .assign => 4
  | .sign .comma => 5
  | .pipe => 7
  | .sign .plus | .sign .minus => 9
  | .sign .star => 11
  | .sign .call => 15
  | .dot => 19

-- An assignment groups to the right. A pipe is loose on its left and tight on its right, so that an
-- argument behind the callee belongs to the pipe.
def rightPower : Link → Nat
  | .sign .sequence => 2
  | .sign .assign => 3
  | .sign .comma => 6
  | .pipe => 17
  | .sign .plus | .sign .minus => 10
  | .sign .star => 12
  | .sign .call => 16
  | .dot => 20

-- The link that a lexeme makes. A word that can begin an operand is an argument, and a closing
-- bracket makes none.
def ofWord? : Word → Option Link
  | .number _ | .name _ | .mark (.opening _) => some (.sign .call)
  | .mark .semicolon => some (.sign .sequence)
  | .mark .assign => some (.sign .assign)
  | .mark .comma => some (.sign .comma)
  | .mark .plus => some (.sign .plus)
  | .mark .minus => some (.sign .minus)
  | .mark .star => some (.sign .star)
  | .mark .pipe => some .pipe
  | .mark .dot => some .dot
  | .mark (.closing _) => none

end Link

-- The power with which a minus sign in front takes its operand.
def negatePower : Nat := 13

-- An underscore and one or more digits.
def isMemberName (name : String) : Bool :=
  match name.toList with
  | '_' :: first :: rest => (first :: rest).all Char.isDigit
  | _ => false

-- An expression at the front of `before`, and fewer lexemes after it.
structure Parsed (before : List Lexeme) where
  expr : Expr
  rest : List Lexeme
  shorter : rest.length < before.length

-- The same when the expression began earlier, so that nothing more has to be read.
structure Extended (before : List Lexeme) where
  expr : Expr
  rest : List Lexeme
  atMost : rest.length ≤ before.length

-- The bracket that closes what was opened at `opened`.
def closing (bracket : Bracket) (opened : Position) (lexemes : List Lexeme) :
    Except Failure (Position × { rest : List Lexeme // rest.length < lexemes.length }) :=
  match lexemes with
  | [] => .error (.located opened (.missingCloser bracket))
  | lexeme :: rest =>
      if lexeme.word = .mark (.closing bracket) then .ok (lexeme.position, ⟨rest, by simp⟩)
      else .error (.located lexeme.position (.wrongCloser bracket lexeme.text opened))

-- A member name right behind a dot.
def memberName? (lexemes : List Lexeme) :
    Option (String × { rest : List Lexeme // rest.length < lexemes.length }) :=
  match lexemes with
  | ⟨.name text, _⟩ :: rest => if isMemberName text then some (text, ⟨rest, by simp⟩) else none
  | _ => none

mutual

-- A number, a name, a pair of brackets, or a minus sign with its operand. `last` is the place of
-- the last lexeme of the program, where an operand that is missing at the end is reported.
def parseOperand (last : Position) (lexemes : List Lexeme) : Except Failure (Parsed lexemes) :=
  match lexemes with
  | [] => .error (.located last .expectedExpression)
  | lexeme :: rest =>
      match lexeme.word with
      | .number text => .ok ⟨.number text lexeme.position, rest, by simp⟩
      | .name text => .ok ⟨.name text lexeme.position, rest, by simp⟩
      | .mark .minus => do
          let ⟨operand, after, hafter⟩ ← parseExpr last negatePower rest
          .ok ⟨.negate operand lexeme.position, after, by simp; omega⟩
      | .mark (.opening bracket) => do
          let ⟨inner, behind, hbehind⟩ ← parseExpr last 0 rest
          let (closed, ⟨after, hafter⟩) ← closing bracket lexeme.position behind
          .ok ⟨.bracketed bracket inner lexeme.position closed, after, by simp; omega⟩
      | .mark _ => .error (.located lexeme.position (.expectedExpressionNot lexeme.text))
termination_by 2 * lexemes.length
decreasing_by all_goals simp only [List.length_cons] at *; omega

-- An expression all of whose signs bind at least as strongly as `least`.
def parseExpr (last : Position) (least : Nat) (lexemes : List Lexeme) :
    Except Failure (Parsed lexemes) := do
  let ⟨operand, behind, hbehind⟩ ← parseOperand last lexemes
  let ⟨whole, after, hafter⟩ ← extend last least operand behind
  .ok ⟨whole, after, by omega⟩
termination_by 2 * lexemes.length + 1
decreasing_by all_goals omega

-- Adds signs and their right sides to `left` as long as they bind strongly enough.
def extend (last : Position) (least : Nat) (left : Expr) (lexemes : List Lexeme) :
    Except Failure (Extended lexemes) :=
  match lexemes with
  | [] => .ok ⟨left, [], by simp⟩
  | lexeme :: rest =>
      match Link.ofWord? lexeme.word with
      | none => .ok ⟨left, lexeme :: rest, by simp⟩
      | some link =>
          if link.leftPower < least then .ok ⟨left, lexeme :: rest, by simp⟩
          else match link with
            | .sign .call => do
                let ⟨argument, behind, hbehind⟩ ← parseExpr last link.rightPower (lexeme :: rest)
                let joined := applied left argument lexeme.position
                let ⟨whole, after, hafter⟩ ← extend last least joined behind
                .ok ⟨whole, after, by omega⟩
            | .sign operator => do
                let ⟨right, behind, hbehind⟩ ← parseExpr last link.rightPower rest
                let joined := .binary operator left right lexeme.position
                let ⟨whole, after, hafter⟩ ← extend last least joined behind
                .ok ⟨whole, after, by simp; omega⟩
            | .pipe => do
                let ⟨callee, behind, hbehind⟩ ← parseExpr last link.rightPower rest
                let joined := .pipe left callee lexeme.position
                let ⟨whole, after, hafter⟩ ← extend last least joined behind
                .ok ⟨whole, after, by simp; omega⟩
            | .dot =>
                match memberName? rest with
                | some (field, ⟨behind, hbehind⟩) => do
                    let joined := .member left field lexeme.position
                    let ⟨whole, after, hafter⟩ ← extend last least joined behind
                    .ok ⟨whole, after, by simp; omega⟩
                | none => do
                    let ⟨callee, behind, hbehind⟩ ← parseExpr last link.rightPower rest
                    let joined := .pipe left callee lexeme.position
                    let ⟨whole, after, hafter⟩ ← extend last least joined behind
                    .ok ⟨whole, after, by simp; omega⟩
termination_by 2 * lexemes.length + 2
decreasing_by all_goals simp only [List.length_cons] at *; omega

end

-- A whole program is one expression, and nothing may follow it.
def parse (lexemes : List Lexeme) : Except Failure Expr :=
  match lexemes.getLast? with
  | none => .error (.located .start .expectedExpression)
  | some last => do
      let whole ← parseExpr last.position 0 lexemes
      match whole.rest with
      | [] => .ok whole.expr
      | lexeme :: _ => .error (.located lexeme.position (.unexpectedText lexeme.text))

end Expr

end Sluice

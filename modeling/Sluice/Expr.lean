import Sluice.Lexeme

namespace Sluice

-- Signs between two operands. Juxtaposition has no sign of its own.
inductive Operator
  | sequence
  | assign
  | comma
  | plus
  | minus
  | star
  | call
deriving DecidableEq, Repr

-- Every node keeps the place of its sign, and a pair of brackets the places of both. A pipe may
-- have taken up an argument that follows it.
inductive Expr
  | number (text : String) (position : Position)
  | name (text : String) (position : Position)
  | negate (operand : Expr) (position : Position)
  | binary (operator : Operator) (left right : Expr) (position : Position)
  | pipe (value callee : Expr) (position : Position)
  | pipeWith (value callee argument : Expr) (position : Position)
  | member (subject : Expr) (name : String) (position : Position)
  | bracketed (bracket : Bracket) (inner : Expr) (opened closed : Position)
deriving DecidableEq, Repr

namespace Expr

-- Juxtaposition. A pipe without an argument takes the argument up.
def applied (callee argument : Expr) (position : Position) : Expr :=
  match callee with
  | .pipe value callee place => .pipeWith value callee argument place
  | callee => .binary .call callee argument position

end Expr

end Sluice

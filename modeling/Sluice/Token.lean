import Sluice.Source

namespace Sluice

namespace Token

-- How many values a token takes, and on which side of the sign they were written.
inductive Arity
  | nullary
  | leftUnary
  | rightUnary
  | binary
deriving DecidableEq, Repr

inductive Kind
  | number
  | name
  | assign
  | plus
  | minus
  | star
  | comma
  | call
  | pipe
  | member
  | group
  | array
  | sequence
  | blockBegin
  | blockEnd
  | finish
deriving DecidableEq, Repr

def Arity.label : Arity → String
  | .nullary => "Nullary"
  | .leftUnary => "LeftUnary"
  | .rightUnary => "RightUnary"
  | .binary => "Binary"

def Kind.label : Kind → String
  | .number => "Number"
  | .name => "Name"
  | .assign => "Assign"
  | .plus => "Plus"
  | .minus => "Minus"
  | .star => "Star"
  | .comma => "Comma"
  | .call => "Call"
  | .pipe => "Pipe"
  | .member => "Member"
  | .group => "Group"
  | .array => "Array"
  | .sequence => "Sequence"
  | .blockBegin => "BlockBegin"
  | .blockEnd => "BlockEnd"
  | .finish => "End"

end Token

structure Token where
  kind : Token.Kind
  arity : Token.Arity
  text : String
  position : Position
deriving DecidableEq, Repr

namespace Token

-- How a token is shown in messages. A sign with two meanings is told apart by its arity.
def shown (token : Token) : String :=
  match token.kind with
  | .number | .name => token.text
  | .assign => ":="
  | .plus => "+"
  | .minus => if token.arity = .rightUnary then "neg" else "-"
  | .star => "*"
  | .comma => ","
  | .call => if token.arity = .leftUnary then "apply" else "call"
  | .pipe => "|>"
  | .member => "."
  | .group => "()"
  | .array => "[]"
  | .sequence => ";"
  | .blockBegin => "\x7b"
  | .blockEnd => "\x7d"
  | .finish => "end"

end Token

end Sluice

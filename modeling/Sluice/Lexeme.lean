import Sluice.Source

namespace Sluice

inductive Bracket
  | round
  | square
  | curly
deriving DecidableEq, Repr

namespace Bracket

def opener : Bracket → String
  | .round => "("
  | .square => "["
  | .curly => "\x7b"

def closer : Bracket → String
  | .round => ")"
  | .square => "]"
  | .curly => "\x7d"

end Bracket

inductive Mark
  | assign
  | pipe
  | plus
  | minus
  | star
  | comma
  | dot
  | semicolon
  | opening (bracket : Bracket)
  | closing (bracket : Bracket)
deriving DecidableEq, Repr

def Mark.text : Mark → String
  | .assign => ":="
  | .pipe => "|>"
  | .plus => "+"
  | .minus => "-"
  | .star => "*"
  | .comma => ","
  | .dot => "."
  | .semicolon => ";"
  | .opening bracket => bracket.opener
  | .closing bracket => bracket.closer

inductive Word
  | number (text : String)
  | name (text : String)
  | mark (sign : Mark)
deriving DecidableEq, Repr

def Word.text : Word → String
  | .number text => text
  | .name text => text
  | .mark sign => sign.text

structure Lexeme where
  word : Word
  position : Position
deriving DecidableEq, Repr

def Lexeme.text (lexeme : Lexeme) : String :=
  lexeme.word.text

end Sluice

import Sluice.Problem

namespace Sluice

namespace Lexeme

def isDigit (byte : UInt8) : Bool := 48 ≤ byte && byte ≤ 57

def isLetter (byte : UInt8) : Bool :=
  65 ≤ byte && byte ≤ 90 || 97 ≤ byte && byte ≤ 122

def startsName (byte : UInt8) : Bool := isLetter byte || byte = 95

def continuesName (byte : UInt8) : Bool := startsName byte || isDigit byte

-- Space, tab, line feed, form feed and carriage return.
def isBlank (byte : UInt8) : Bool :=
  byte = 32 || byte = 9 || byte = 10 || byte = 12 || byte = 13

-- How many bytes in front of the next lexeme are layout. A comment runs from `#` to the end of its
-- line; the line feed behind it is a blank.
def layoutLength : Bool → Bytes → Nat
  | _, [] => 0
  | inComment, byte :: rest =>
      if inComment then 1 + layoutLength (byte ≠ 10) rest
      else if isBlank byte then 1 + layoutLength false rest
      else if byte = 35 then 1 + layoutLength true rest
      else 0

-- Digits, and a fraction if the point has a digit behind it.
def numberLength (bytes : Bytes) : Nat :=
  let whole := (bytes.takeWhile isDigit).length
  match bytes.drop whole with
  | 46 :: next :: rest =>
      if isDigit next then whole + 1 + ((next :: rest).takeWhile isDigit).length else whole
  | _ => whole

-- A sign of two characters is preferred.
def mark? (first : UInt8) (rest : Bytes) : Option Mark :=
  match Char.ofUInt8 first, rest.head?.map Char.ofUInt8 with
  | ':', some '=' => some .assign
  | '|', some '>' => some .pipe
  | '+', _ => some .plus
  | '-', _ => some .minus
  | '*', _ => some .star
  | ',', _ => some .comma
  | '.', _ => some .dot
  | ';', _ => some .semicolon
  | '(', _ => some (.opening .round)
  | ')', _ => some (.closing .round)
  | '[', _ => some (.opening .square)
  | ']', _ => some (.closing .square)
  | '\x7b', _ => some (.opening .curly)
  | '\x7d', _ => some (.closing .curly)
  | _, _ => none

-- The word in front, and the number of its bytes after the first.
def word? (first : UInt8) (rest : Bytes) : Option (Word × Nat) :=
  if isDigit first then
    let length := numberLength (first :: rest)
    some (.number (Text.latin ((first :: rest).take length)), length - 1)
  else if startsName first then
    let text := first :: rest.takeWhile continuesName
    some (.name (Text.latin text), text.length - 1)
  else (mark? first rest).map fun mark => (.mark mark, mark.text.length - 1)

def skipLayout (cursor : Cursor) : Cursor :=
  cursor.advanceBy (layoutLength false cursor.rest)

-- The lexemes from a place on that is the end or the beginning of a lexeme.
def scanFrom : Cursor → Except Failure (List Lexeme)
  | ⟨[], _⟩ => .ok []
  | ⟨first :: rest, position⟩ =>
      match word? first rest with
      | none => .error (.located position (.unexpectedCharacter (Char.ofUInt8 first)))
      | some (word, more) =>
          match scanFrom (skipLayout (Cursor.advanceBy ⟨first :: rest, position⟩ (more + 1))) with
          | .error failure => .error failure
          | .ok lexemes => .ok (⟨word, position⟩ :: lexemes)
termination_by cursor => cursor.rest.length
decreasing_by
  simp only [skipLayout, Cursor.rest_advanceBy, List.length_drop, List.length_cons]
  omega

def scan (source : Bytes) : Except Failure (List Lexeme) :=
  scanFrom (skipLayout (Cursor.ofBytes source))

end Lexeme

end Sluice

import Sluice.Text.Utf8

namespace Sluice

-- Lines and columns count from one, the offset from zero. Columns count bytes.
structure Position where
  line : UInt32
  column : UInt32
  offset : UInt32
deriving DecidableEq, Repr

namespace Position

def start : Position := ⟨1, 1, 0⟩

def nextColumn (position : Position) : Position :=
  ⟨position.line, position.column + 1, position.offset + 1⟩

def nextLine (position : Position) : Position :=
  ⟨position.line + 1, 1, position.offset + 1⟩

def text (position : Position) : String :=
  toString position.line ++ ":" ++ toString position.column

end Position

-- What is left of a source, and where that begins.
structure Cursor where
  rest : Bytes
  position : Position

namespace Cursor

def ofBytes (source : Bytes) : Cursor := ⟨source, .start⟩

-- A line feed ends a line, and so does a carriage return without a line feed behind it.
def endsLine (byte : UInt8) (rest : Bytes) : Bool :=
  byte = 10 || byte = 13 && rest.head? ≠ some 10

def advance (cursor : Cursor) : Cursor :=
  match cursor.rest with
  | [] => cursor
  | byte :: rest =>
      ⟨rest, if endsLine byte rest then cursor.position.nextLine else cursor.position.nextColumn⟩

def advanceBy (cursor : Cursor) : Nat → Cursor
  | 0 => cursor
  | count + 1 => cursor.advance.advanceBy count

@[simp] theorem rest_advance (cursor : Cursor) : cursor.advance.rest = cursor.rest.drop 1 := by
  unfold advance
  split <;> simp_all

@[simp] theorem rest_advanceBy (cursor : Cursor) (count : Nat) :
    (cursor.advanceBy count).rest = cursor.rest.drop count := by
  induction count generalizing cursor with
  | zero => rfl
  | succ count ih =>
      simp [advanceBy, ih]

end Cursor

namespace Source

-- The bytes between two places.
def between (source : Bytes) (start finish : Position) : Bytes :=
  (source.take finish.offset.toNat).drop start.offset.toNat

-- The line around a place: from its first column up to the next line feed, without a carriage
-- return at the end. There is none if the place lies outside of the source or its column before the
-- start.
def lineAt? (source : Bytes) (position : Position) : Option String :=
  let offset := position.offset.toNat
  let column := position.column.toNat
  if column = 0 ∨ offset + 1 < column ∨ source.length < offset then none
  else
    let start := offset + 1 - column
    let finish := offset + ((source.drop offset).takeWhile (· ≠ 10)).length
    let line := (source.take finish).drop start
    some (Text.lenient (if line.getLast? = some 13 then line.dropLast else line))

end Source

end Sluice

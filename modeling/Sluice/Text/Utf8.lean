import Sluice.Bytes

namespace Sluice.Text

def encode (text : String) : Bytes :=
  text.toUTF8.data.toList

def decode? (bytes : Bytes) : Option String :=
  String.fromUTF8? ⟨bytes.toArray⟩

def replacement : Char := Char.ofNat 0xFFFD

-- The range of the second byte of a character with this first byte, and how many bytes follow the
-- first. Narrowed ranges keep out overlong forms, surrogates and numbers above the last character.
def continuation? (lead : UInt8) : Option (UInt8 × UInt8 × Nat) :=
  if 0xC2 ≤ lead ∧ lead ≤ 0xDF then some (0x80, 0xBF, 1)
  else if lead = 0xE0 then some (0xA0, 0xBF, 2)
  else if lead = 0xED then some (0x80, 0x9F, 2)
  else if 0xE1 ≤ lead ∧ lead ≤ 0xEF then some (0x80, 0xBF, 2)
  else if lead = 0xF0 then some (0x90, 0xBF, 3)
  else if lead = 0xF4 then some (0x80, 0x8F, 3)
  else if 0xF1 ≤ lead ∧ lead ≤ 0xF3 then some (0x80, 0xBF, 3)
  else none

def isTail (byte : UInt8) : Bool := 0x80 ≤ byte && byte ≤ 0xBF

-- How many bytes of `rest` can stand behind a first byte: at most `count`, the first of them in the
-- given range.
def tailLength (low high : UInt8) (count : Nat) (rest : Bytes) : Nat :=
  match rest with
  | [] => 0
  | second :: more =>
      if low ≤ second && second ≤ high then 1 + ((more.take (count - 1)).takeWhile isTail).length
      else 0

-- The bits a first byte contributes when `count` bytes follow it.
def leadBits (lead : UInt8) (count : Nat) : Nat :=
  lead.toNat % (64 >>> count)

-- The character at the front and the number of bytes it takes from `rest`. A part that cannot be
-- completed counts as one replacement character, and ends before the byte that breaks it.
def front (lead : UInt8) (rest : Bytes) : Char × Nat :=
  if lead < 0x80 then (Char.ofUInt8 lead, 0)
  else match continuation? lead with
    | none => (replacement, 0)
    | some (low, high, count) =>
        let found := tailLength low high count rest
        if found = count then
          let code := (rest.take count).foldl (fun n byte => n * 64 + byte.toNat % 64)
            (leadBits lead count)
          (Char.ofNat code, found)
        else (replacement, found)

def lenientChars : Bytes → List Char
  | [] => []
  | lead :: rest => (front lead rest).1 :: lenientChars (rest.drop (front lead rest).2)
termination_by bytes => bytes.length
decreasing_by
  simp only [List.length_drop, List.length_cons]
  omega

def lenient (bytes : Bytes) : String :=
  String.ofList (lenientChars bytes)

-- Each byte read as the character of the same number.
def latin (bytes : Bytes) : String :=
  String.ofList (bytes.map Char.ofUInt8)

end Sluice.Text

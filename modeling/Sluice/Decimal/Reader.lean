namespace Sluice.Decimal

def isDigit (c : Char) : Bool := '0' ≤ c && c ≤ '9'

def digitsValue (digits : List Char) : Nat :=
  digits.foldl (fun n c => 10 * n + (c.toNat - 48)) 0

-- A sign in front, if there is one, and what follows it.
def takeSign : List Char → Bool × List Char
  | '-' :: rest => (true, rest)
  | '+' :: rest => (false, rest)
  | text => (false, text)

-- One or more digits and nothing else.
def readDigits? (text : List Char) : Option Nat :=
  if text ≠ [] ∧ text.all isDigit then some (digitsValue text) else none

def readInteger? (text : String) : Option Int :=
  let (negative, digits) := takeSign text.toList
  (readDigits? digits).map fun n => if negative then -(n : Int) else n

-- Nothing, or `e` with a whole number.
def readExponent? : List Char → Option Int
  | [] => some 0
  | mark :: rest =>
      if mark = 'e' ∨ mark = 'E' then
        let (negative, digits) := takeSign rest
        (readDigits? digits).map fun n => if negative then -(n : Int) else n
      else none

-- The number nearest to `coefficient * 10 ^ scale`. Far outside of the range the answer is clear
-- without the power of ten.
def nearest (coefficient : Nat) (scale : Int) : Float :=
  let magnitude := (Nat.toDigits 10 coefficient).length + scale
  if coefficient = 0 then 0.0
  else if 400 < magnitude then 1.0 / 0.0
  else if magnitude < -400 then 0.0
  else if scale < 0 then Float.ofScientific coefficient true (-scale).toNat
  else Float.ofScientific coefficient false scale.toNat

-- A sign, digits with a point among them, and an exponent. The sign, the exponent and the digits on
-- one side of the point may be missing. The answer is the pattern of bits of a double.
def readFloat? (text : String) : Option UInt64 :=
  let (negative, body) := takeSign text.toList
  let whole := body.takeWhile isDigit
  let afterWhole := body.dropWhile isDigit
  let (fraction, tail) := match afterWhole with
    | '.' :: rest => (rest.takeWhile isDigit, rest.dropWhile isDigit)
    | rest => ([], rest)
  let digits := whole ++ fraction
  if digits = [] then none
  else (readExponent? tail).map fun exponent =>
    let coefficient := digitsValue digits
    let size := (nearest coefficient (exponent - fraction.length)).toBits
    if negative then size ^^^ 0x8000000000000000 else size

end Sluice.Decimal

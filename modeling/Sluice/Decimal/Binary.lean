namespace Sluice.Decimal

structure Format where
  fractionBits : Nat
  exponentBits : Nat

namespace Format

def single : Format := ⟨23, 8⟩

def double : Format := ⟨52, 11⟩

def width (format : Format) : Nat :=
  (1 + format.exponentBits + format.fractionBits) / 8

end Format

-- A finite number is `mantissa * 2 ^ exponent`, negated if `negative`. Zero keeps its sign.
inductive Number
  | nan
  | infinite (negative : Bool)
  | finite (negative : Bool) (mantissa : Nat) (exponent : Int)
deriving DecidableEq, Repr

namespace Number

-- The smallest exponent is shared by the numbers without an implicit leading bit.
def ofBits (format : Format) (bits : Nat) : Number :=
  let fraction := bits % (1 <<< format.fractionBits)
  let biased := (bits >>> format.fractionBits) % (1 <<< format.exponentBits)
  let negative := (bits >>> (format.fractionBits + format.exponentBits)) % 2 = 1
  let bias := (1 <<< (format.exponentBits - 1)) - 1
  if biased = (1 <<< format.exponentBits) - 1 then
    if fraction = 0 then .infinite negative else .nan
  else
    let mantissa := if biased = 0 then fraction else fraction + (1 <<< format.fractionBits)
    .finite negative mantissa ((max biased 1 : Nat) - (bias : Nat) - (format.fractionBits : Nat))

def isFinite : Number → Bool
  | .finite .. => true
  | _ => false

-- `mantissa * 2 ^ exponent` without its fraction.
def wholePart (mantissa : Nat) (exponent : Int) : Nat :=
  if 0 ≤ exponent then mantissa <<< exponent.toNat else mantissa >>> (-exponent).toNat

-- The nearest number of the range towards zero. What is no number becomes zero.
def clamp (least greatest : Int) : Number → Int
  | .nan => 0
  | .infinite negative => if negative then least else greatest
  | .finite negative mantissa exponent =>
      let whole : Int := wholePart mantissa exponent
      max least (min greatest (if negative then -whole else whole))

end Number

namespace Format

def isNan (format : Format) (bits : Nat) : Bool :=
  Number.ofBits format bits = .nan

-- The pattern of an operation without a result: negative, with the highest bit of the fraction.
def invalid (format : Format) : Nat :=
  ((1 <<< (format.exponentBits + 2)) - 1) <<< (format.fractionBits - 1)

-- The pattern of a result. Where it is no number it repeats the first operand that is none, with
-- the highest bit of the fraction set.
def settle (format : Format) (operands : List Nat) (result : Nat) : Nat :=
  if format.isNan result then
    match operands.find? format.isNan with
    | some operand => operand ||| (1 <<< (format.fractionBits - 1))
    | none => format.invalid
  else result

end Format

end Sluice.Decimal

import Sluice.Decimal.Shortest

namespace Sluice.Decimal

-- The digits of a number in `[0.1, 1)` and the power of ten it is multiplied by.
structure Digits where
  digits : List Char
  point : Int

-- Trailing zeros of the coefficient carry no information.
def Scaled.toDigits (decimal : Scaled) : Digits :=
  let all := Nat.toDigits 10 decimal.coefficient
  ⟨(all.reverse.dropWhile (· = '0')).reverse, all.length + decimal.scale⟩

-- Which powers of ten are written out, and whether a whole number shows a fraction.
structure Style where
  positional : Int → Bool
  fraction : Bool

-- Every number is written out, and a whole number has no point.
def Style.plain : Style := ⟨fun _ => true, false⟩

-- Numbers from `1e-4` to below `1e16` are written out, and a point is always there.
def Style.exact : Style := ⟨fun point => -3 ≤ point && point ≤ 16, true⟩

def zeros (count : Int) : List Char :=
  List.replicate count.toNat '0'

def Digits.positional (digits : Digits) (fraction : Bool) : List Char :=
  let count : Int := digits.digits.length
  if digits.point ≤ 0 then '0' :: '.' :: (zeros (-digits.point) ++ digits.digits)
  else if digits.point < count then
    digits.digits.take digits.point.toNat ++ '.' :: digits.digits.drop digits.point.toNat
  else
    digits.digits ++ zeros (digits.point - count) ++ if fraction then ['.', '0'] else []

def Digits.scientific (digits : Digits) : List Char :=
  let power := 'e' :: (toString (digits.point - 1)).toList
  match digits.digits with
  | [] => power
  | [first] => first :: power
  | first :: rest => first :: '.' :: (rest ++ power)

def Digits.text (style : Style) (digits : Digits) : List Char :=
  if style.positional digits.point then digits.positional style.fraction else digits.scientific

def Number.text (format : Format) (style : Style) : Number → String
  | .nan => "NaN"
  | .infinite negative => if negative then "-inf" else "inf"
  | .finite negative mantissa exponent =>
      let body :=
        if mantissa = 0 then if style.fraction then ['0', '.', '0'] else ['0']
        else (shortest format mantissa exponent).toDigits.text style
      String.ofList (if negative then '-' :: body else body)

end Sluice.Decimal

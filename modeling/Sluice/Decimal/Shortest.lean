import Sluice.Decimal.Binary

namespace Sluice.Decimal

-- The number `coefficient * 10 ^ scale`.
structure Scaled where
  coefficient : Nat
  scale : Int
deriving DecidableEq, Repr

-- A positive binary number with the midpoints around it, all as multiples of one power of two. A
-- decimal between the midpoints reads back as the number; a midpoint itself does if the mantissa is
-- even, because ties are read towards even mantissas.
structure Interval where
  low : Nat
  value : Nat
  high : Nat
  exponent : Int
  closed : Bool

-- Quarter steps make room for the midpoint below a power of two, where the numbers lie closer.
def Interval.around (format : Format) (mantissa : Nat) (exponent : Int) : Interval :=
  let below := if mantissa = 1 <<< format.fractionBits then 1 else 2
  ⟨4 * mantissa - below, 4 * mantissa, 4 * mantissa + 2, exponent - 2, mantissa % 2 = 0⟩

-- `factor * 10 ^ (-scale) * 2 ^ exponent` as a fraction: what a multiple of the power of two is in
-- units of `10 ^ scale`.
def Interval.multiplier (interval : Interval) (scale : Int) : Nat :=
  Nat.pow 10 (-scale).toNat <<< interval.exponent.toNat

def Interval.divisor (interval : Interval) (scale : Int) : Nat :=
  Nat.pow 10 scale.toNat <<< (-interval.exponent).toNat

def Interval.contains (interval : Interval) (scale : Int) (coefficient : Nat) : Bool :=
  let point := coefficient * interval.divisor scale
  let low := interval.low * interval.multiplier scale
  let high := interval.high * interval.multiplier scale
  if interval.closed then low ≤ point && point ≤ high else low < point && point < high

-- The neighbours of the value on the grid of `10 ^ scale`: the one inside of the interval, of two
-- the nearer, of two equally near the upper.
def Interval.onGrid? (interval : Interval) (scale : Int) : Option Scaled :=
  let value := interval.value * interval.multiplier scale
  let unit := interval.divisor scale
  let lower := value / unit
  let rest := value % unit
  match interval.contains scale lower, interval.contains scale (lower + 1) with
  | true, true => some ⟨if 2 * rest < unit then lower else lower + 1, scale⟩
  | true, false => some ⟨lower, scale⟩
  | false, true => some ⟨lower + 1, scale⟩
  | false, false => none

-- Finer and finer grids from `scale` on.
def Interval.search (interval : Interval) : Nat → Int → Scaled
  | 0, scale => ⟨interval.value * interval.multiplier scale / interval.divisor scale, scale⟩
  | steps + 1, scale =>
      match interval.onGrid? scale with
      | some found => found
      | none => interval.search steps (scale - 1)

-- The least `k` with `bound ≤ n * 10 ^ k`, if it is below `fuel`.
def shift (bound : Nat) : Nat → Nat → Nat
  | 0, _ => 0
  | fuel + 1, n => if bound ≤ n then 0 else 1 + shift bound fuel (10 * n)

-- The power of ten of the leading digit of `mantissa * 2 ^ exponent`.
def leadingScale (mantissa : Nat) (exponent : Int) : Int :=
  let whole := Number.wholePart mantissa exponent
  if whole = 0 then
    Int.negOfNat (shift (1 <<< (-exponent).toNat) ((-exponent).toNat + 1) mantissa)
  else ((Nat.toDigits 10 whole).length : Int) - 1

-- Seventeen digits tell any two numbers of the wider format apart, so the search ends in time.
def shortest (format : Format) (mantissa : Nat) (exponent : Int) : Scaled :=
  (Interval.around format mantissa exponent).search 17 (leadingScale mantissa exponent)

end Sluice.Decimal

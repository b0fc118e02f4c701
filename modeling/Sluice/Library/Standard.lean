import Sluice.Library
import Sluice.Scalar

namespace Sluice

namespace Library

-- Words inside of an argument.
def word? (offset : Nat) (argument : Bytes) : Option UInt32 :=
  (argument.slice? offset 4).map fun bytes => UInt32.ofNat (Bytes.toNat bytes)

def double? (offset : Nat) (argument : Bytes) : Option UInt64 :=
  (argument.slice? offset 8).map fun bytes => UInt64.ofNat (Bytes.toNat bytes)

def ofWord (word : UInt32) : Bytes := Bytes.ofNat 4 word.toNat

def ofDouble (bits : UInt64) : Bytes := Bytes.ofNat 8 bits.toNat

-- `base ^ exponent` modulo `2 ^ 32`, by repeated squaring.
def power (base : UInt32) (exponent : Nat) : UInt32 :=
  if exponent = 0 then 1
  else
    let half := power (base * base) (exponent / 2)
    if exponent % 2 = 1 then base * half else half
termination_by exponent

-- With a negative exponent the power is a fraction, cut off towards zero: only one and minus one
-- have a whole reciprocal. Zero has none and gives zero.
def integerPower (base exponent : Int32) : Int32 :=
  if 0 ≤ exponent then (power base.toUInt32 exponent.toInt.toNat).toInt32
  else if base = 1 then 1
  else if base = -1 then if exponent.toInt % 2 = 0 then 1 else -1
  else 0

def onWord (f : Int32 → Int32) (argument : Bytes) (_ : Nat) : Option Bytes :=
  (word? 0 argument).map fun x => ofWord (f x.toInt32).toUInt32

def onWords (f : Int32 → Int32 → Int32) (argument : Bytes) (_ : Nat) : Option Bytes :=
  match word? 0 argument, word? 4 argument with
  | some x, some y => some (ofWord (f x.toInt32 y.toInt32).toUInt32)
  | _, _ => none

def onDouble (f : UInt64 → UInt64) (argument : Bytes) (_ : Nat) : Option Bytes :=
  (double? 0 argument).map fun x => ofDouble (f x)

def onDoubles (f : UInt64 → UInt64 → UInt64) (argument : Bytes) (_ : Nat) : Option Bytes :=
  match double? 0 argument, double? 8 argument with
  | some x, some y => some (ofDouble (f x y))
  | _, _ => none

-- The first number only if it is less, so of two zeros the second is taken whatever their signs.
-- What is no number gives way to the other side.
def lesser (x y : UInt64) : UInt64 :=
  if (Float.ofBits y).isNaN || Float.ofBits x < Float.ofBits y then x else y

def greater (x y : UInt64) : UInt64 :=
  if (Float.ofBits y).isNaN || Float.ofBits y < Float.ofBits x then x else y

def floatPower (x y : UInt64) : UInt64 :=
  UInt64.ofNat (Decimal.Format.double.settle [x.toNat, y.toNat]
    (Float.pow (Float.ofBits x) (Float.ofBits y)).toBits.toNat)

def root (x : UInt64) : UInt64 :=
  UInt64.ofNat (Decimal.Format.double.settle [x.toNat] (Float.ofBits x).sqrt.toBits.toNat)

-- A float without its sign bit.
def magnitude (x : UInt64) : UInt64 := x &&& 0x7FFFFFFFFFFFFFFF

def toFloat (argument : Bytes) (_ : Nat) : Option Bytes :=
  (word? 0 argument).map fun x => ofDouble x.toInt32.toFloat.toBits

def toInteger (argument : Bytes) (_ : Nat) : Option Bytes :=
  (double? 0 argument).map fun bits =>
    Bytes.ofInt 4 ((Decimal.Number.ofBits .double bits.toNat).clamp
      Primitive.i32.least Primitive.i32.greatest)

def swap (argument : Bytes) (_ : Nat) : Option Bytes :=
  match word? 0 argument, word? 4 argument with
  | some x, some y => some (ofWord y ++ ofWord x)
  | _, _ => none

def integer : Ty := .ofPrimitive .i32

def float : Ty := .ofPrimitive .f64

def integerPair : Ty := .tuple [integer, integer]

def floatPair : Ty := .tuple [float, float]

def standard : Library where
  natives := [
    .ofFunction "pow" (.func integer integerPair) (onWords integerPower),
    .ofFunction "pow" (.func float floatPair) (onDoubles floatPower),
    .ofFunction "min" (.func integer integerPair) (onWords fun x y => if y < x then y else x),
    .ofFunction "min" (.func float floatPair) (onDoubles lesser),
    .ofFunction "max" (.func integer integerPair) (onWords fun x y => if x < y then y else x),
    .ofFunction "max" (.func float floatPair) (onDoubles greater),
    .ofFunction "abs" (.func integer integer) (onWord fun x => if x < 0 then -x else x),
    .ofFunction "abs" (.func float float) (onDouble magnitude),
    .ofFunction "sqrt" (.func float float) (onDouble root),
    .ofFunction "float" (.func float integer) toFloat,
    .ofFunction "int" (.func integer float) toInteger,
    .ofFunction "swap" (.func integerPair integerPair) swap]
  constants := [
    ⟨"pi", float, ofDouble 0x400921FB54442D18⟩,
    ⟨"e", float, ofDouble 0x4005BF0A8B145769⟩]

end Library

end Sluice

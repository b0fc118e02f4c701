import Sluice.Problem

namespace Sluice

inductive Scalar
  | integer (value : Int)
  | single (bits : UInt32)
  | double (bits : UInt64)
deriving DecidableEq, Repr

namespace Scalar

-- The number that the bytes hold, if the type is numeric and they have its width.
def read? (primitive : Primitive) (bytes : Bytes) : Option Scalar :=
  if bytes.length ≠ primitive.width then none
  else if primitive.isSigned then some (.integer bytes.toInt)
  else if primitive.isUnsigned then some (.integer bytes.toNat)
  else match primitive with
    | .f32 => some (.single (UInt32.ofNat bytes.toNat))
    | .f64 => some (.double (UInt64.ofNat bytes.toNat))
    | _ => none

-- Exact text, in which a float can be told from an integer and very large numbers stay short.
def text : Scalar → String
  | .integer value => toString value
  | .single bits => (Decimal.Number.ofBits .single bits.toNat).text .single .exact
  | .double bits => (Decimal.Number.ofBits .double bits.toNat).text .double .exact

-- A float without an exponent. A finite one always shows a point.
def floatText (format : Decimal.Format) (bits : Nat) : String :=
  let number := Decimal.Number.ofBits format bits
  let text := number.text format .plain
  if number.isFinite && !text.contains '.' then text ++ ".0" else text

-- Text of a value in a result.
def rendered : Scalar → String
  | .integer value => toString value
  | .single bits => floatText .single bits.toNat
  | .double bits => floatText .double bits.toNat

end Scalar

namespace Primitive

-- Least and greatest number of an integer type.
def least (primitive : Primitive) : Int :=
  if primitive.isSigned then -(Bytes.capacity primitive.width / 2 : Nat) else 0

def greatest (primitive : Primitive) : Int :=
  if primitive.isSigned then (Bytes.capacity primitive.width / 2 : Nat) - 1
  else (Bytes.capacity primitive.width : Nat) - 1

end Primitive

namespace Immediate

def toSingle : Immediate → UInt32
  | .int value => value.toFloat32.toBits
  | .uint value => value.toFloat32.toBits
  | .float bits => (Float.ofBits bits).toFloat32.toBits

def toDouble : Immediate → UInt64
  | .int value => value.toFloat.toBits
  | .uint value => value.toFloat.toBits
  | .float bits => bits

-- Integers lose their upper bytes. A float goes to the nearest integer towards zero that the type
-- can hold.
def toInteger (primitive : Primitive) : Immediate → Bytes
  | .int value => Bytes.ofInt primitive.width value.toInt
  | .uint value => Bytes.ofNat primitive.width value.toNat
  | .float bits =>
      Bytes.ofInt primitive.width
        ((Decimal.Number.ofBits .double bits.toNat).clamp primitive.least primitive.greatest)

-- The bytes of the number as a value of the type.
def encode (immediate : Immediate) (atom : Atom) : Except Failure Bytes :=
  match atom with
  | .prim .f32 => .ok (Bytes.ofNat 4 immediate.toSingle.toNat)
  | .prim .f64 => .ok (Bytes.ofNat 8 immediate.toDouble.toNat)
  | .prim primitive =>
      if primitive.isInteger then .ok (immediate.toInteger primitive)
      else .error (.plain (.unencodable atom))
  | _ => .error (.plain (.unencodable atom))

end Immediate

namespace Arithmetic

inductive Operation
  | add
  | sub
  | mul
deriving DecidableEq, Repr

def Operation.ofOp? : Op → Option Operation
  | .add => some .add
  | .sub => some .sub
  | .mul => some .mul
  | _ => none

def Operation.onInt : Operation → Int → Int → Int
  | .add, left, right => left + right
  | .sub, left, right => left - right
  | .mul, left, right => left * right

def Operation.onFloat32 : Operation → Float32 → Float32 → Float32
  | .add, left, right => left + right
  | .sub, left, right => left - right
  | .mul, left, right => left * right

def Operation.onFloat : Operation → Float → Float → Float
  | .add, left, right => left + right
  | .sub, left, right => left - right
  | .mul, left, right => left * right

def Operation.onSingle (operation : Operation) (left right : Nat) : Nat :=
  Decimal.Format.single.settle [left, right]
    (operation.onFloat32 (.ofBits (UInt32.ofNat left)) (.ofBits (UInt32.ofNat right))).toBits.toNat

def Operation.onDouble (operation : Operation) (left right : Nat) : Nat :=
  Decimal.Format.double.settle [left, right]
    (operation.onFloat (.ofBits (UInt64.ofNat left)) (.ofBits (UInt64.ofNat right))).toBits.toNat

-- The first `width` bytes of an operand, read without a sign.
def operand (width : Nat) (bytes : Bytes) : Except Failure Nat :=
  (inRange (bytes.split? width)).map fun parts => Bytes.toNat parts.1

-- Both operands are read at the width of the type. Integers wrap around.
def binary (operation : Operation) (atom : Atom) (left right : Bytes) : Except Failure Bytes :=
  match atom with
  | .prim primitive =>
      if primitive.isNumeric then do
        let leftValue ← operand primitive.width left
        let rightValue ← operand primitive.width right
        match primitive with
        | .f32 => .ok (Bytes.ofNat 4 (operation.onSingle leftValue rightValue))
        | .f64 => .ok (Bytes.ofNat 8 (operation.onDouble leftValue rightValue))
        | _ => .ok (Bytes.ofInt primitive.width (operation.onInt leftValue rightValue))
      else .error (.plain (.arithmeticOn atom))
  | _ => .error (.plain (.arithmeticOn atom))

-- The negation of a float only turns its sign bit.
def negate (atom : Atom) (bytes : Bytes) : Except Failure Bytes :=
  match atom with
  | .prim primitive =>
      if primitive.isNumeric then do
        let value ← operand primitive.width bytes
        if primitive.isFloat then
          .ok (Bytes.ofNat primitive.width (value ^^^ (Bytes.capacity primitive.width / 2)))
        else .ok (Bytes.ofInt primitive.width (-(value : Int)))
      else .error (.plain (.negationOf atom))
  | _ => .error (.plain (.negationOf atom))

end Arithmetic

end Sluice

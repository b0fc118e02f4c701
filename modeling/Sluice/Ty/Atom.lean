namespace Sluice

-- `undecided` is a wildcard in patterns, and the type of no value. A string is a handle into the
-- literal pool: an offset and a length.
inductive Primitive
  | undecided
  | i8
  | i16
  | i32
  | i64
  | isize
  | u8
  | u16
  | u32
  | u64
  | usize
  | f32
  | f64
  | str
deriving DecidableEq, Repr

-- Bytes of a function handle.
def handleWidth : Nat := 8

namespace Primitive

def width : Primitive → Nat
  | .undecided => 0
  | .i8 | .u8 => 1
  | .i16 | .u16 => 2
  | .i32 | .u32 | .f32 => 4
  | .i64 | .u64 | .f64 | .isize | .usize | .str => 8

def isSigned : Primitive → Bool
  | .i8 | .i16 | .i32 | .i64 | .isize => true
  | _ => false

def isUnsigned : Primitive → Bool
  | .u8 | .u16 | .u32 | .u64 | .usize => true
  | _ => false

def isInteger (primitive : Primitive) : Bool :=
  primitive.isSigned || primitive.isUnsigned

def isFloat : Primitive → Bool
  | .f32 | .f64 => true
  | _ => false

def isNumeric (primitive : Primitive) : Bool :=
  primitive.isInteger || primitive.isFloat

-- A string handle is aligned like its two halves, and a wildcard asks for nothing.
def alignment : Primitive → Nat
  | .undecided => 1
  | .str => 4
  | primitive => primitive.width

-- The word that programmers read.
def text : Primitive → String
  | .undecided => "@?"
  | .i8 => "@i8"
  | .i16 => "@i16"
  | .i32 => "@i32"
  | .i64 => "@i64"
  | .isize => "@isize"
  | .u8 => "@u8"
  | .u16 => "@u16"
  | .u32 => "@u32"
  | .u64 => "@u64"
  | .usize => "@usize"
  | .f32 => "@f32"
  | .f64 => "@f64"
  | .str => "@str"

-- The name of the atom itself.
def name : Primitive → String
  | .undecided => "Undecided"
  | .i8 => "I8"
  | .i16 => "I16"
  | .i32 => "I32"
  | .i64 => "I64"
  | .isize => "ISize"
  | .u8 => "U8"
  | .u16 => "U16"
  | .u32 => "U32"
  | .u64 => "U64"
  | .usize => "USize"
  | .f32 => "F32"
  | .f64 => "F64"
  | .str => "Str"

end Primitive

-- Tuples and functions run up to a closing atom, and an array is followed by its element count.
inductive Atom
  | prim (primitive : Primitive)
  | tuple
  | array
  | func
  | close
  | count (elements : UInt32)
deriving DecidableEq, Repr

namespace Atom

def name : Atom → String
  | .prim primitive => primitive.name
  | .tuple => "Tuple"
  | .array => "Array"
  | .func => "Func"
  | .close => "End"
  | .count elements => "Count(" ++ toString elements ++ ")"

-- The alignment an atom asks of the type it is part of.
def alignment : Atom → Nat
  | .prim primitive => primitive.alignment
  | .func => handleWidth
  | _ => 1

def primitive? : Atom → Option Primitive
  | .prim primitive => some primitive
  | _ => none

end Atom

end Sluice

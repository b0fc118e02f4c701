import Sluice.Scalar

namespace Sluice

structure Value where
  ty : Ty
  bytes : Bytes
deriving DecidableEq, Repr

namespace Skeleton

-- The text of a primitive that takes up all of the bytes.
def primitiveText? (primitive : Primitive) (bytes : Bytes) : Option String :=
  match primitive with
  | .undecided => some "?"
  | .str =>
      let offset := Bytes.toNat (bytes.take 4)
      let length := Bytes.toNat (bytes.drop 4)
      some ("@str(" ++ toString offset ++ "," ++ toString length ++ ")")
  | primitive => (Scalar.read? primitive bytes).map Scalar.rendered

def handleText (bytes : Bytes) : String :=
  match NativeId.ofBytes? bytes with
  | some id => id.text
  | none => "@fn"

-- The number of bytes as it is kept, in 32 bits.
def width? (part : Skeleton) : Option UInt32 := part.size?.map UInt32.ofNat

-- `count` texts, each of the next `width` bytes.
def renderTimes? (width : Nat) (render : Bytes → Option String) :
    Nat → Bytes → Option (List String)
  | 0, _ => some []
  | count + 1, bytes => do
      let (front, rest) ← bytes.split? width
      let text ← render front
      let texts ← renderTimes? width render count rest
      some (text :: texts)

mutual

-- The text of as many bytes as the part takes up. Elements lie next to each other, and a function is
-- its handle, whatever stands inside of it. `none` means that the bytes end too early: the sizes of
-- the elements may come to more than 32 bits can hold.
def render? : Skeleton → Bytes → Option String
  | .leaf (.prim primitive), bytes => primitiveText? primitive bytes
  | .leaf _, _ => none
  | .tuple parts, bytes =>
      (renderAll? parts bytes).map fun texts => "(" ++ Text.joined "," texts ++ ")"
  | .array element (some (.count count)), bytes => do
      let width ← element.width?
      (renderTimes? width.toNat element.render? count.toNat bytes).map fun texts =>
        "[" ++ Text.joined "," texts ++ "]"
  | .array _ _, _ => none
  | .func _, bytes => some (handleText bytes)

def renderAll? : List Skeleton → Bytes → Option (List String)
  | [], _ => some []
  | part :: rest, bytes => do
      let width ← part.width?
      let (front, bytes) ← bytes.split? width.toNat
      let text ← part.render? front
      let texts ← renderAll? rest bytes
      some (text :: texts)

end

end Skeleton

namespace Value

def render? (value : Value) : Option String := do
  let (part, _) ← Skeleton.read? value.ty.atoms
  let width ← part.width?
  let (front, _) ← value.bytes.split? width.toNat
  part.render? front

def text (value : Value) : String := value.render?.getD ""

-- The number that is the whole value.
def scalar? (value : Value) : Option (Primitive × Scalar) :=
  value.ty.numeric?.bind fun primitive =>
    (Scalar.read? primitive value.bytes).map fun scalar => (primitive, scalar)

end Value

end Sluice

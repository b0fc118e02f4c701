import Sluice.Bytecode.Codec
import Sluice.Program

namespace Sluice

namespace Bytecode

open Codec

def primitives : List Primitive :=
  [.undecided, .i8, .i16, .i32, .i64, .isize, .u8, .u16, .u32, .u64, .usize, .f32, .f64, .str]

def atomTag : Atom → Nat
  | .prim primitive => primitives.idxOf primitive
  | .tuple => 14
  | .array => 15
  | .func => 16
  | .close => 17
  | .count _ => 18

def elementCount : Atom → UInt32
  | .count elements => elements
  | _ => 0

-- Only a count has anything behind its tag.
def atomForm : Nat → Option (Codec Atom)
  | 14 => some (constant .tuple)
  | 15 => some (constant .array)
  | 16 => some (constant .func)
  | 17 => some (constant .close)
  | 18 => some (uint32.map .count elementCount)
  | tag => primitives[tag]?.map fun primitive => constant (.prim primitive)

def atom : Codec Atom := tagged atomTag atomForm

def member : Codec Member :=
  (text.pair (uint64.pair uint32)).map (fun (name, index, offset) => ⟨name, index, offset⟩)
    fun row => (row.name, row.index, row.offset)

def ty : Codec Ty :=
  ((list atom).pair ((list member).pair flag)).map
    (fun (atoms, members, isClosed) => ⟨atoms, members, isClosed⟩)
    fun ty => (ty.atoms, ty.members, ty.isClosed)

def op : Codec Op :=
  oneOf [.unresolved, .nop, .loadI, .loadL, .load, .copy, .add, .sub, .mul, .neg, .tuple, .member,
    .seq, .call, .finish]

def immediateTag : Immediate → Nat
  | .int _ => 0
  | .uint _ => 1
  | .float _ => 2

def intOf : Immediate → Int64
  | .int value => value
  | _ => 0

def wordOf : Immediate → UInt64
  | .uint value => value
  | .float bits => bits
  | _ => 0

def immediateForm : Nat → Option (Codec Immediate)
  | 0 => some (int64.map .int intOf)
  | 1 => some (uint64.map .uint wordOf)
  | 2 => some (uint64.map .float wordOf)
  | _ => none

def immediate : Codec Immediate := tagged immediateTag immediateForm

def payloadTag : Payload → Nat
  | .none => 0
  | .immediate _ => 1
  | .literal _ => 2
  | .stack _ => 3
  | .native _ => 4
  | .identifier _ => 5
  | .member _ => 6

def immediateOf : Payload → Immediate
  | .immediate value => value
  | _ => .int 0

def offsetOf : Payload → UInt32
  | .literal offset => offset
  | .stack offset => offset
  | .native id => id.index
  | .member offset => offset
  | _ => 0

def nameOf : Payload → String
  | .identifier name => name
  | _ => ""

def payloadForm : Nat → Option (Codec Payload)
  | 0 => some (constant .none)
  | 1 => some (immediate.map .immediate immediateOf)
  | 2 => some (uint32.map .literal offsetOf)
  | 3 => some (uint32.map .stack offsetOf)
  | 4 => some (uint32.map (fun index => .native ⟨index⟩) offsetOf)
  | 5 => some (text.map .identifier nameOf)
  | 6 => some (uint32.map .member offsetOf)
  | _ => none

def payload : Codec Payload := tagged payloadTag payloadForm

def position : Codec Position :=
  (uint32.pair (uint32.pair uint32)).map (fun (line, column, offset) => ⟨line, column, offset⟩)
    fun place => (place.line, place.column, place.offset)

def instruction : Codec Instruction :=
  (op.pair (ty.pair ((list ty).pair (payload.pair (int32.pair position))))).map
    (fun (op, result, operands, payload, placement, position) =>
      ⟨op, result, operands, payload, placement, position⟩)
    fun it => (it.op, it.result, it.operands, it.payload, it.placement, it.position)

-- Literals, frame size and instructions.
def program : Codec Program :=
  ((list byte).pair (uint32.pair (list instruction))).map
    (fun (literals, frameSize, instructions) => ⟨instructions.toArray, ⟨literals⟩, frameSize⟩)
    fun it => (it.literals.bytes, it.frameSize, it.instructions.toList)

end Bytecode

end Sluice

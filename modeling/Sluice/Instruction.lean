import Sluice.Decimal.Layout
import Sluice.Source
import Sluice.Text.Quoted
import Sluice.Ty.Basic

namespace Sluice

-- `unresolved` stands for a name whose binding is not chosen yet, and is never run.
inductive Op
  | unresolved
  | nop
  | loadI
  | loadL
  | load
  | copy
  | add
  | sub
  | mul
  | neg
  | tuple
  | member
  | seq
  | call
  | finish
deriving DecidableEq, Repr

namespace Op

def mnemonic : Op → String
  | .unresolved => "UNRESOLVED"
  | .nop => "NOP"
  | .loadI => "LOADI"
  | .loadL => "LOADL"
  | .load => "LOAD"
  | .copy => "COPY"
  | .add => "ADD"
  | .sub => "SUB"
  | .mul => "MUL"
  | .neg => "NEG"
  | .tuple => "TUPLE"
  | .member => "MEMBER"
  | .seq => "SEQ"
  | .call => "CALL"
  | .finish => "END"

def label : Op → String
  | .unresolved => "Unresolved"
  | .nop => "Nop"
  | .loadI => "LoadI"
  | .loadL => "LoadL"
  | .load => "Load"
  | .copy => "Copy"
  | .add => "Add"
  | .sub => "Sub"
  | .mul => "Mul"
  | .neg => "Neg"
  | .tuple => "Tuple"
  | .member => "Member"
  | .seq => "Seq"
  | .call => "Call"
  | .finish => "End"

end Op

-- A number inside of an instruction. A float is kept as its bits, so that it survives every step
-- unchanged.
inductive Immediate
  | int (value : Int64)
  | uint (value : UInt64)
  | float (bits : UInt64)
deriving DecidableEq, Repr

namespace Immediate

def floatText (bits : UInt64) : String :=
  (Decimal.Number.ofBits .double bits.toNat).text .double .exact

def text : Immediate → String
  | .int value => toString value
  | .uint value => toString value ++ "u"
  | .float bits => floatText bits

def label : Immediate → String
  | .int value => "Int(" ++ toString value ++ ")"
  | .uint value => "UInt(" ++ toString value ++ ")"
  | .float bits => "Float(" ++ floatText bits ++ ")"

end Immediate

-- The place of a native function in its library.
structure NativeId where
  index : UInt32
deriving DecidableEq, Repr

namespace NativeId

def text (id : NativeId) : String :=
  "native#" ++ toString id.index

def toBytes (id : NativeId) : Bytes :=
  Bytes.ofNat handleWidth id.index.toNat

-- A handle has its full width, and its upper half is zero.
def ofBytes? (bytes : Bytes) : Option NativeId :=
  if bytes.length = handleWidth ∧ bytes.toNat < UInt32.size then
    some ⟨UInt32.ofNat bytes.toNat⟩
  else none

end NativeId

inductive Payload
  | none
  | immediate (value : Immediate)
  | literal (offset : UInt32)
  | stack (offset : UInt32)
  | native (id : NativeId)
  | identifier (name : String)
  | member (offset : UInt32)
deriving DecidableEq, Repr

namespace Payload

-- The end of a line in a listing.
def text : Payload → String
  | .none => ""
  | .immediate value => " imm=" ++ value.text
  | .literal offset => " lit=" ++ toString offset
  | .stack offset => " frame=" ++ toString offset
  | .native id => " " ++ id.text
  | .identifier name => " '" ++ name ++ "'"
  | .member offset => " member=" ++ toString offset

-- The payload with its kind, for messages.
def label : Payload → String
  | .none => "None"
  | .immediate value => "Immediate(" ++ value.label ++ ")"
  | .literal offset => "Literal(" ++ toString offset ++ ")"
  | .stack offset => "Stack(" ++ toString offset ++ ")"
  | .native id => "Native(NativeId(" ++ toString id.index ++ "))"
  | .identifier name => "Identifier(" ++ Text.quoted name ++ ")"
  | .member offset => "Member(" ++ toString offset ++ ")"

end Payload

-- `placement` moves the place where the result is written away from the top of the stack.
structure Instruction where
  op : Op
  result : Ty
  operands : List Ty
  payload : Payload
  placement : Int32
  position : Position
deriving DecidableEq, Repr

namespace Instruction

def placeholder (name : String) (position : Position) : Instruction :=
  ⟨.unresolved, .undecided, [], .identifier name, 0, position⟩

def identifier? (instruction : Instruction) : Option String :=
  match instruction.payload with
  | .identifier name => some name
  | _ => none

def text (instruction : Instruction) : String :=
  let operands :=
    if instruction.operands = [] then ""
    else " <-" ++ String.join (instruction.operands.map fun ty => " " ++ ty.text)
  let placement :=
    if instruction.placement = 0 then "" else " @" ++ Text.signed instruction.placement.toInt
  Text.column 10 instruction.op.mnemonic ++ " " ++ instruction.result.text ++
    instruction.payload.text ++ operands ++ placement

end Instruction

end Sluice

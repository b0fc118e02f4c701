import Sluice.Machine

namespace Sluice

structure Program where
  instructions : Array Instruction
  literals : Pool
  frameSize : UInt32
deriving DecidableEq, Repr

-- Floats agree as numbers, so what is no number agrees with nothing.
def Immediate.agrees : Immediate → Immediate → Bool
  | .float left, .float right => Float.ofBits left == Float.ofBits right
  | left, right => left = right

def Payload.agrees : Payload → Payload → Bool
  | .immediate left, .immediate right => left.agrees right
  | left, right => left = right

def Instruction.agrees (left right : Instruction) : Bool :=
  left.op = right.op && left.result.same right.result &&
    left.operands.length = right.operands.length &&
    ((left.operands.zip right.operands).all fun pair => pair.1.same pair.2) &&
    left.payload.agrees right.payload && left.placement = right.placement &&
    left.position = right.position

namespace Program

-- Equality of programs, with types compared by their atoms.
def agrees (left right : Program) : Bool :=
  left.instructions.size = right.instructions.size &&
    ((left.instructions.zip right.instructions).all fun pair => pair.1.agrees pair.2) &&
    left.literals = right.literals && left.frameSize = right.frameSize

-- One line for each instruction, under a headline with the sizes.
def listing (program : Program) : String :=
  let headline := "; frame " ++ toString program.frameSize ++ " bytes, literals " ++
    toString program.literals.length ++ " bytes\n"
  headline ++ String.join (program.instructions.toList.zipIdx.map fun entry =>
    Text.padded 4 entry.2 ++ "  " ++ entry.1.text ++ "\n")

-- Every run starts with an empty stack and a frame of zeros.
def trace (program : Program) (library : Library) : List Event × Except Failure Value :=
  Machine.run program.literals library 0 (.ofFrameSize program.frameSize)
    program.instructions.toList

def run (program : Program) (library : Library) : Except Failure Value :=
  (program.trace library).2

end Program

end Sluice

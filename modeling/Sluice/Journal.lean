import Sluice.Value

namespace Sluice

inductive Event
  | compiling (tokens : Nat)
  | emitted (index : Nat) (instruction : Instruction)
  | resolved (index : Nat) (instruction : Instruction)
  | placed (index : Nat) (placement : Int32)
  | bound (index : Nat) (name : String) (offset : UInt32)
  | gathered (index : Nat) (array : Ty)
  | analyzed (instructions : Nat) (frame : UInt32)
  | executed (index : Nat) (instruction : Instruction) (stack : Bytes)
  | finished (index : Nat) (value : Value)

def Event.text : Event → String
  | .compiling tokens => "compiling " ++ toString tokens ++ " tokens"
  | .emitted index instruction => "emit    " ++ Text.padded 4 index ++ " " ++ instruction.text
  | .resolved index instruction => "resolve " ++ Text.padded 4 index ++ " " ++ instruction.text
  | .placed index placement =>
      "place   " ++ Text.padded 4 index ++ " " ++ Text.signed placement.toInt
  | .bound index name offset =>
      "bind    " ++ Text.padded 4 index ++ " '" ++ name ++ "' at frame " ++ toString offset
  | .gathered index array => "array   " ++ Text.padded 4 index ++ " " ++ array.text
  | .analyzed instructions frame =>
      "analyzed " ++ toString instructions ++ " instructions, frame of " ++ toString frame ++
        " bytes"
  | .executed index instruction stack =>
      "exec " ++ Text.padded 4 index ++ " " ++ instruction.text ++ " | stack " ++
        toString stack.length ++ " bytes: " ++ Text.hex stack
  | .finished index value =>
      "exec " ++ Text.padded 4 index ++ " END -> " ++ value.ty.text ++ " = " ++ value.text

-- Where events go: kept in memory, written to a file, or dropped. The label starts every line.
inductive Journal
  | memory (label : String)
  | file (label : String)
  | discard

namespace Journal

-- The lines that a journal holds after the events, without the times of writing.
def lines : Journal → List Event → List String
  | .memory label, events => events.map fun event => label ++ " at " ++ event.text
  | .file label, events => events.map fun event => label ++ " at " ++ event.text
  | .discard, _ => []

-- The lines that a journal gives back. What went to a file is not read again.
def dump : Journal → List Event → List String
  | .memory label, events => lines (.memory label) events
  | _, _ => []

end Journal

end Sluice

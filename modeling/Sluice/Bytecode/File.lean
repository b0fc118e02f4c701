import Sluice.Bytecode.Layout

namespace Sluice

namespace Bytecode

def magic : Bytes := [70, 76, 66, 67]

def version : UInt16 := 1

structure Header where
  version : UInt16
  timestamp : UInt64
deriving DecidableEq, Repr

inductive Flaw
  | cutHeader
  | badMagic (found : Bytes)
  | unsupportedVersion (found : UInt16)
  | badBody (fault : Codec.Fault)
  | malformedType (index : Nat) (atoms : List Atom)
deriving DecidableEq, Repr

def inBrackets (items : List String) : String :=
  "[" ++ Text.joined ", " items ++ "]"

def Flaw.message : Flaw → String
  | .cutHeader => "the header is cut short"
  | .badMagic found =>
      "not a bytecode file (magic " ++ inBrackets (found.map fun byte => toString byte) ++ ")"
  | .unsupportedVersion found =>
      "unsupported bytecode version " ++ toString found ++ " (expected " ++ toString version ++ ")"
  | .badBody _ => "malformed bytecode body"
  | .malformedType index atoms =>
      "malformed bytecode: instruction " ++ toString index ++ " has malformed type " ++
        inBrackets (atoms.map Atom.name)

def write (timestamp : UInt64) (it : Program) : Bytes :=
  magic ++ Bytes.ofNat 2 version.toNat ++ Bytes.ofNat 8 timestamp.toNat ++ program.encode it

-- The next bytes of a header.
def take (count : Nat) (bytes : Bytes) : Except Flaw (Bytes × Bytes) :=
  match bytes.split? count with
  | none => .error .cutHeader
  | some parts => .ok parts

-- The mark is checked before the version is read, and the version before the time.
def readHeader (bytes : Bytes) : Except Flaw (Header × Bytes) := do
  let (mark, rest) ← take 4 bytes
  if mark ≠ magic then .error (.badMagic mark)
  else
    let (found, rest) ← take 2 rest
    let found := UInt16.ofNat (Bytes.toNat found)
    if found ≠ version then .error (.unsupportedVersion found)
    else
      let (timestamp, rest) ← take 8 rest
      .ok (⟨found, UInt64.ofNat (Bytes.toNat timestamp)⟩, rest)

-- The first type of an instruction that is not well-formed.
def malformed? (it : Instruction) : Option Ty :=
  (it.result :: it.operands).find? fun ty => !ty.isWellFormed

def checkTypes : Nat → List Instruction → Except Flaw Unit
  | _, [] => .ok ()
  | index, it :: rest =>
      match malformed? it with
      | some ty => .error (.malformedType index ty.atoms)
      | none => checkTypes (index + 1) rest

-- Bytes behind the program are not looked at.
def read (bytes : Bytes) : Except Flaw Program := do
  let (_, rest) ← readHeader bytes
  match program.decode rest with
  | .error fault => .error (.badBody fault)
  | .ok (it, _) => do
      checkTypes 0 it.instructions.toList
      .ok it

end Bytecode

end Sluice

import Sluice.Journal
import Sluice.Library
import Sluice.Store

namespace Sluice

namespace Machine

inductive Outcome
  | running (store : Store)
  | done (value : Value)

def operandSize (instruction : Instruction) (index : Nat) : Except Failure UInt32 :=
  match instruction.operands[index]? with
  | some ty => inRange ty.size?
  | none => .error (.plain (.missingOperand instruction.op index))

def unexpectedPayload (instruction : Instruction) : Failure :=
  .plain (.unexpectedPayload instruction.payload instruction.op)

-- Pops the operands of a sign: the right one lies on top.
def popPair (store : Store) (instruction : Instruction) :
    Except Failure (Bytes × Bytes × Store) := do
  let (right, store) ← store.pop (← operandSize instruction 1)
  let (left, store) ← store.pop (← operandSize instruction 0)
  .ok (left, right, store)

def loadImmediate (store : Store) (instruction : Instruction) : Except Failure Store := do
  match instruction.payload with
  | .immediate value =>
      let first ← inRange instruction.result.atoms.head?
      store.push instruction.placement (← value.encode first)
  | .native id => store.push instruction.placement id.toBytes
  | _ => .error (unexpectedPayload instruction)

def loadLiteral (literals : Pool) (store : Store) (instruction : Instruction) (size : UInt32) :
    Except Failure Store :=
  match instruction.payload with
  | .literal offset =>
      match literals.read? offset size with
      | some bytes => store.push instruction.placement bytes
      | none => .error (.plain (.literalOutside offset (offset + size)))
  | _ => .error (unexpectedPayload instruction)

def load (store : Store) (instruction : Instruction) (size : UInt32) : Except Failure Store :=
  match instruction.payload with
  | .stack offset => do store.push instruction.placement (← store.readFrame offset size)
  | _ => .error (unexpectedPayload instruction)

-- A copy leaves the value on the stack.
def copy (store : Store) (instruction : Instruction) (size : UInt32) : Except Failure Store :=
  match instruction.payload with
  | .stack offset => do
      let (bytes, store) ← store.pop size
      (← store.writeFrame offset bytes).push instruction.placement bytes
  | _ => .error (unexpectedPayload instruction)

def arithmetic (store : Store) (instruction : Instruction) (operation : Arithmetic.Operation) :
    Except Failure Store := do
  let (left, right, store) ← popPair store instruction
  let first ← inRange instruction.result.atoms.head?
  store.push instruction.placement (← Arithmetic.binary operation first left right)

def negate (store : Store) (instruction : Instruction) : Except Failure Store := do
  let (value, store) ← store.pop (← operandSize instruction 0)
  let first ← inRange instruction.result.atoms.head?
  store.push instruction.placement (← Arithmetic.negate first value)

-- The elements lie next to each other already, so there is work only if the tuple has to move.
def tuple (store : Store) (instruction : Instruction) (size : UInt32) : Except Failure Store :=
  if instruction.placement = 0 then .ok store
  else do
    let (bytes, store) ← store.pop size
    store.push instruction.placement bytes

def member (store : Store) (instruction : Instruction) (size : UInt32) : Except Failure Store :=
  match instruction.payload with
  | .member offset => do
      let (subject, store) ← store.pop (← operandSize instruction 0)
      match subject.slice? offset.toNat size.toNat with
      | some bytes => store.push instruction.placement bytes
      | none => .error (.plain (.memberOutside offset.toNat size.toNat subject.length))
  | _ => .error (unexpectedPayload instruction)

def sequence (store : Store) (instruction : Instruction) : Except Failure Store := do
  let (_, kept, store) ← popPair store instruction
  store.push instruction.placement kept

-- Whether a handle that came from anywhere may be called: the instruction names the type of the
-- native function, and argument and result have the sizes of that type.
def fits (native : Native) (instruction : Instruction) (argument : Bytes) (size : UInt32) : Bool :=
  (instruction.operands.head?.any fun ty => ty.same native.ty) &&
    (native.ty.argument?.bind Ty.size?).map UInt32.toNat = some argument.length &&
    native.ty.result?.bind Ty.size? = some size

def call (library : Library) (store : Store) (instruction : Instruction) (size : UInt32) :
    Except Failure Store := do
  let (handle, argument, store) ← popPair store instruction
  match (NativeId.ofBytes? handle).bind library.native? with
  | none => .error (.plain (.unknownHandle handle))
  | some native =>
      if fits native instruction argument size then
        store.push instruction.placement (← inRange (native.run argument size.toNat))
      else
        .error (.plain (.nativeMismatch native.name native.ty instruction.operands.head?
          argument.length))

-- The result has to be all that is left.
def finish (store : Store) (instruction : Instruction) (size : UInt32) : Except Failure Value := do
  let (bytes, store) ← store.pop size
  let height ← store.height
  if height ≠ 0 then .error (.plain (.bytesLeftOver height))
  else .ok ⟨instruction.result, bytes⟩

def step (literals : Pool) (library : Library) (store : Store) (instruction : Instruction) :
    Except Failure Outcome := do
  let size ← inRange instruction.result.size?
  match instruction.op with
  | .unresolved => .error (.plain (.ranPlaceholder (instruction.identifier?.getD "")))
  | .nop => .ok (.running store)
  | .loadI => .running <$> loadImmediate store instruction
  | .loadL => .running <$> loadLiteral literals store instruction size
  | .load => .running <$> load store instruction size
  | .copy => .running <$> copy store instruction size
  | .add => .running <$> arithmetic store instruction .add
  | .sub => .running <$> arithmetic store instruction .sub
  | .mul => .running <$> arithmetic store instruction .mul
  | .neg => .running <$> negate store instruction
  | .tuple => .running <$> tuple store instruction size
  | .member => .running <$> member store instruction size
  | .seq => .running <$> sequence store instruction
  | .call => .running <$> call library store instruction size
  | .finish => .done <$> finish store instruction size

-- Runs the instructions from `index` on and tells what happened. An instruction that fails leaves
-- no event.
def run (literals : Pool) (library : Library) :
    Nat → Store → List Instruction → List Event × Except Failure Value
  | _, _, [] => ([], .error (.plain .endedWithoutFinish))
  | index, store, instruction :: rest =>
      match step literals library store instruction with
      | .error failure => ([], .error failure)
      | .ok (.done value) => ([.finished index value], .ok value)
      | .ok (.running store) =>
          let (events, result) := run literals library (index + 1) store rest
          (.executed index instruction store.stack :: events, result)

end Machine

end Sluice

import Sluice.Decimal.Reader
import Sluice.Journal
import Sluice.Program
import Sluice.Scopes

namespace Sluice

namespace Analysis

-- A value on the stack of the machine, with the index of the instruction that writes it. A name is
-- unresolved until a sign takes it. In `x |> f` the value comes before the function, while the
-- machine wants the handle below the argument: the value leaves a gap below itself and carries its
-- callee, whose handle is written into the gap.
inductive Pending
  | resolved (ty : Ty) (producer : Nat)
  | unresolved (producer : Nat)
  | piped (value : Ty) (callee : Pending) (producer : Nat)
deriving DecidableEq, Repr

def Pending.producer : Pending → Nat
  | .resolved _ producer => producer
  | .unresolved producer => producer
  | .piped _ _ producer => producer

-- The topmost pending value comes first.
structure State where
  instructions : Array Instruction
  pending : List Pending
  scopes : Scopes
  finished : Bool
  events : List Event

end Analysis

-- Events stay when a step fails, and the latest event comes first.
abbrev Analysis := EStateM Failure Analysis.State

namespace Analysis

def fail {α : Type} (position : Position) (problem : Problem) : Analysis α :=
  throw (.located position problem)

def defect {α : Type} (problem : Problem) : Analysis α :=
  throw (.plain problem)

def ofExcept {α : Type} (value : Except Failure α) : Analysis α :=
  match value with
  | .ok value => pure value
  | .error failure => throw failure

def sizeOf (ty : Ty) : Analysis UInt32 := ofExcept (inRange ty.size?)

def record (event : Event) : Analysis Unit :=
  modify fun state => { state with events := event :: state.events }

def push (pending : Pending) : Analysis Unit :=
  modify fun state => { state with pending := pending :: state.pending }

def pop : Analysis Pending := do
  let state ← get
  match state.pending with
  | [] => defect .missingOperands
  | top :: rest =>
      set { state with pending := rest }
      pure top

-- Appends an instruction and gives its index.
def emit (instruction : Instruction) : Analysis Nat := do
  let index := (← get).instructions.size
  record (.emitted index instruction)
  modify fun state => { state with instructions := state.instructions.push instruction }
  pure index

-- Appends an instruction whose result is the next pending value.
def produce (op : Op) (result : Ty) (operands : List Ty) (payload : Payload) (position : Position) :
    Analysis Unit := do
  let index ← emit ⟨op, result, operands, payload, 0, position⟩
  push (.resolved result index)

def instructionAt (index : Nat) : Analysis Instruction := do
  ofExcept (inRange (← get).instructions[index]?)

def replace (index : Nat) (instruction : Instruction) : Analysis Unit :=
  modify fun state =>
    { state with instructions := state.instructions.setIfInBounds index instruction }

-- The name and the place of a placeholder.
def placeholderAt (index : Nat) : Analysis (String × Position) := do
  let instruction ← instructionAt index
  match instruction.op, instruction.identifier? with
  | .unresolved, some name => pure (name, instruction.position)
  | _, _ => defect (.notPlaceholder index)

-- How a binding is brought to the stack.
def loadOf : Storage → Op × Payload
  | .stack offset => (.load, .stack offset)
  | .immediate value => (.loadI, .immediate value)
  | .pool offset => (.loadL, .literal offset)
  | .native id => (.loadI, .native id)

-- Turns a placeholder into a load of the binding. Its placement stays.
def bind (index : Nat) (binding : Binding) : Analysis Ty := do
  let instruction ← instructionAt index
  if instruction.op ≠ .unresolved then defect (.resolvedTwice index)
  else
    let (op, payload) := loadOf binding.storage
    let resolved := { instruction with op := op, payload := payload, result := binding.ty }
    replace index resolved
    record (.resolved index resolved)
    pure binding.ty

def place (index : Nat) (placement : Int32) : Analysis Unit := do
  let instruction ← instructionAt index
  if instruction.placement ≠ 0 then defect (.placedTwice index)
  else
    replace index { instruction with placement := placement }
    record (.placed index placement)

-- The type of a value that is used as it is, and its producer. A name takes its first binding.
def resolve : Pending → Analysis (Ty × Nat)
  | .resolved ty producer => pure (ty, producer)
  | .piped .. => defect .pipedOutsideCall
  | .unresolved producer => do
      let (name, position) ← placeholderAt producer
      match (← get).scopes.lookup name with
      | none => fail position (.undefinedName name)
      | some binding => pure (← bind producer binding, producer)

-- Why no binding of a name could be called.
def calleeProblem (scopes : Scopes) (name : String) (argument : Ty) : Problem :=
  match scopes.lookup name with
  | none => .undefinedName name
  | some binding =>
      if binding.ty.isFunc then .noOverload name argument else .nameNotCallable name binding.ty

-- The type of a callee. A name takes the first binding that accepts the argument.
def resolveCallee (callee : Pending) (argument : Ty) (position : Position) : Analysis Ty := do
  let pattern := Ty.func .undecided argument
  match callee with
  | .resolved ty _ =>
      if ¬ ty.isFunc then fail position (.callOfNonFunction ty)
      else if ¬ (← ofExcept (inRange (pattern.matches? ty))) then
        fail position (.argumentMismatch ty argument)
      else pure ty
  | .piped .. => defect .pipedCallee
  | .unresolved producer =>
      let (name, place) ← placeholderAt producer
      let scopes := (← get).scopes
      match scopes.lookupMatching name pattern with
      | none => fail place (calleeProblem scopes name argument)
      | some binding => bind producer binding

def call (callee : Pending) (argument : Ty) (position : Position) : Analysis Unit := do
  let ty ← resolveCallee callee argument position
  match ty.result? with
  | none => defect (.noReturnType ty)
  | some result => produce .call result [ty, argument] .none position

def append (left right : Ty) : Analysis Ty := ofExcept (inRange (left.append? right))

def number (token : Token) : Analysis Unit :=
  if token.text.contains '.' then
    match Decimal.readFloat? token.text with
    | none => fail token.position (.invalidNumber token.text)
    | some bits =>
        produce .loadI (.ofPrimitive .f64) [] (.immediate (.float bits)) token.position
  else
    match Decimal.readInteger? token.text with
    | none => fail token.position (.integerTooLarge token.text)
    | some value =>
        if Primitive.i32.least ≤ value ∧ value ≤ Primitive.i32.greatest then
          produce .loadI (.ofPrimitive .i32) [] (.immediate (.int (Int64.ofInt value)))
            token.position
        else fail token.position (.integerTooLarge token.text)

def name (token : Token) : Analysis Unit := do
  let index ← emit (.placeholder token.text token.position)
  push (.unresolved index)

-- The right side is resolved before the name is bound, so it does not see the new binding.
def assign (token : Token) : Analysis Unit := do
  let right ← pop
  let left ← pop
  let (ty, _) ← resolve right
  let ty := ty.close
  match left with
  | .unresolved target => do
      let (name, position) ← placeholderAt target
      let size ← sizeOf ty
      let (offset, scopes) := (← get).scopes.allocate size
      let scopes ← ofExcept (scopes.declare name ⟨ty, .stack offset⟩ position)
      modify fun state => { state with scopes := scopes }
      let instruction ← instructionAt target
      replace target { instruction with op := .nop, result := ty }
      record (.bound target name offset)
      produce .copy ty [ty] (.stack offset) token.position
  | _ => fail token.position .assignmentToNonName

def arithmetic (op : Op) (token : Token) : Analysis Unit := do
  let right ← pop
  let left ← pop
  let (leftTy, _) ← resolve left
  let (rightTy, _) ← resolve right
  match leftTy.numeric? with
  | some primitive =>
      if leftTy.same rightTy then
        produce op (.ofPrimitive primitive) [leftTy, rightTy] .none token.position
      else fail token.position (.operandMismatch token.shown leftTy rightTy)
  | none => fail token.position (.operandMismatch token.shown leftTy rightTy)

def negate (token : Token) : Analysis Unit := do
  let (ty, _) ← resolve (← pop)
  if ty.numeric?.isSome then produce .neg ty [ty] .none token.position
  else fail token.position (.negationMismatch ty)

def tuple (token : Token) : Analysis Unit := do
  let right ← pop
  let left ← pop
  let (leftTy, _) ← resolve left
  let (rightTy, _) ← resolve right
  produce .tuple (← append leftTy rightTy) [leftTy, rightTy] .none token.position

-- A juxtaposition, or the argument behind a pipe, which joins the piped value.
def applied (token : Token) : Analysis Unit := do
  let argument ← pop
  let left ← pop
  let (argumentTy, _) ← resolve argument
  match left with
  | .piped value callee _ => call callee (← append value argumentTy) token.position
  | callee => call callee argumentTy token.position

-- A pipe without an argument behind it.
def completed (token : Token) : Analysis Unit := do
  match ← pop with
  | .piped value callee _ => call callee value token.position
  | _ => defect .appliedUnpiped

def pipe : Analysis Unit := do
  let callee ← pop
  let value ← pop
  let (ty, producer) ← resolve value
  let handle := Int32.ofNat handleWidth
  place producer handle
  place callee.producer (-((← sizeOf ty).toInt32 + handle))
  push (.piped ty callee producer)

def member (token : Token) : Analysis Unit := do
  let field ← pop
  let subject ← pop
  match field with
  | .unresolved target => do
      let (name, _) ← placeholderAt target
      let (ty, _) ← resolve subject
      match if ty.isTuple then ty.member? name else none with
      | none => fail token.position (.unknownMember ty name)
      | some row =>
          replace target { (← instructionAt target) with op := .nop }
          let inner ← ofExcept (inRange (Ty.inner? ty.atoms row.index.toNat))
          produce .member inner [ty] (.member row.offset) token.position
  | _ => defect .memberWithoutName

-- Brackets close a tuple. A name in brackets stays a name.
def group : Analysis Unit := do
  match ← pop with
  | .resolved ty producer => push (.resolved ty.close producer)
  | .unresolved producer => push (.unresolved producer)
  | .piped .. => defect .groupedPipe

-- The type of the elements and their number. Only an open tuple has more than one.
def elementsOf (ty : Ty) (position : Position) : Analysis (Ty × Nat) := do
  if ty.isTuple && !ty.isClosed then
    match ← ofExcept (inRange ty.elements?) with
    | [] => defect .outOfRange
    | first :: rest =>
        match rest.zipIdx.find? fun entry => !entry.1.same first with
        | some (other, index) => fail position (.mixedElements (index + 2) other first)
        | none => pure (first, rest.length + 1)
  else pure (ty, 1)

-- An array lies in memory like the tuple of its elements, so no instruction is needed.
def array (token : Token) : Analysis Unit := do
  let (ty, producer) ← resolve (← pop)
  let (element, count) ← elementsOf ty token.position
  let whole := Ty.array element (UInt32.ofNat count)
  record (.gathered producer whole)
  push (.resolved whole producer)

def sequence (token : Token) : Analysis Unit := do
  let right ← pop
  let left ← pop
  let (leftTy, _) ← resolve left
  let (rightTy, _) ← resolve right
  produce .seq rightTy [leftTy, rightTy] .none token.position

def blockBegin : Analysis Unit :=
  modify fun state => { state with scopes := state.scopes.enter }

-- The value of a block is resolved while the names of the block can be seen.
def blockEnd : Analysis Unit := do
  let (ty, producer) ← resolve (← pop)
  let scopes ← ofExcept (← get).scopes.leave
  modify fun state => { state with scopes := scopes }
  push (.resolved ty.close producer)

def finish (token : Token) : Analysis Unit := do
  let (ty, _) ← resolve (← pop)
  let state ← get
  if state.pending ≠ [] then defect (.valuesLeftOver state.pending.length)
  else if state.scopes.depth ≠ 1 then defect .unbalancedScopes
  else
    let _ ← emit ⟨.finish, ty, [ty], .none, 0, token.position⟩
    modify fun state => { state with finished := true }

def handle (token : Token) : Analysis Unit :=
  match token.kind, token.arity with
  | .number, .nullary => number token
  | .name, .nullary => name token
  | .assign, .binary => assign token
  | .plus, .binary => arithmetic .add token
  | .minus, .binary => arithmetic .sub token
  | .star, .binary => arithmetic .mul token
  | .minus, .rightUnary => negate token
  | .comma, .binary => tuple token
  | .call, .binary => applied token
  | .call, .leftUnary => completed token
  | .pipe, .binary => pipe
  | .member, .binary => member token
  | .group, .leftUnary => group
  | .array, .leftUnary => array token
  | .sequence, .binary => sequence token
  | .blockBegin, .nullary => blockBegin
  | .blockEnd, .leftUnary => blockEnd
  | .finish, .leftUnary => finish token
  | kind, arity => defect (.unexpectedToken kind arity)

def handleAll : List Token → Analysis Unit
  | [] => do if ¬ (← get).finished then defect .missingEnd
  | token :: rest => do
      if (← get).finished then defect (.tokenAfterEnd token.shown)
      else
        handle token
        handleAll rest

-- The whole program, recorded as complete.
def program (literals : Pool) (tokens : List Token) : Analysis Program := do
  handleAll tokens
  let state ← get
  record (.analyzed state.instructions.size state.scopes.frameSize)
  pure ⟨state.instructions, literals, state.scopes.frameSize⟩

-- Compiles tokens against a library, and tells the events in the order in which they happened.
def compile (library : Library) (tokens : List Token) : List Event × Except Failure Program :=
  match Scopes.ofLibrary library with
  | .error failure => ([], .error failure)
  | .ok (scopes, literals) =>
      match (program literals tokens).run ⟨#[], [], scopes, false, []⟩ with
      | .ok result state => (state.events.reverse, .ok result)
      | .error failure state => (state.events.reverse, .error failure)

end Analysis

end Sluice

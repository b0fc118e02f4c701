import Mathlib
import Sluice.Proofs.Occurrences
import Sluice.Proofs.Patterns

namespace Sluice

instance : DecidableEq Tree := fun _ _ => decidable_of_iff _ Tree.atoms_inj

-- The tree of a type that has one.
def Ty.tree (ty : Ty) : Tree := ty.tree?.getD (.tuple [])

structure Datum where
  tree : Tree
  bytes : Bytes
deriving DecidableEq

-- Named values in the order of their declaration, the innermost scope first.
abbrev Env := List (List (String × Datum))

def Tree.numeric? : Tree → Option Primitive
  | .prim primitive => if primitive.isNumeric then some primitive else none
  | _ => none

-- Functions of exactly this argument.
def Tree.accepts (argument : Tree) : Tree → Bool
  | .func _ wanted => wanted = argument
  | _ => false

namespace Env

-- The first value of the innermost scope that has one.
def lookup (env : Env) (name : String) : Option Datum :=
  env.findSome? fun level => (level.find? fun entry => entry.1 = name).map Prod.snd

-- The first function that takes the argument. An inner scope is searched completely before the one
-- around it.
def overload (env : Env) (name : String) (argument : Tree) : Option Datum :=
  env.findSome? fun level =>
    (level.find? fun entry => entry.1 = name && argument.accepts entry.2.tree).map Prod.snd

-- A scope has one value for a name and a type.
def declare (env : Env) (name : String) (datum : Datum) : Option Env :=
  match env with
  | [] => none
  | level :: outer =>
      if level.any fun entry => entry.1 = name && entry.2.tree = datum.tree then none
      else some ((level ++ [(name, datum)]) :: outer)

end Env

namespace Datum

def literal? (text : String) : Option Datum :=
  if text.contains '.' then
    (Decimal.readFloat? text).map fun bits => ⟨.prim .f64, Bytes.ofNat 8 bits.toNat⟩
  else
    (Decimal.readInteger? text).bind fun value =>
      if Primitive.i32.least ≤ value ∧ value ≤ Primitive.i32.greatest then
        some ⟨.prim .i32, Bytes.ofInt 4 value⟩
      else none

-- Two numbers of one type.
def arithmetic? (operation : Arithmetic.Operation) (left right : Datum) : Option Datum := do
  let primitive ← left.tree.numeric?
  if left.tree = right.tree then
    let bytes ← (Arithmetic.binary operation (.prim primitive) left.bytes right.bytes).toOption
    some ⟨left.tree, bytes⟩
  else none

def negate? (value : Datum) : Option Datum := do
  let primitive ← value.tree.numeric?
  let bytes ← (Arithmetic.negate (.prim primitive) value.bytes).toOption
  some ⟨value.tree, bytes⟩

def join (isOpen : Bool) (left right : Datum) : Datum :=
  ⟨Ty.joined isOpen left.tree right.tree, left.bytes ++ right.bytes⟩

-- A sign between two values. Assignments and calls are no such signs.
def sign? : Operator → Bool → Datum → Datum → Option Datum
  | .sequence, _, _, right => some right
  | .comma, isOpen, left, right => some (left.join isOpen right)
  | .plus, _, left, right => left.arithmetic? .add right
  | .minus, _, left, right => left.arithmetic? .sub right
  | .star, _, left, right => left.arithmetic? .mul right
  | .assign, _, _, _ => none
  | .call, _, _, _ => none

end Datum

-- The element with a member name, and the bytes in front of it.
def Tree.named : Nat → Nat → List Tree → String → Option (Nat × Tree)
  | _, _, [], _ => none
  | position, offset, tree :: rest, name =>
      if Ty.memberName position = name then some (offset, tree)
      else named (position + 1) (offset + tree.size) rest name

namespace Datum

def member? (name : String) (subject : Datum) : Option Datum :=
  match subject.tree with
  | .tuple elements =>
      (Tree.named 1 0 elements name).map fun found =>
        ⟨found.2, (subject.bytes.drop found.1).take found.2.size⟩
  | _ => none

-- Only the elements of an open tuple become the elements of an array.
def array? (isOpen : Bool) (value : Datum) : Option Datum :=
  if isOpen then
    match value.tree with
    | .tuple (first :: rest) =>
        if rest.all (· = first) then
          some ⟨.array first (UInt32.ofNat (rest.length + 1)), value.bytes⟩
        else none
    | _ => none
  else some ⟨.array value.tree 1, value.bytes⟩

end Datum

-- What is called: a name that has overloads, or any other value.
inductive Callee
  | named (name : String)
  | value (datum : Datum)

-- The function that takes the argument.
def Callee.select (env : Env) (argument : Tree) : Callee → Option Datum
  | .named name => env.overload name argument
  | .value datum => if argument.accepts datum.tree then some datum else none

namespace Library

-- The handle of a function has to be that of a native function of the same type.
def invoke? (library : Library) (callee argument : Datum) : Option Datum :=
  match callee.tree, (NativeId.ofBytes? callee.bytes).bind library.native? with
  | .func result _, some native =>
      if native.ty.tree = callee.tree then
        (native.run argument.bytes result.size).map (⟨result, ·⟩)
      else none
  | _, _ => none

def call? (library : Library) (env : Env) (argument : Datum) (callee : Callee) : Option Datum := do
  library.invoke? (← callee.select env argument.tree) argument

-- The outermost scope: functions with their handles, then constants.
def env (library : Library) : Env :=
  [(library.handles.map fun entry => (entry.2.name, ⟨entry.2.ty.tree, entry.1.toBytes⟩)) ++
    library.constants.map fun constant => (constant.name, ⟨constant.ty.tree, constant.bytes⟩)]

end Library

namespace Expr

-- A comma may still add to the value. Brackets put an end to that.
def isOpen : Expr → Bool
  | .binary .comma _ _ _ => true
  | .binary .sequence _ right _ => right.isOpen
  | _ => false

-- An expression in the place of a function. A name waits for its argument.
def called (expr : Expr) (env : Env) (value : Option (Datum × Env)) : Option (Callee × Env) :=
  match expr.bare? with
  | some (text, _) => some (.named text, env)
  | none => value.map fun found => (.value found.1, found.2)

-- The value of an expression and the scopes behind it. A block has a scope of its own.
def eval (library : Library) : Expr → Env → Option (Datum × Env)
  | .number text _, env => (Datum.literal? text).map (·, env)
  | .name text _, env => (env.lookup text).map (·, env)
  | .negate operand _, env => do
      let (value, env) ← operand.eval library env
      value.negate?.map (·, env)
  | .binary .assign target right _, env => do
      let (text, _) ← target.bare?
      let (value, env) ← right.eval library env
      (env.declare text value).map (value, ·)
  | .binary .call callee argument _, env => do
      let (callee, env) ← callee.called env (callee.eval library env)
      let (argument, env) ← argument.eval library env
      (library.call? env argument callee).map (·, env)
  | .binary operator left right _, env => do
      let (first, env) ← left.eval library env
      let (second, env) ← right.eval library env
      (Datum.sign? operator left.isOpen first second).map (·, env)
  | .pipe value callee _, env => do
      let (first, env) ← value.eval library env
      let (callee, env) ← callee.called env (callee.eval library env)
      (library.call? env first callee).map (·, env)
  | .pipeWith value callee argument _, env => do
      let (first, env) ← value.eval library env
      let (callee, env) ← callee.called env (callee.eval library env)
      let (second, env) ← argument.eval library env
      (library.call? env (first.join value.isOpen second) callee).map (·, env)
  | .member subject field _, env => do
      let (value, env) ← subject.eval library env
      (value.member? field).map (·, env)
  | .bracketed .round inner _ _, env => inner.eval library env
  | .bracketed .square inner _ _, env => do
      let (value, env) ← inner.eval library env
      (value.array? inner.isOpen).map (·, env)
  | .bracketed .curly inner _ _, env =>
      (inner.eval library ([] :: env)).map fun found => (found.1, env)

-- Assignments stand only where nothing to their left still waits for its sign: as a whole program
-- or block, as a part of a sequence, and behind another assignment. A name does not stand alone in
-- front of a semicolon.
def orderly : Bool → Expr → Bool
  | _, .number _ _ => true
  | _, .name _ _ => true
  | _, .negate operand _ => operand.orderly false
  | assigns, .binary .assign target right _ =>
      assigns && target.bare?.isSome && right.orderly true
  | assigns, .binary .sequence left right _ =>
      left.bare?.isNone && left.orderly assigns && right.orderly assigns
  | _, .binary _ left right _ => left.orderly false && right.orderly false
  | _, .pipe value callee _ => value.orderly false && callee.orderly false
  | _, .pipeWith value callee argument _ =>
      value.orderly false && callee.orderly false && argument.orderly false
  | _, .member subject _ _ => subject.orderly false
  | assigns, .bracketed .round inner _ _ => inner.orderly assigns
  | _, .bracketed .square inner _ _ => inner.orderly false
  | _, .bracketed .curly inner _ _ => inner.orderly true

end Expr

end Sluice

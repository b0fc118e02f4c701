import Sluice.Library

namespace Sluice

-- Where the value of a name is found.
inductive Storage
  | stack (offset : UInt32)
  | immediate (value : Immediate)
  | pool (offset : UInt32)
  | native (id : NativeId)
deriving DecidableEq, Repr

structure Binding where
  ty : Ty
  storage : Storage
deriving DecidableEq, Repr

-- Bindings in the order of their declaration.
structure Scope where
  bindings : List (String × Binding)
  frame : Frame
deriving DecidableEq, Repr

def Scope.overloads (scope : Scope) (name : String) : List Binding :=
  (scope.bindings.filter fun entry => entry.1 = name).map Prod.snd

-- The current scope, the scopes around it from the inside out, and the most frame bytes that were
-- in use so far.
structure Scopes where
  current : Scope
  outer : List Scope
  frameSize : UInt32
deriving DecidableEq, Repr

namespace Scopes

def empty : Scopes := ⟨⟨[], ⟨0⟩⟩, [], 0⟩

def chain (scopes : Scopes) : List Scope :=
  scopes.current :: scopes.outer

def depth (scopes : Scopes) : Nat := scopes.chain.length

def declare (scopes : Scopes) (name : String) (binding : Binding) (position : Position) :
    Except Failure Scopes :=
  match (scopes.current.overloads name).find? fun other => other.ty.same binding.ty with
  | some other => .error (.located position (.alreadyBound name other.ty))
  | none =>
      let bindings := scopes.current.bindings ++ [(name, binding)]
      .ok { scopes with current := { scopes.current with bindings := bindings } }

-- The first binding of the innermost scope that has one.
def lookup (scopes : Scopes) (name : String) : Option Binding :=
  scopes.chain.findSome? fun scope => (scope.overloads name).head?

-- The first binding whose type fits the pattern. An inner scope is searched completely before the
-- one around it.
def lookupMatching (scopes : Scopes) (name : String) (pattern : Ty) : Option Binding :=
  scopes.chain.findSome? fun scope =>
    (scope.overloads name).find? fun binding => pattern.matches? binding.ty = some true

-- The frame of a block continues that of the scope around it.
def enter (scopes : Scopes) : Scopes :=
  { scopes with current := ⟨[], scopes.current.frame⟩, outer := scopes.chain }

def leave (scopes : Scopes) : Except Failure Scopes :=
  match scopes.outer with
  | [] => .error (.plain .leavingRoot)
  | scope :: outer => .ok { scopes with current := scope, outer := outer }

-- Frame bytes for a named value of the current scope.
def allocate (scopes : Scopes) (size : UInt32) : UInt32 × Scopes :=
  let (offset, frame) := scopes.current.frame.allocate size
  (offset, { scopes with
    current := { scopes.current with frame := frame }
    frameSize := max scopes.frameSize frame.offset })

def declareNative (scopes : Scopes) (entry : NativeId × Native) : Except Failure Scopes :=
  scopes.declare entry.2.name ⟨entry.2.ty, .native entry.1⟩ .start

def declareConstant (state : Scopes × Pool) (constant : Constant) :
    Except Failure (Scopes × Pool) := do
  let (offset, pool) ← state.2.pushTyped constant.ty constant.bytes
  let scopes ← state.1.declare constant.name ⟨constant.ty, .pool offset⟩ .start
  .ok (scopes, pool)

-- A root scope with everything that a library offers, and the pool with its constants.
def ofLibrary (library : Library) : Except Failure (Scopes × Pool) := do
  let scopes ← library.handles.foldlM declareNative empty
  library.constants.foldlM declareConstant (scopes, Pool.empty)

end Scopes

end Sluice

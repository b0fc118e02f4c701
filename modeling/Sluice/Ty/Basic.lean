import Sluice.Ty.Matching
import Sluice.Ty.Outline

namespace Sluice

-- An element of a tuple: its name, the place of its first atom and the offset of its bytes.
structure Member where
  name : String
  index : UInt64
  offset : UInt32
deriving DecidableEq, Repr

-- A comma adds to a tuple as long as that is not closed.
structure Ty where
  atoms : List Atom
  members : List Member
  isClosed : Bool
deriving DecidableEq, Repr

namespace Ty

def memberName (position : Nat) : String :=
  "_" ++ toString position

-- Members from `position` on, for parts whose atoms start at `index` and whose bytes at `offset`.
def memberRows : Nat → Nat → Nat → List Skeleton → Option (List Member)
  | _, _, _, [] => some []
  | position, index, offset, part :: rest =>
      match part.size? with
      | none => none
      | some size =>
          (memberRows (position + 1) (index + part.atoms.length) (offset + size) rest).map
            (⟨memberName position, UInt64.ofNat index, UInt32.ofNat offset⟩ :: ·)

-- The member table of a tuple, read off its atoms.
def memberTable? (atoms : List Atom) : Option (List Member) :=
  match Skeleton.read? atoms with
  | some (.tuple parts, _) => memberRows 1 1 0 parts
  | _ => none

def startsWith (atom : Atom) (atoms : List Atom) : Bool :=
  atoms.head? = some atom

-- A closed type, with the members indexed if it is a tuple.
def ofAtoms (atoms : List Atom) : Ty :=
  ⟨atoms, if startsWith .tuple atoms then (memberTable? atoms).getD [] else [], true⟩

def ofPrimitive (primitive : Primitive) : Ty :=
  ⟨[.prim primitive], [], true⟩

def undecided : Ty := ofPrimitive .undecided

def tuple (elements : List Ty) : Ty :=
  ofAtoms (.tuple :: (elements.flatMap Ty.atoms ++ [.close]))

def array (element : Ty) (count : UInt32) : Ty :=
  ofAtoms (.array :: (element.atoms ++ [.count count]))

def func (result argument : Ty) : Ty :=
  ofAtoms (.func :: (result.atoms ++ argument.atoms ++ [.close]))

-- Two types are the same if their atoms are. The table follows from the atoms, and the mark only
-- matters while a tuple is built.
def same (left right : Ty) : Bool :=
  left.atoms = right.atoms

-- One type of each kind, in the order of their first appearance.
def distinct (types : List Ty) : List Ty :=
  types.foldl (fun found ty => if found.any ty.same then found else found ++ [ty]) []

def isTuple (ty : Ty) : Bool := startsWith .tuple ty.atoms

def isFunc (ty : Ty) : Bool := startsWith .func ty.atoms

-- The numeric primitive that is the whole type.
def numeric? (ty : Ty) : Option Primitive :=
  match ty.atoms with
  | [.prim primitive] => if primitive.isNumeric then some primitive else none
  | _ => none

def tree? (ty : Ty) : Option Tree := Atom.tree? ty.atoms

def size? (ty : Ty) : Option UInt32 := Atom.size? ty.atoms

-- The widest primitive of the type.
def alignment (ty : Ty) : Nat :=
  ty.atoms.foldl (fun widest atom => max widest atom.alignment) 1

-- A type is well-formed if its atoms are those of one type and its table is the one they determine.
def isWellFormed (ty : Ty) : Bool :=
  Atom.typeEnd? ty.atoms 0 = some ty.atoms.length &&
    if ty.isTuple then memberTable? ty.atoms = some ty.members else ty.members = []

def text (ty : Ty) : String :=
  match Atom.outline? ty.atoms with
  | some tree => tree.text
  | none => ""

def close (ty : Ty) : Ty := { ty with isClosed := true }

-- The part that starts at `index`, as a type of its own.
def inner? (atoms : List Atom) (index : Nat) : Option Ty :=
  (Skeleton.read? (atoms.drop index)).map fun found => ofAtoms found.1.atoms

def member? (ty : Ty) (name : String) : Option Member :=
  ty.members.find? (·.name = name)

-- The elements of a tuple in order, found through the member table.
def elements? (ty : Ty) : Option (List Ty) :=
  ty.members.mapM fun member => inner? ty.atoms member.index.toNat

def result? (ty : Ty) : Option Ty :=
  if ty.isFunc then inner? ty.atoms 1 else none

def argument? (ty : Ty) : Option Ty :=
  if ty.isFunc then (Atom.endOf? ty.atoms 1).bind (inner? ty.atoms) else none

def matches? (pattern candidate : Ty) : Option Bool :=
  Atom.matches? pattern.atoms candidate.atoms

-- A comma. An open tuple on the left gets one more element; anything else on the left becomes the
-- first of two. The right side is always one element, and the outcome stays open.
def append? (left right : Ty) : Option Ty :=
  left.size?.map fun size =>
    let isOpen := left.isTuple && !left.isClosed
    let atoms := if isOpen then left.atoms.dropLast else .tuple :: left.atoms
    let members := if isOpen then left.members else [⟨memberName 1, 1, 0⟩]
    let added : Member := ⟨memberName (members.length + 1), UInt64.ofNat atoms.length, size⟩
    ⟨atoms ++ right.atoms ++ [.close], members ++ [added], false⟩

end Ty

end Sluice

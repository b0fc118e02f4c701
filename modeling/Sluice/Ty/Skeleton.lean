import Sluice.Ty.Tree

namespace Sluice

-- The brackets of an atom sequence, read without asking whether it makes a type. An array takes the
-- next part and one atom behind it, which is missing where the sequence ends there.
inductive Skeleton
  | leaf (atom : Atom)
  | tuple (parts : List Skeleton)
  | func (parts : List Skeleton)
  | array (element : Skeleton) (last : Option Atom)

namespace Skeleton

-- A part that has begun and is not complete yet. Its parts so far stand in reverse order.
inductive Open
  | tuple (parts : List Skeleton)
  | func (parts : List Skeleton)
  | array
  | element (part : Skeleton)

-- Hands a complete part to the innermost open one. Without an open part the reading is over.
def hand (part : Skeleton) : List Open → Skeleton ⊕ List Open
  | .tuple parts :: outer => .inr (.tuple (part :: parts) :: outer)
  | .func parts :: outer => .inr (.func (part :: parts) :: outer)
  | .array :: outer => .inr (.element part :: outer)
  | _ => .inl part

-- An atom where a part may begin.
def start (atom : Atom) (outer : List Open) : Skeleton ⊕ List Open :=
  match atom with
  | .tuple => .inr (.tuple [] :: outer)
  | .func => .inr (.func [] :: outer)
  | .array => .inr (.array :: outer)
  | atom => hand (.leaf atom) outer

-- One atom, in front of the open parts.
def accept (atom : Atom) : List Open → Skeleton ⊕ List Open
  | .element part :: outer => hand (.array part (some atom)) outer
  | .tuple parts :: outer =>
      if atom = .close then hand (.tuple parts.reverse) outer
      else start atom (.tuple parts :: outer)
  | .func parts :: outer =>
      if atom = .close then hand (.func parts.reverse) outer
      else start atom (.func parts :: outer)
  | outer => start atom outer

-- Ends the arrays around a part when no atoms are left.
def endArrays (part : Skeleton) : List Open → Option Skeleton
  | [] => some part
  | .array :: outer => endArrays (.array part none) outer
  | _ => none

-- Reads until the outermost part is complete. `none` means that the atoms end before that.
def readFrom : List Open → List Atom → Option (Skeleton × List Atom)
  | .element part :: outer, [] => (endArrays (.array part none) outer).map fun whole => (whole, [])
  | _, [] => none
  | outer, atom :: rest =>
      match accept atom outer with
      | .inl part => some (part, rest)
      | .inr outer => readFrom outer rest

-- The first part of a sequence and what follows it.
def read? (atoms : List Atom) : Option (Skeleton × List Atom) :=
  readFrom [] atoms

-- How many atoms are missing at the end.
def missing : Skeleton → Nat
  | .array element none => element.missing + 1
  | _ => 0

mutual

def atoms : Skeleton → List Atom
  | .leaf atom => [atom]
  | .tuple parts => .tuple :: (atomsAll parts ++ [.close])
  | .func parts => .func :: (atomsAll parts ++ [.close])
  | .array element last => .array :: (element.atoms ++ last.toList)

def atomsAll : List Skeleton → List Atom
  | [] => []
  | part :: rest => part.atoms ++ atomsAll rest

end

mutual

-- The tree, if the brackets are those of a type: a function has a result and an argument, and an
-- array has a count.
def tree? : Skeleton → Option Tree
  | .leaf (.prim primitive) => some (.prim primitive)
  | .leaf _ => none
  | .tuple parts => (treeAll? parts).map .tuple
  | .func parts =>
      match treeAll? parts with
      | some [result, argument] => some (.func result argument)
      | _ => none
  | .array element (some (.count count)) => element.tree?.map fun tree => .array tree count
  | .array _ _ => none

def treeAll? : List Skeleton → Option (List Tree)
  | [] => some []
  | part :: rest =>
      match part.tree?, treeAll? rest with
      | some tree, some trees => some (tree :: trees)
      | _, _ => none

end

mutual

-- The exact number of bytes. A function is its handle, whatever stands inside of it.
def size? : Skeleton → Option Nat
  | .leaf (.prim primitive) => some primitive.width
  | .leaf _ => none
  | .tuple parts => sizeAll? parts
  | .func _ => some handleWidth
  | .array element (some (.count count)) => element.size?.map (· * count.toNat)
  | .array _ _ => none

def sizeAll? : List Skeleton → Option Nat
  | [] => some 0
  | part :: rest =>
      match part.size?, sizeAll? rest with
      | some size, some sizes => some (size + sizes)
      | _, _ => none

end

end Skeleton

namespace Atom

-- Where the part that starts at `index` ends. Missing atoms count as well, so the end may lie
-- behind that of the sequence.
def endOf? (atoms : List Atom) (index : Nat) : Option Nat :=
  (Skeleton.read? (atoms.drop index)).map fun found =>
    atoms.length - found.2.length + found.1.missing

-- Where the part that starts at `index` ends, provided that it is a type.
def typeEnd? (atoms : List Atom) (index : Nat) : Option Nat :=
  match Skeleton.read? (atoms.drop index) with
  | none => none
  | some (part, rest) => part.tree?.map fun _ => atoms.length - rest.length

-- The exact size of the first part.
def exactSize? (atoms : List Atom) : Option Nat :=
  (Skeleton.read? atoms).bind fun found => found.1.size?

-- Sizes are kept in 32 bits.
def size? (atoms : List Atom) : Option UInt32 :=
  (exactSize? atoms).map UInt32.ofNat

-- The tree of the whole sequence, if it is that of one type.
def tree? (atoms : List Atom) : Option Tree :=
  match Skeleton.read? atoms with
  | some (part, []) => part.tree?
  | _ => none

end Atom

end Sluice

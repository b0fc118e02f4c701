import Sluice.Ty.Skeleton

namespace Sluice.Atom

mutual

-- The tree at the front and the atoms behind it. A function is two parts and one more atom, whatever
-- that atom is, and its argument starts where the brackets of its result end. Every level takes one
-- unit of `fuel`.
def outlineWithin : Nat → List Atom → Option (Tree × List Atom)
  | _ + 1, .prim primitive :: rest => some (.prim primitive, rest)
  | fuel + 1, .tuple :: rest =>
      (outlinesWithin fuel rest).map fun found => (.tuple found.1, found.2)
  | fuel + 1, .array :: rest =>
      match outlineWithin fuel rest with
      | some (element, .count elements :: rest) => some (.array element elements, rest)
      | _ => none
  | fuel + 1, .func :: rest =>
      match Skeleton.read? rest with
      | none => none
      | some (_, behind) =>
          match outlineWithin fuel rest, outlineWithin fuel behind with
          | some (result, _), some (argument, rest) => some (.func result argument, rest.drop 1)
          | _, _ => none
  | _, _ => none

-- Trees up to a closing atom, and the atoms behind that.
def outlinesWithin : Nat → List Atom → Option (List Tree × List Atom)
  | 0, _ => none
  | fuel + 1, atoms =>
      if atoms.head? = some .close then some ([], atoms.drop 1)
      else match outlineWithin fuel atoms with
        | none => none
        | some (tree, rest) =>
            (outlinesWithin fuel rest).map fun found => (tree :: found.1, found.2)

end

-- A level of each kind for every atom is enough.
def outline? (atoms : List Atom) : Option Tree :=
  (outlineWithin (2 * atoms.length) atoms).map Prod.fst

end Sluice.Atom

import Sluice.Ty.Skeleton

namespace Sluice.Atom

inductive Mismatch
  | different
  | outOfRange
deriving DecidableEq, Repr

-- What the innermost open part of the pattern waits for.
inductive Awaited
  | close
  | element
  | count
deriving DecidableEq, Repr

-- A complete part turns an awaited element into an awaited count. `none` means that nothing is left
-- to wait for.
def settle : List Awaited → Option (List Awaited)
  | [] => none
  | .element :: outer => some (.count :: outer)
  | outer => some outer

-- The beginning of a part of the pattern: the parts still open after it, and the rest of the
-- candidate. A wildcard takes a part of the candidate, and all of that part has to be there.
def matchPart (outer : List Awaited) (wanted : Atom) (candidate : List Atom) :
    Except Mismatch (Option (List Awaited) × List Atom) :=
  if wanted = .prim .undecided then
    match Skeleton.read? candidate with
    | none => .error .outOfRange
    | some (part, rest) =>
        if part.missing = 0 then .ok (settle outer, rest) else .error .different
  else match candidate with
    | [] => .error .outOfRange
    | found :: rest =>
        if wanted ≠ found then .error .different
        else match wanted with
          | .tuple | .func => .ok (some (.close :: outer), rest)
          | .array => .ok (some (.element :: outer), rest)
          | _ => .ok (settle outer, rest)

-- One atom of the pattern, in front of its open parts.
def matchAtom (awaited : List Awaited) (wanted : Atom) (candidate : List Atom) :
    Except Mismatch (Option (List Awaited) × List Atom) :=
  match awaited, candidate with
  | .close :: outer, found :: rest =>
      if wanted = .close ∨ found = .close then
        if wanted = found then .ok (settle outer, rest) else .error .different
      else matchPart (.close :: outer) wanted (found :: rest)
  | .count :: outer, found :: rest =>
      if wanted = found then .ok (settle outer, rest) else .error .different
  | .close :: _, [] => .error .outOfRange
  | .count :: _, [] => .error .outOfRange
  | outer, candidate => matchPart outer wanted candidate

-- Walks both sequences until the first part of the pattern is complete, and gives what follows it
-- on both sides.
def matchFrom : List Awaited → List Atom → List Atom → Except Mismatch (List Atom × List Atom)
  | _, [], _ => .error .outOfRange
  | awaited, wanted :: pattern, candidate =>
      match matchAtom awaited wanted candidate with
      | .error mismatch => .error mismatch
      | .ok (none, rest) => .ok (pattern, rest)
      | .ok (some awaited, rest) => matchFrom awaited pattern rest

-- Both sequences have to be used up. `none` means that one of them ends inside of a part.
def matches? (pattern candidate : List Atom) : Option Bool :=
  if pattern = [] ∨ candidate = [] then some (pattern = [] ∧ candidate = [])
  else match matchFrom [] pattern candidate with
    | .ok (pattern, candidate) => some (pattern = [] ∧ candidate = [])
    | .error .different => some false
    | .error .outOfRange => none

end Sluice.Atom

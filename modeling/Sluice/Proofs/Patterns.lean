import Mathlib
import Sluice.Proofs.Types

namespace Sluice

namespace Tree

mutual

-- Whether the second tree is the first one with a tree in the place of each wildcard.
def fits : Tree → Tree → Bool
  | .prim .undecided, _ => true
  | .prim wanted, .prim found => wanted = found
  | .tuple wanted, .tuple found => fitsAll wanted found
  | .array wanted count, .array found other => wanted.fits found && count = other
  | .func result argument, .func otherResult otherArgument =>
      result.fits otherResult && argument.fits otherArgument
  | _, _ => false

def fitsAll : List Tree → List Tree → Bool
  | [], [] => true
  | wanted :: rest, found :: others => wanted.fits found && fitsAll rest others
  | _, _ => false

end

mutual

-- No wildcard occurs in the tree.
def isDecided : Tree → Bool
  | .prim primitive => primitive ≠ .undecided
  | .tuple elements => areDecided elements
  | .array element _ => element.isDecided
  | .func result argument => result.isDecided && argument.isDecided

def areDecided : List Tree → Bool
  | [] => true
  | tree :: rest => tree.isDecided && areDecided rest

end

mutual

theorem isDecided_iff (tree : Tree) : tree.isDecided = true ↔ .prim .undecided ∉ tree.atoms := by
  cases tree with
  | prim primitive =>
      simp only [isDecided, atoms, List.mem_singleton, Atom.prim.injEq, decide_eq_true_eq]
      exact ⟨fun h heq => h heq.symm, fun h heq => h heq.symm⟩
  | tuple elements => simp [isDecided, atoms, areDecided_iff elements]
  | array element count => simp [isDecided, atoms, isDecided_iff element]
  | func result argument =>
      simp [isDecided, atoms, isDecided_iff result, isDecided_iff argument]

theorem areDecided_iff (trees : List Tree) :
    areDecided trees = true ↔ .prim .undecided ∉ atomsAll trees := by
  cases trees with
  | nil => simp [areDecided, atomsAll]
  | cons tree rest => simp [areDecided, atomsAll, isDecided_iff tree, areDecided_iff rest]

end

mutual

-- Without wildcards only the tree itself fits.
theorem fits_iff_eq (wanted found : Tree) (h : wanted.isDecided = true) :
    wanted.fits found = true ↔ wanted = found := by
  cases wanted with
  | prim primitive =>
      have hne : primitive ≠ .undecided := by simpa [isDecided] using h
      cases found with
      | prim other => simp [fits]
      | _ => simp [fits, hne]
  | tuple elements =>
      cases found with
      | tuple others =>
          rw [isDecided] at h
          simp [fits, fitsAll_iff_eq elements others h]
      | _ => simp [fits]
  | array element count =>
      cases found with
      | array other otherCount =>
          rw [isDecided] at h
          simp [fits, fits_iff_eq element other h]
      | _ => simp [fits]
  | func result argument =>
      cases found with
      | func otherResult otherArgument =>
          rw [isDecided, Bool.and_eq_true] at h
          simp [fits, fits_iff_eq result otherResult h.1, fits_iff_eq argument otherArgument h.2]
      | _ => simp [fits]

theorem fitsAll_iff_eq (wanted found : List Tree) (h : areDecided wanted = true) :
    fitsAll wanted found = true ↔ wanted = found := by
  cases wanted with
  | nil => cases found <;> simp [fitsAll]
  | cons tree rest =>
      cases found with
      | nil => simp [fitsAll]
      | cons other others =>
          rw [areDecided, Bool.and_eq_true] at h
          simp [fitsAll, fits_iff_eq tree other h.1, fitsAll_iff_eq rest others h.2]

end

-- A pattern that leaves only the result open takes the functions of one argument type.
theorem func_fits_iff {argument : Tree} (h : argument.isDecided = true) (found : Tree) :
    (Tree.func (.prim .undecided) argument).fits found = true ↔
      ∃ result, found = .func result argument := by
  cases found with
  | func result other =>
      simp only [fits, Bool.true_and, fits_iff_eq argument other h]
      constructor
      · rintro rfl
        exact ⟨result, rfl⟩
      · rintro ⟨_, heq⟩
        cases heq
        rfl
  | _ => simp [fits]

-- The first atom of a tree tells its kind and never closes anything.
def head : Tree → Atom
  | .prim primitive => .prim primitive
  | .tuple _ => .tuple
  | .array _ _ => .array
  | .func _ _ => .func

def behind : Tree → List Atom
  | .prim _ => []
  | .tuple elements => atomsAll elements ++ [.close]
  | .array element count => element.atoms ++ [.count count]
  | .func result argument => atomsAll [result, argument] ++ [.close]

theorem atoms_eq_cons (tree : Tree) : tree.atoms = tree.head :: tree.behind := by
  cases tree <;> simp [atoms, atomsAll, head, behind]

theorem head_ne_close (tree : Tree) : tree.head ≠ .close := by
  cases tree <;> simp [head]

end Tree

namespace Atom

-- Where a part of the pattern may begin.
def Begins : List Awaited → Prop
  | .count :: _ => False
  | _ => True

-- What follows when a part of the pattern has found its match.
def proceed (awaited : List Awaited) (pattern candidate : List Atom) :
    Except Mismatch (List Atom × List Atom) :=
  match settle awaited with
  | none => .ok (pattern, candidate)
  | some awaited => matchFrom awaited pattern candidate

theorem matchFrom_cons (awaited : List Awaited) (wanted : Atom) (pattern candidate : List Atom) :
    matchFrom awaited (wanted :: pattern) candidate =
      match matchAtom awaited wanted candidate with
      | .error mismatch => .error mismatch
      | .ok (none, rest) => .ok (pattern, rest)
      | .ok (some awaited, rest) => matchFrom awaited pattern rest :=
  matchFrom.eq_2 awaited candidate wanted pattern

theorem matchAtom_of_begins {awaited : List Awaited} {wanted found : Atom} {rest : List Atom}
    (hbegins : Begins awaited) (hwanted : wanted ≠ .close) (hfound : found ≠ .close) :
    matchAtom awaited wanted (found :: rest) = matchPart awaited wanted (found :: rest) := by
  cases awaited with
  | nil => rfl
  | cons first awaited =>
      cases first with
      | close => simp [matchAtom, hwanted, hfound]
      | element => rfl
      | count => exact hbegins.elim

-- Two atoms that are no wildcards and differ.
theorem matchPart_of_ne {awaited : List Awaited} {wanted found : Atom} {rest : List Atom}
    (hwild : wanted ≠ .prim .undecided) (hne : wanted ≠ found) :
    matchPart awaited wanted (found :: rest) = .error .different := by
  simp [matchPart, hwild, hne]

theorem matchFrom_close {awaited : List Awaited} {pattern candidate : List Atom} :
    matchFrom (.close :: awaited) (.close :: pattern) (.close :: candidate) =
      proceed awaited pattern candidate := by
  simp only [matchFrom_cons, matchAtom, proceed]
  cases settle awaited <;> simp

theorem matchFrom_count {awaited : List Awaited} {pattern candidate : List Atom}
    (count other : UInt32) :
    matchFrom (.count :: awaited) (.count count :: pattern) (.count other :: candidate) =
      if count = other then proceed awaited pattern candidate else .error .different := by
  simp only [matchFrom_cons, matchAtom, proceed, Atom.count.injEq]
  by_cases h : count = other
  · cases settle awaited <;> simp [h]
  · simp [h]

mutual

theorem matchFrom_tree (wanted found : Tree) (awaited : List Awaited)
    (pattern candidate : List Atom) (hbegins : Begins awaited) :
    matchFrom awaited (wanted.atoms ++ pattern) (found.atoms ++ candidate) =
      if wanted.fits found then proceed awaited pattern candidate else .error .different := by
  have hfirst : matchFrom awaited (wanted.atoms ++ pattern) (found.atoms ++ candidate) =
      match matchPart awaited wanted.head (found.atoms ++ candidate) with
      | .error mismatch => .error mismatch
      | .ok (none, rest) => .ok (wanted.behind ++ pattern, rest)
      | .ok (some awaited, rest) => matchFrom awaited (wanted.behind ++ pattern) rest := by
    rw [wanted.atoms_eq_cons, found.atoms_eq_cons, List.cons_append, List.cons_append,
      matchFrom_cons, matchAtom_of_begins hbegins wanted.head_ne_close found.head_ne_close]
  rw [hfirst]
  -- a wildcard takes all of the tree, and any other atom has to be the first of the tree
  cases wanted with
  | prim primitive =>
      by_cases hwild : primitive = .undecided
      · subst hwild
        simp only [Tree.head, matchPart, if_true, Skeleton.read?_tree, Tree.missing_skeleton,
          Tree.fits, Tree.behind, List.nil_append, proceed]
        cases settle awaited <;> rfl
      · have hne : Atom.prim primitive ≠ .prim .undecided := by simpa using hwild
        cases found with
        | prim other =>
            by_cases heq : primitive = other
            · subst heq
              simp only [Tree.head, matchPart, hwild, Tree.atoms, List.cons_append,
                List.nil_append, Tree.behind, Tree.fits, proceed, Atom.prim.injEq, if_false,
                ne_eq, not_true_eq_false, decide_true, if_true]
              cases settle awaited <;> rfl
            · have hpair : Atom.prim primitive ≠ .prim other := by simpa using heq
              simp [Tree.head, Tree.atoms, matchPart_of_ne hne hpair, Tree.fits, heq]
        | _ => simp [Tree.head, Tree.atoms, matchPart_of_ne hne, Tree.fits, hwild]
  | tuple elements =>
      cases found with
      | tuple others =>
          simp only [Tree.head, Tree.behind, matchPart, Tree.atoms, List.cons_append,
            List.append_assoc, List.nil_append, reduceCtorEq, if_false, ne_eq, not_true_eq_false,
            Tree.fits]
          exact matchFrom_trees elements others awaited pattern candidate
      | _ => simp [Tree.head, Tree.atoms, matchPart, Tree.fits]
  | array element count =>
      cases found with
      | array other otherCount =>
          simp only [Tree.head, Tree.behind, matchPart, Tree.atoms, List.cons_append,
            List.append_assoc, List.nil_append, reduceCtorEq, if_false, ne_eq, not_true_eq_false]
          rw [matchFrom_tree element other (.element :: awaited) _ _ trivial]
          have hcount : proceed (.element :: awaited) (.count count :: pattern)
              (.count otherCount :: candidate) =
                if count = otherCount then proceed awaited pattern candidate
                else .error .different := matchFrom_count count otherCount
          rw [hcount, Tree.fits]
          by_cases hfits : element.fits other = true <;> simp [hfits]
      | _ => simp [Tree.head, Tree.atoms, matchPart, Tree.fits]
  | func result argument =>
      cases found with
      | func otherResult otherArgument =>
          simp only [Tree.head, Tree.behind, matchPart, Tree.atoms, List.cons_append,
            List.append_assoc, List.nil_append, reduceCtorEq, if_false, ne_eq, not_true_eq_false,
            Tree.fits, Tree.atomsAll]
          rw [matchFrom_tree result otherResult (.close :: awaited) _ _ trivial]
          by_cases hresult : result.fits otherResult = true
          · simp only [hresult, if_true, proceed, settle, Bool.true_and]
            rw [matchFrom_tree argument otherArgument (.close :: awaited) _ _ trivial]
            by_cases hargument : argument.fits otherArgument = true
            · simp only [hargument, if_true, proceed, settle]
              rw [matchFrom_close]
              rfl
            · simp [hargument]
          · simp [hresult]
      | _ => simp [Tree.head, Tree.atoms, matchPart, Tree.fits]

theorem matchFrom_trees (wanted found : List Tree) (awaited : List Awaited)
    (pattern candidate : List Atom) :
    matchFrom (.close :: awaited) (Tree.atomsAll wanted ++ .close :: pattern)
        (Tree.atomsAll found ++ .close :: candidate) =
      if Tree.fitsAll wanted found then proceed awaited pattern candidate
      else .error .different := by
  cases wanted with
  | nil =>
      cases found with
      | nil => simp [Tree.atomsAll, Tree.fitsAll, matchFrom_close]
      | cons other others =>
          have hne := other.head_ne_close
          simp only [Tree.atomsAll, List.nil_append, List.append_assoc, other.atoms_eq_cons,
            List.cons_append, matchFrom_cons, matchAtom, Tree.fitsAll, Bool.false_eq_true, if_false,
            true_or, if_true, Ne.symm hne]
  | cons tree rest =>
      cases found with
      | nil =>
          have hne := tree.head_ne_close
          simp only [Tree.atomsAll, List.nil_append, List.append_assoc, tree.atoms_eq_cons,
            List.cons_append, matchFrom_cons, matchAtom, Tree.fitsAll, Bool.false_eq_true, if_false,
            or_true, if_true, hne]
      | cons other others =>
          simp only [Tree.atomsAll, List.append_assoc]
          rw [matchFrom_tree tree other (.close :: awaited) _ _ trivial]
          by_cases hfits : tree.fits other = true
          · simp only [hfits, if_true, proceed, settle, Tree.fitsAll, Bool.true_and]
            rw [matchFrom_trees rest others awaited pattern candidate]
            rfl
          · simp [hfits, Tree.fitsAll]

end

end Atom

namespace Ty

theorem Describes.matches? {pattern candidate : Ty} {wanted found : Tree}
    (hpattern : pattern.Describes wanted) (hcandidate : candidate.Describes found) :
    pattern.matches? candidate = some (wanted.fits found) := by
  have hmatch := Atom.matchFrom_tree wanted found [] [] [] trivial
  simp only [List.append_nil] at hmatch
  simp only [Ty.matches?, Atom.matches?, hpattern.atoms, hcandidate.atoms, wanted.atoms_ne_nil,
    found.atoms_ne_nil, or_self, if_false, hmatch]
  by_cases hfits : wanted.fits found = true <;> simp [hfits, Atom.proceed, Atom.settle]

end Ty

end Sluice

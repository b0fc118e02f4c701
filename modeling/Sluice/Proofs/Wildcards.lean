import Mathlib
import Sluice.Proofs.Descent

namespace Sluice

namespace Tree

mutual

-- The tree with another one in the place of each wildcard. A wildcard is known by the place of its
-- atom, and the first atom of the tree stands at `index`.
def filled (chosen : Nat → Tree) : Nat → Tree → Tree
  | index, .prim primitive => if primitive = .undecided then chosen index else .prim primitive
  | index, .tuple elements => .tuple (filledAll chosen (index + 1) elements)
  | index, .array element count => .array (filled chosen (index + 1) element) count
  | index, .func result argument =>
      .func (filled chosen (index + 1) result)
        (filled chosen (index + 1 + result.atoms.length) argument)

def filledAll (chosen : Nat → Tree) : Nat → List Tree → List Tree
  | _, [] => []
  | index, tree :: rest =>
      filled chosen index tree :: filledAll chosen (index + tree.atoms.length) rest

end

-- Choices for the same places.
def Agree (first last : Nat) (chosen other : Nat → Tree) : Prop :=
  ∀ place, first ≤ place → place < last → chosen place = other place

theorem Agree.mono {first last start stop : Nat} {chosen other : Nat → Tree}
    (h : Agree first last chosen other) (hstart : first ≤ start) (hstop : stop ≤ last) :
    Agree start stop chosen other := by
  intro place hfirst hlast
  apply h place <;> omega

mutual

-- Only the places of the tree itself matter.
theorem filled_congr {chosen other : Nat → Tree} (index : Nat) (tree : Tree)
    (h : Agree index (index + tree.atoms.length) chosen other) :
    filled chosen index tree = filled other index tree := by
  cases tree with
  | prim primitive =>
      have hhere : chosen index = other index := h index (Nat.le_refl _) (by simp [atoms])
      simp only [filled, hhere]
  | tuple elements =>
      simp only [atoms, List.length_cons, List.length_append, List.length_nil] at h
      simp only [filled, filledAll_congr (index + 1) elements (h.mono (by omega) (by omega))]
  | array element count =>
      simp only [atoms, List.length_cons, List.length_append, List.length_nil] at h
      simp only [filled, filled_congr (index + 1) element (h.mono (by omega) (by omega))]
  | func result argument =>
      simp only [atoms, List.length_cons, List.length_append, List.length_nil] at h
      simp only [filled, filled_congr (index + 1) result (h.mono (by omega) (by omega)),
        filled_congr (index + 1 + result.atoms.length) argument (h.mono (by omega) (by omega))]

theorem filledAll_congr {chosen other : Nat → Tree} (index : Nat) (trees : List Tree)
    (h : Agree index (index + (atomsAll trees).length) chosen other) :
    filledAll chosen index trees = filledAll other index trees := by
  cases trees with
  | nil => rfl
  | cons tree rest =>
      simp only [atomsAll, List.length_append] at h
      simp only [filledAll, filled_congr index tree (h.mono (by omega) (by omega)),
        filledAll_congr (index + tree.atoms.length) rest (h.mono (by omega) (by omega))]

end

-- Choices in front of a place and choices behind it do not depend on each other.
theorem exists_both {limit : Nat} {P Q : (Nat → Tree) → Prop}
    (hP : ∀ chosen other, (∀ place < limit, chosen place = other place) → P chosen → P other)
    (hQ : ∀ chosen other, (∀ place, limit ≤ place → chosen place = other place) → Q chosen →
      Q other)
    (hfront : ∃ chosen, P chosen) (hback : ∃ chosen, Q chosen) : ∃ chosen, P chosen ∧ Q chosen := by
  obtain ⟨front, hfront⟩ := hfront
  obtain ⟨back, hback⟩ := hback
  refine ⟨fun place => if place < limit then front place else back place, ?_, ?_⟩
  · apply hP front _ _ hfront
    intro place hplace
    rw [if_pos hplace]
  · apply hQ back _ _ hback
    intro place hplace
    rw [if_neg (by omega)]

mutual

theorem fits_filled (chosen : Nat → Tree) (index : Nat) (tree : Tree) :
    tree.fits (filled chosen index tree) = true := by
  cases tree with
  | prim primitive =>
      by_cases hwild : primitive = .undecided
      · subst hwild
        rw [fits]
      · simp [filled, hwild, fits]
  | tuple elements =>
      rw [filled, fits]
      exact fitsAll_filledAll chosen (index + 1) elements
  | array element count =>
      rw [filled, fits, fits_filled chosen (index + 1) element]
      simp
  | func result argument =>
      rw [filled, fits, fits_filled chosen (index + 1) result,
        fits_filled chosen (index + 1 + result.atoms.length) argument]
      rfl

theorem fitsAll_filledAll (chosen : Nat → Tree) (index : Nat) (trees : List Tree) :
    fitsAll trees (filledAll chosen index trees) = true := by
  cases trees with
  | nil => rfl
  | cons tree rest =>
      rw [filledAll, fitsAll, fits_filled chosen index tree,
        fitsAll_filledAll chosen (index + tree.atoms.length) rest]
      rfl

end

mutual

theorem exists_filled (index : Nat) (wanted found : Tree) (h : wanted.fits found = true) :
    ∃ chosen, found = filled chosen index wanted := by
  cases wanted with
  | prim primitive =>
      by_cases hwild : primitive = .undecided
      · exact ⟨fun _ => found, by simp [filled, hwild]⟩
      · have hdecided : (Tree.prim primitive).isDecided = true := by simp [isDecided, hwild]
        have heq := (fits_iff_eq _ found hdecided).mp h
        exact ⟨fun _ => found, by simp [filled, hwild, heq]⟩
  | tuple elements =>
      cases found with
      | tuple others =>
          rw [fits] at h
          obtain ⟨chosen, hchosen⟩ := exists_filledAll (index + 1) elements others h
          exact ⟨chosen, by rw [filled, ← hchosen]⟩
      | _ => simp [fits] at h
  | array element count =>
      cases found with
      | array other otherCount =>
          rw [fits, Bool.and_eq_true, decide_eq_true_eq] at h
          obtain ⟨chosen, hchosen⟩ := exists_filled (index + 1) element other h.1
          exact ⟨chosen, by rw [filled, ← hchosen, h.2]⟩
      | _ => simp [fits] at h
  | func result argument =>
      cases found with
      | func otherResult otherArgument =>
          rw [fits, Bool.and_eq_true] at h
          obtain ⟨chosen, hresult, hargument⟩ := exists_both
            (fun chosen other hagree heq => heq.trans (filled_congr _ result
              fun place _ hplace => hagree place hplace))
            (fun chosen other hagree heq => heq.trans (filled_congr _ argument
              fun place hplace _ => hagree place hplace))
            (exists_filled (index + 1) result otherResult h.1)
            (exists_filled (index + 1 + result.atoms.length) argument otherArgument h.2)
          exact ⟨chosen, by rw [filled, ← hresult, ← hargument]⟩
      | _ => simp [fits] at h

theorem exists_filledAll (index : Nat) (wanted found : List Tree)
    (h : fitsAll wanted found = true) : ∃ chosen, found = filledAll chosen index wanted := by
  cases wanted with
  | nil =>
      cases found with
      | nil => exact ⟨fun _ => .prim .undecided, rfl⟩
      | cons other others => simp [fitsAll] at h
  | cons tree rest =>
      cases found with
      | nil => simp [fitsAll] at h
      | cons other others =>
          rw [fitsAll, Bool.and_eq_true] at h
          obtain ⟨chosen, htree, hrest⟩ := exists_both
            (fun chosen other hagree heq => heq.trans (filled_congr _ tree
              fun place _ hplace => hagree place hplace))
            (fun chosen other hagree heq => heq.trans (filledAll_congr _ rest
              fun place hplace _ => hagree place hplace))
            (exists_filled index tree other h.1)
            (exists_filledAll (index + tree.atoms.length) rest others h.2)
          exact ⟨chosen, by rw [filledAll, ← htree, ← hrest]⟩

end

theorem fits_iff_filled (wanted found : Tree) :
    wanted.fits found = true ↔ ∃ chosen, found = filled chosen 0 wanted := by
  constructor
  · exact exists_filled 0 wanted found
  · rintro ⟨chosen, rfl⟩
    exact fits_filled chosen 0 wanted

mutual

-- A wildcard may stand for itself.
theorem fits_refl (tree : Tree) : tree.fits tree = true := by
  cases tree with
  | prim primitive => by_cases hwild : primitive = .undecided <;> simp [fits, hwild]
  | tuple elements =>
      rw [fits]
      exact fitsAll_refl elements
  | array element count => simp [fits, fits_refl element]
  | func result argument => simp [fits, fits_refl result, fits_refl argument]

theorem fitsAll_refl (trees : List Tree) : fitsAll trees trees = true := by
  cases trees with
  | nil => rfl
  | cons tree rest => simp [fitsAll, fits_refl tree, fitsAll_refl rest]

end

mutual

theorem fits_trans (wanted middle found : Tree) (hmiddle : wanted.fits middle = true)
    (hfound : middle.fits found = true) : wanted.fits found = true := by
  cases wanted with
  | prim primitive =>
      by_cases hwild : primitive = .undecided
      · simp [fits, hwild]
      · have hdecided : (Tree.prim primitive).isDecided = true := by simp [isDecided, hwild]
        rwa [(fits_iff_eq _ middle hdecided).mp hmiddle]
  | tuple elements =>
      cases middle with
      | tuple parts =>
          cases found with
          | tuple others =>
              rw [fits] at *
              exact fitsAll_trans elements parts others hmiddle hfound
          | _ => simp [fits] at hfound
      | _ => simp [fits] at hmiddle
  | array element count =>
      cases middle with
      | array part partCount =>
          cases found with
          | array other otherCount =>
              simp only [fits, Bool.and_eq_true, decide_eq_true_eq] at *
              exact ⟨fits_trans element part other hmiddle.1 hfound.1,
                hmiddle.2.trans hfound.2⟩
          | _ => simp [fits] at hfound
      | _ => simp [fits] at hmiddle
  | func result argument =>
      cases middle with
      | func partResult partArgument =>
          cases found with
          | func otherResult otherArgument =>
              simp only [fits, Bool.and_eq_true] at *
              exact ⟨fits_trans result partResult otherResult hmiddle.1 hfound.1,
                fits_trans argument partArgument otherArgument hmiddle.2 hfound.2⟩
          | _ => simp [fits] at hfound
      | _ => simp [fits] at hmiddle

theorem fitsAll_trans (wanted middle found : List Tree) (hmiddle : fitsAll wanted middle = true)
    (hfound : fitsAll middle found = true) : fitsAll wanted found = true := by
  cases wanted with
  | nil =>
      cases middle with
      | nil => exact hfound
      | cons part parts => simp [fitsAll] at hmiddle
  | cons tree rest =>
      cases middle with
      | nil => simp [fitsAll] at hmiddle
      | cons part parts =>
          cases found with
          | nil => simp [fitsAll] at hfound
          | cons other others =>
              simp only [fitsAll, Bool.and_eq_true] at *
              exact ⟨fits_trans tree part other hmiddle.1 hfound.1,
                fitsAll_trans rest parts others hmiddle.2 hfound.2⟩

end

end Tree

namespace Atom

variable {pattern candidate : List Atom} {place other : Nat}

-- The places behind two parts that match. The walk ends because the first one moves on.
abbrev Stops (pattern : List Atom) (place : Nat) : Type :=
  { stops : Nat × Nat // place < stops.1 ∧ stops.1 ≤ pattern.length }

def Stops.widen {start : Nat} (stops : Stops pattern start) (h : place ≤ start) :
    Stops pattern place :=
  ⟨stops.1, Nat.lt_of_le_of_lt h stops.2.1, stops.2.2⟩

theorem Stops.next (h : place < pattern.length) (stop : Nat) :
    place < (place + 1, stop).1 ∧ (place + 1, stop).1 ≤ pattern.length :=
  ⟨Nat.lt_succ_self place, h⟩

theorem Stops.start_le (stops : Stops pattern place) : place ≤ stops.1.1 :=
  Nat.le_of_lt stops.2.1

theorem Stops.start_le_second (first : Stops pattern place) (second : Stops pattern first.1.1) :
    place ≤ second.1.1 :=
  Nat.le_trans first.start_le second.start_le

-- One atom that has to be the same on both sides.
def equalAt (pattern candidate : List Atom) (place other : Nat) :
    Except Mismatch (Stops pattern place) :=
  if h : place < pattern.length then
    match candidate[other]? with
    | none => .error .outOfRange
    | some found =>
        if pattern.get ⟨place, h⟩ = found then .ok ⟨(place + 1, other + 1), by simp; omega⟩
        else .error .different
  else .error .outOfRange

mutual

-- The part of the pattern at `place` against that of the candidate at `other`.
def matchAt (pattern candidate : List Atom) (place other : Nat) :
    Except Mismatch (Stops pattern place) :=
  if h : place < pattern.length then
    if pattern.get ⟨place, h⟩ = .prim .undecided then
      match endOf? candidate other with
      | none => .error .outOfRange
      | some stop => .ok ⟨(place + 1, stop), Stops.next h stop⟩
    else do
      let first ← equalAt pattern candidate place other
      match pattern.get ⟨place, h⟩ with
      | .tuple | .func =>
          (matchParts pattern candidate first.1.1 first.1.2).map
            (·.widen first.start_le)
      | .array => do
          let stops ← matchAt pattern candidate first.1.1 first.1.2
          (equalAt pattern candidate stops.1.1 stops.1.2).map
            (·.widen (first.start_le_second stops))
      | _ => .ok first
  else .error .outOfRange
termination_by 2 * (pattern.length - place)

-- Parts of both sides up to the atoms that close them.
def matchParts (pattern candidate : List Atom) (place other : Nat) :
    Except Mismatch (Stops pattern place) :=
  if h : place < pattern.length then
    match candidate[other]? with
    | none => .error .outOfRange
    | some found =>
        if pattern.get ⟨place, h⟩ = .close ∨ found = .close then
          equalAt pattern candidate place other
        else do
          let stops ← matchAt pattern candidate place other
          (matchParts pattern candidate stops.1.1 stops.1.2).map
            (·.widen (Nat.le_of_lt stops.2.1))
  else .error .outOfRange
termination_by 2 * (pattern.length - place) + 1

end

-- The same steps on plain numbers.
def equalledAt (pattern candidate : List Atom) (place other : Nat) : Except Mismatch (Nat × Nat) :=
  (equalAt pattern candidate place other).map Subtype.val

def matchedAt (pattern candidate : List Atom) (place other : Nat) : Except Mismatch (Nat × Nat) :=
  (matchAt pattern candidate place other).map Subtype.val

def matchedParts (pattern candidate : List Atom) (place other : Nat) :
    Except Mismatch (Nat × Nat) :=
  (matchParts pattern candidate place other).map Subtype.val

-- What is left to compare behind two equal atoms.
def matchedBehind (pattern candidate : List Atom) (first : Atom) (place other : Nat) :
    Except Mismatch (Nat × Nat) :=
  match first with
  | .tuple | .func => matchedParts pattern candidate place other
  | .array =>
      matchedAt pattern candidate place other >>= fun stops =>
        equalledAt pattern candidate stops.1 stops.2
  | _ => .ok (place, other)

theorem map_widen_stops {start : Nat} (found : Except Mismatch (Stops pattern start))
    (h : place ≤ start) : (found.map (·.widen h)).map Subtype.val = found.map Subtype.val := by
  cases found <;> rfl

theorem map_bind_stops {start : Nat} (found : Except Mismatch (Stops pattern start))
    {next : Stops pattern start → Except Mismatch (Stops pattern place)}
    {follow : Nat × Nat → Except Mismatch (Nat × Nat)}
    (h : ∀ stops, (next stops).map Subtype.val = follow stops.1) :
    (found >>= next).map Subtype.val = found.map Subtype.val >>= follow := by
  cases found with
  | error mismatch => rfl
  | ok stops => exact h stops

theorem equalledAt_eq {wanted found : Atom} (hwanted : pattern[place]? = some wanted)
    (hfound : candidate[other]? = some found) :
    equalledAt pattern candidate place other =
      if wanted = found then .ok (place + 1, other + 1) else .error .different := by
  obtain ⟨hplace, rfl⟩ := List.getElem?_eq_some_iff.mp hwanted
  rw [equalledAt, equalAt, dif_pos hplace, hfound]
  simp only [List.get_eq_getElem]
  split <;> rfl

theorem matchedAt_eq {wanted : Atom} (hwanted : pattern[place]? = some wanted) :
    matchedAt pattern candidate place other =
      if wanted = .prim .undecided then
        match endOf? candidate other with
        | none => .error .outOfRange
        | some stop => .ok (place + 1, stop)
      else
        equalledAt pattern candidate place other >>= fun stops =>
          matchedBehind pattern candidate wanted stops.1 stops.2 := by
  obtain ⟨hplace, rfl⟩ := List.getElem?_eq_some_iff.mp hwanted
  rw [matchedAt, matchAt, dif_pos hplace]
  simp only [List.get_eq_getElem]
  split
  · cases endOf? candidate other <;> rfl
  · refine map_bind_stops _ fun first => ?_
    cases pattern[place] with
    | tuple => exact map_widen_stops _ (Nat.le_of_lt first.2.1)
    | func => exact map_widen_stops _ (Nat.le_of_lt first.2.1)
    | array =>
        exact map_bind_stops _ fun stops =>
          map_widen_stops _ (Nat.le_of_lt (Nat.lt_trans first.2.1 stops.2.1))
    | prim primitive => rfl
    | close => rfl
    | count count => rfl

theorem matchedParts_eq {wanted found : Atom} (hwanted : pattern[place]? = some wanted)
    (hfound : candidate[other]? = some found) :
    matchedParts pattern candidate place other =
      if wanted = .close ∨ found = .close then equalledAt pattern candidate place other
      else
        matchedAt pattern candidate place other >>= fun stops =>
          matchedParts pattern candidate stops.1 stops.2 := by
  obtain ⟨hplace, rfl⟩ := List.getElem?_eq_some_iff.mp hwanted
  rw [matchedParts, matchParts, dif_pos hplace, hfound]
  simp only [List.get_eq_getElem]
  split
  · rfl
  · exact map_bind_stops _ fun stops => map_widen_stops _ (Nat.le_of_lt stops.2.1)

-- The first atom of a tree stands where the tree is written.
theorem head_of_written {atoms : List Atom} {index : Nat} {tree : Tree}
    (h : tree.atoms <+: atoms.drop index) : atoms[index]? = some tree.head := by
  rw [tree.atoms_eq_cons] at h
  exact (cons_prefix_drop_iff.mp h).1

-- Atoms that differ, where the pattern has no wildcard.
theorem matchedAt_of_ne {wanted found : Atom} (hwanted : pattern[place]? = some wanted)
    (hwild : wanted ≠ .prim .undecided) (hfound : candidate[other]? = some found)
    (hne : wanted ≠ found) : matchedAt pattern candidate place other = .error .different := by
  rw [matchedAt_eq hwanted, if_neg hwild, equalledAt_eq hwanted hfound, if_neg hne]
  rfl

-- Equal atoms are passed, and the rest depends on what they begin.
theorem matchedAt_of_eq {wanted : Atom} (hwanted : pattern[place]? = some wanted)
    (hwild : wanted ≠ .prim .undecided) (hfound : candidate[other]? = some wanted) :
    matchedAt pattern candidate place other =
      matchedBehind pattern candidate wanted (place + 1) (other + 1) := by
  rw [matchedAt_eq hwanted, if_neg hwild, equalledAt_eq hwanted hfound, if_pos rfl]
  rfl

-- Where both sides have one more part, the parts are compared and the walk goes on behind them.
theorem matchedParts_written_cons {wanted found : Tree} {result : Except Mismatch (Nat × Nat)}
    (hwanted : wanted.atoms <+: pattern.drop place)
    (hfound : found.atoms <+: candidate.drop other)
    (hfirst : matchedAt pattern candidate place other =
      if wanted.fits found then .ok (place + wanted.atoms.length, other + found.atoms.length)
      else .error .different)
    (hrest : wanted.fits found = true → matchedParts pattern candidate
      (place + wanted.atoms.length) (other + found.atoms.length) = result) :
    matchedParts pattern candidate place other =
      if wanted.fits found then result else .error .different := by
  rw [matchedParts_eq (head_of_written hwanted) (head_of_written hfound),
    if_neg (by simp [wanted.head_ne_close, found.head_ne_close]), hfirst]
  by_cases hfits : wanted.fits found = true
  · rw [if_pos hfits, if_pos hfits]
    exact hrest hfits
  · rw [if_neg hfits, if_neg hfits]
    rfl

theorem matchedParts_close (hwanted : pattern[place]? = some .close)
    (hfound : candidate[other]? = some .close) :
    matchedParts pattern candidate place other = .ok (place + 1, other + 1) := by
  rw [matchedParts_eq hwanted hfound, if_pos (.inl rfl), equalledAt_eq hwanted hfound, if_pos rfl]

-- A wildcard passes over the whole tree, every other primitive over its own atom only.
theorem matchedAt_written_prim {primitive : Primitive} {found : Tree}
    (hwanted : (Tree.prim primitive).atoms <+: pattern.drop place)
    (hfound : found.atoms <+: candidate.drop other) :
    matchedAt pattern candidate place other =
      if (Tree.prim primitive).fits found then
        .ok (place + (Tree.prim primitive).atoms.length, other + found.atoms.length)
      else .error .different := by
  have hfirst := head_of_written hwanted
  have hother := head_of_written hfound
  by_cases hwild : primitive = .undecided
  · subst hwild
    rw [matchedAt_eq hfirst, Tree.head, if_pos rfl, endOf?_written hfound, Tree.fits, if_pos rfl]
    rfl
  · have hne : Atom.prim primitive ≠ .prim .undecided := by simpa using hwild
    have hdecided : (Tree.prim primitive).isDecided = true := by
      simp [Tree.isDecided, hwild]
    by_cases heq : Tree.prim primitive = found
    · subst heq
      rw [matchedAt_of_eq hfirst hne hother, if_pos (Tree.fits_refl _)]
      rfl
    · have hheads : Atom.prim primitive ≠ found.head := by
        cases found with
        | prim primitive' => simpa [Tree.head] using heq
        | _ => simp [Tree.head]
      rw [matchedAt_of_ne hfirst hne hother hheads,
        if_neg (mt (Tree.fits_iff_eq _ found hdecided).mp heq)]

mutual

-- Two trees that are written at the places. The induction is on the tree of the pattern.
theorem matchedAt_written (wanted found : Tree) (place other : Nat)
    (hwanted : wanted.atoms <+: pattern.drop place)
    (hfound : found.atoms <+: candidate.drop other) :
    matchedAt pattern candidate place other =
      if wanted.fits found then .ok (place + wanted.atoms.length, other + found.atoms.length)
      else .error .different := by
  have hfirst := head_of_written hwanted
  have hother := head_of_written hfound
  cases wanted with
  | prim primitive => exact matchedAt_written_prim hwanted hfound
  | tuple elements =>
      cases found with
      | tuple others =>
          obtain ⟨-, hwanted⟩ := cons_prefix_drop_iff.mp hwanted
          obtain ⟨-, hfound⟩ := cons_prefix_drop_iff.mp hfound
          have hparts := matchedParts_written elements others (place + 1) (other + 1) hwanted hfound
          rw [matchedAt_of_eq hfirst (by simp [Tree.head]) hother]
          simp only [Tree.head, matchedBehind, hparts, Tree.fits, Tree.atoms, List.length_cons,
            List.length_append, List.length_nil]
          congr 3 <;> omega
      | _ =>
          rw [matchedAt_of_ne hfirst (by simp [Tree.head]) hother (by simp [Tree.head])]
          simp [Tree.fits]
  | array element count =>
      cases found with
      | array part partCount =>
          obtain ⟨-, hwanted⟩ := cons_prefix_drop_iff.mp hwanted
          obtain ⟨-, hfound⟩ := cons_prefix_drop_iff.mp hfound
          obtain ⟨helement, hcount⟩ := append_prefix_drop_iff.mp hwanted
          obtain ⟨hpart, hpartCount⟩ := append_prefix_drop_iff.mp hfound
          obtain ⟨hcount, -⟩ := cons_prefix_drop_iff.mp hcount
          obtain ⟨hpartCount, -⟩ := cons_prefix_drop_iff.mp hpartCount
          rw [matchedAt_of_eq hfirst (by simp [Tree.head]) hother]
          simp only [Tree.head, matchedBehind, matchedAt_written element part _ _ helement hpart,
            Tree.fits]
          by_cases hfits : element.fits part = true
          · rw [if_pos hfits]
            refine (equalledAt_eq hcount hpartCount).trans ?_
            simp only [hfits, Bool.true_and, decide_eq_true_eq, Atom.count.injEq, Tree.atoms,
              List.length_cons, List.length_append, List.length_nil]
            congr 3 <;> omega
          · rw [if_neg hfits]
            simp [hfits]
            rfl
      | _ =>
          rw [matchedAt_of_ne hfirst (by simp [Tree.head]) hother (by simp [Tree.head])]
          simp [Tree.fits]
  | func result argument =>
      cases found with
      | func otherResult otherArgument =>
          obtain ⟨-, hwanted⟩ := cons_prefix_drop_iff.mp hwanted
          obtain ⟨-, hfound⟩ := cons_prefix_drop_iff.mp hfound
          rw [List.append_assoc] at hwanted hfound
          obtain ⟨hresult, hwanted⟩ := append_prefix_drop_iff.mp hwanted
          obtain ⟨hotherResult, hfound⟩ := append_prefix_drop_iff.mp hfound
          obtain ⟨hargument, hclose⟩ := append_prefix_drop_iff.mp hwanted
          obtain ⟨hotherArgument, hotherClose⟩ := append_prefix_drop_iff.mp hfound
          obtain ⟨hclose, -⟩ := cons_prefix_drop_iff.mp hclose
          obtain ⟨hotherClose, -⟩ := cons_prefix_drop_iff.mp hotherClose
          rw [matchedAt_of_eq hfirst (by simp [Tree.head]) hother]
          have hlast := matchedParts_written_cons hargument hotherArgument
            (matchedAt_written argument otherArgument _ _ hargument hotherArgument)
            fun _ => matchedParts_close hclose hotherClose
          have hparts := matchedParts_written_cons hresult hotherResult
            (matchedAt_written result otherResult _ _ hresult hotherResult) fun _ => hlast
          simp only [Tree.head, matchedBehind, hparts, Tree.fits, Bool.and_eq_true, Tree.atoms,
            List.length_cons, List.length_append, List.length_nil, ite_and]
          congr 4 <;> omega
      | _ =>
          rw [matchedAt_of_ne hfirst (by simp [Tree.head]) hother (by simp [Tree.head])]
          simp [Tree.fits]

theorem matchedParts_written (wanted found : List Tree) (place other : Nat)
    (hwanted : Tree.atomsAll wanted ++ [.close] <+: pattern.drop place)
    (hfound : Tree.atomsAll found ++ [.close] <+: candidate.drop other) :
    matchedParts pattern candidate place other =
      if Tree.fitsAll wanted found then
        .ok (place + (Tree.atomsAll wanted).length + 1, other + (Tree.atomsAll found).length + 1)
      else .error .different := by
  cases wanted with
  | nil =>
      obtain ⟨hclose, -⟩ := cons_prefix_drop_iff.mp hwanted
      cases found with
      | nil =>
          obtain ⟨hotherClose, -⟩ := cons_prefix_drop_iff.mp hfound
          rw [matchedParts_close hclose hotherClose]
          rfl
      | cons part parts =>
          rw [Tree.atomsAll, List.append_assoc] at hfound
          have hpart := head_of_written (append_prefix_drop_iff.mp hfound).1
          rw [matchedParts_eq hclose hpart, if_pos (.inl rfl), equalledAt_eq hclose hpart,
            if_neg (Ne.symm part.head_ne_close)]
          rfl
  | cons tree rest =>
      rw [Tree.atomsAll, List.append_assoc] at hwanted
      obtain ⟨htree, hrest⟩ := append_prefix_drop_iff.mp hwanted
      cases found with
      | nil =>
          obtain ⟨hotherClose, -⟩ := cons_prefix_drop_iff.mp hfound
          have hfirst := head_of_written htree
          rw [matchedParts_eq hfirst hotherClose, if_pos (.inr rfl),
            equalledAt_eq hfirst hotherClose, if_neg tree.head_ne_close]
          rfl
      | cons part parts =>
          rw [Tree.atomsAll, List.append_assoc] at hfound
          obtain ⟨hpart, hparts⟩ := append_prefix_drop_iff.mp hfound
          have hall := matchedParts_written_cons htree hpart
            (matchedAt_written tree part _ _ htree hpart)
            fun _ => matchedParts_written rest parts _ _ hrest hparts
          simp only [hall, Tree.fitsAll, Bool.and_eq_true, Tree.atomsAll, List.length_append,
            ite_and]
          congr 4 <;> omega

end

-- Both places have to arrive at the ends.
def matchesAlong? (pattern candidate : List Atom) : Option Bool :=
  if pattern = [] ∨ candidate = [] then some (pattern = [] ∧ candidate = [])
  else match matchAt pattern candidate 0 0 with
    | .ok stops => some (stops.1 = (pattern.length, candidate.length))
    | .error .different => some false
    | .error .outOfRange => none

private theorem matchesAlong?_atoms (wanted found : Tree) :
    matchesAlong? wanted.atoms found.atoms = some (wanted.fits found) := by
  have hwalk := matchedAt_written wanted found 0 0 List.prefix_rfl List.prefix_rfl
  rw [matchesAlong?, if_neg (by simp [wanted.atoms_ne_nil, found.atoms_ne_nil])]
  rw [matchedAt] at hwalk
  by_cases hfits : wanted.fits found = true
  · rw [if_pos hfits, Nat.zero_add, Nat.zero_add] at hwalk
    cases hmatch : matchAt wanted.atoms found.atoms 0 0 with
    | error mismatch =>
        rw [hmatch] at hwalk
        contradiction
    | ok stops =>
        rw [hmatch] at hwalk
        have hstops : stops.1 = (wanted.atoms.length, found.atoms.length) := Except.ok.inj hwalk
        simp [hstops, hfits]
  · rw [if_neg hfits] at hwalk
    cases hmatch : matchAt wanted.atoms found.atoms 0 0 with
    | error mismatch =>
        rw [hmatch] at hwalk
        cases Except.error.inj hwalk
        simp [hfits]
    | ok stops =>
        rw [hmatch] at hwalk
        contradiction

end Atom

-- A pattern matches the types whose trees come from its own by replacing the wildcards, and no atom
-- is looked for that is not there. A pattern for functions of one argument type takes all of them
-- and nothing else.
theorem matches_iff_filled :
    (∀ pattern candidate : Ty, pattern.isWellFormed = true → candidate.isWellFormed = true →
      ∃ wanted found : Tree, pattern.tree? = some wanted ∧ candidate.tree? = some found ∧
        ∃ isMatch, pattern.matches? candidate = some isMatch ∧
          Atom.matchesAlong? pattern.atoms candidate.atoms = some isMatch ∧
          (isMatch = true ↔ ∃ chosen, found = wanted.filled chosen 0)) ∧
    (∀ ty : Ty, ty.isWellFormed = true → ty.matches? ty = some true) ∧
    (∀ first second third : Ty, first.isWellFormed = true → second.isWellFormed = true →
      third.isWellFormed = true → first.matches? second = some true →
      second.matches? third = some true → first.matches? third = some true) ∧
    ∀ argument ty : Ty, argument.isWellFormed = true → ty.isWellFormed = true →
      .prim .undecided ∉ argument.atoms →
      ((Ty.func .undecided argument).matches? ty = some true ↔
        ∃ found, ty.argument? = some found ∧ found.same argument = true) := by
  refine ⟨?_, ?_, ?_, ?_⟩
  · intro pattern candidate hpattern hcandidate
    obtain ⟨wanted, hwanted⟩ := Ty.isWellFormed_iff.mp hpattern
    obtain ⟨found, hfound⟩ := Ty.isWellFormed_iff.mp hcandidate
    refine ⟨wanted, found, hwanted.tree?_eq, hfound.tree?_eq, wanted.fits found,
      hwanted.matches? hfound, ?_, wanted.fits_iff_filled found⟩
    rw [hwanted.atoms, hfound.atoms, Atom.matchesAlong?_atoms]
  · intro ty hty
    obtain ⟨tree, htree⟩ := Ty.isWellFormed_iff.mp hty
    rw [htree.matches? htree, tree.fits_refl]
  · intro first second third hfirst hsecond hthird hleft hright
    obtain ⟨wanted, hwanted⟩ := Ty.isWellFormed_iff.mp hfirst
    obtain ⟨middle, hmiddle⟩ := Ty.isWellFormed_iff.mp hsecond
    obtain ⟨found, hfound⟩ := Ty.isWellFormed_iff.mp hthird
    rw [hwanted.matches? hmiddle, Option.some.injEq] at hleft
    rw [hmiddle.matches? hfound, Option.some.injEq] at hright
    rw [hwanted.matches? hfound, Tree.fits_trans wanted middle found hleft hright]
  · intro argument ty hargument hty hdecided
    obtain ⟨wanted, hwanted⟩ := Ty.isWellFormed_iff.mp hargument
    obtain ⟨found, hfound⟩ := Ty.isWellFormed_iff.mp hty
    rw [hwanted.atoms, ← Tree.isDecided_iff] at hdecided
    have hpattern := Ty.describes_func (Ty.describes_ofPrimitive .undecided) hwanted
    rw [Ty.undecided, hpattern.matches? hfound, Option.some.injEq, Tree.func_fits_iff hdecided]
    constructor
    · rintro ⟨result, rfl⟩
      refine ⟨_, hfound.argument?, ?_⟩
      exact ((Ty.describes_ofAtoms wanted).same_iff hwanted).mpr rfl
    · rintro ⟨other, hother, hsame⟩
      have hfunc : ty.isFunc = true := by
        by_contra hfunc
        simp [Ty.argument?, hfunc] at hother
      obtain ⟨result, tree, rfl⟩ := hfound.eq_func hfunc
      cases hother.symm.trans hfound.argument?
      rw [((Ty.describes_ofAtoms tree).same_iff hwanted).mp hsame]
      exact ⟨result, rfl⟩

-- Wildcards inside of a tuple, a function and an array, the same with some of them replaced, and
-- with none of them left.
def Tree.sketched : Tree :=
  .tuple [.prim .undecided, .func (.prim .undecided) (.array (.prim .undecided) 3)]

def Tree.refined : Tree :=
  .tuple [.tuple [.prim .i8, .prim .undecided], .func (.prim .f64) (.array (.prim .undecided) 3)]

def Tree.finished : Tree :=
  .tuple [.tuple [.prim .i8, .prim .str], .func (.prim .f64) (.array (.tuple []) 3)]

theorem matches_iff_filled_sketched :
    (Ty.ofAtoms Tree.sketched.atoms).isWellFormed = true ∧
    (Ty.ofAtoms Tree.refined.atoms).isWellFormed = true ∧
    (Ty.ofAtoms Tree.finished.atoms).isWellFormed = true ∧
    (Ty.ofAtoms Tree.sketched.atoms).matches? (.ofAtoms Tree.sketched.atoms) = some true ∧
    (Ty.ofAtoms Tree.sketched.atoms).matches? (.ofAtoms Tree.refined.atoms) = some true ∧
    (Ty.ofAtoms Tree.refined.atoms).matches? (.ofAtoms Tree.finished.atoms) = some true ∧
    (Ty.ofAtoms Tree.sketched.atoms).matches? (.ofAtoms Tree.finished.atoms) = some true ∧
    (∃ chosen, Tree.finished = Tree.sketched.filled chosen 0) ∧
    (∀ chosen, Tree.sketched ≠ Tree.refined.filled chosen 0) ∧
    .prim .undecided ∉ (Ty.array (.tuple []) 3).atoms ∧
    (Ty.func .undecided (.array (.tuple []) 3)).matches?
      (.func (.ofPrimitive .f64) (.array (.tuple []) 3)) = some true := by
  obtain ⟨hmatches, hrefl, htrans, hfunc⟩ := matches_iff_filled
  have hsketched : (Ty.ofAtoms Tree.sketched.atoms).isWellFormed = true := by decide +kernel
  have hrefined : (Ty.ofAtoms Tree.refined.atoms).isWellFormed = true := by decide +kernel
  have hfinished : (Ty.ofAtoms Tree.finished.atoms).isWellFormed = true := by decide +kernel
  have hfirst : (Ty.ofAtoms Tree.sketched.atoms).matches? (.ofAtoms Tree.refined.atoms) =
      some true := by decide +kernel
  have hsecond : (Ty.ofAtoms Tree.refined.atoms).matches? (.ofAtoms Tree.finished.atoms) =
      some true := by decide +kernel
  have hback : (Ty.ofAtoms Tree.refined.atoms).matches? (.ofAtoms Tree.sketched.atoms) =
      some false := by decide +kernel
  have hboth := htrans _ _ _ hsketched hrefined hfinished hfirst hsecond
  have hargument : (Ty.array (.tuple []) 3).isWellFormed = true := by decide +kernel
  have hcallee : (Ty.func (.ofPrimitive .f64) (.array (.tuple []) 3)).isWellFormed = true := by
    decide +kernel
  have hdecided : .prim .undecided ∉ (Ty.array (.tuple []) 3).atoms := by decide +kernel
  refine ⟨hsketched, hrefined, hfinished, hrefl _ hsketched, hfirst, hsecond, hboth, ?_, ?_,
    hdecided, (hfunc _ _ hargument hcallee hdecided).mpr ⟨.array (.tuple []) 3, ?_, ?_⟩⟩
  · obtain ⟨wanted, found, hwanted, hfound, isMatch, hmatch, -, hfilled⟩ :=
      hmatches _ _ hsketched hfinished
    cases hwanted.symm.trans (Ty.describes_ofAtoms Tree.sketched).tree?_eq
    cases hfound.symm.trans (Ty.describes_ofAtoms Tree.finished).tree?_eq
    cases hmatch.symm.trans hboth
    exact hfilled.mp rfl
  · intro chosen hchosen
    obtain ⟨wanted, found, hwanted, hfound, isMatch, hmatch, -, hfilled⟩ :=
      hmatches _ _ hrefined hsketched
    cases hwanted.symm.trans (Ty.describes_ofAtoms Tree.refined).tree?_eq
    cases hfound.symm.trans (Ty.describes_ofAtoms Tree.sketched).tree?_eq
    cases hmatch.symm.trans hback
    exact absurd (hfilled.mpr ⟨chosen, hchosen⟩) (by simp)
  · decide +kernel
  · decide +kernel

end Sluice

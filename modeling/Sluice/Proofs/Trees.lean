import Mathlib
import Sluice.Ty.Basic

namespace Sluice

namespace Tree

mutual

-- The brackets of a tree.
def skeleton : Tree → Skeleton
  | .prim primitive => .leaf (.prim primitive)
  | .tuple elements => .tuple (skeletons elements)
  | .array element count => .array element.skeleton (some (.count count))
  | .func result argument => .func [result.skeleton, argument.skeleton]

def skeletons : List Tree → List Skeleton
  | [] => []
  | tree :: rest => tree.skeleton :: skeletons rest

end

mutual

theorem atoms_skeleton (tree : Tree) : tree.skeleton.atoms = tree.atoms := by
  cases tree with
  | prim primitive => rfl
  | tuple elements =>
      simp only [skeleton, Skeleton.atoms, atoms, atomsAll_skeletons elements]
  | array element count =>
      simp only [skeleton, Skeleton.atoms, atoms, atoms_skeleton element, Option.toList]
  | func result argument =>
      simp only [skeleton, Skeleton.atoms, Skeleton.atomsAll, atoms, atoms_skeleton result,
        atoms_skeleton argument, List.append_nil]

theorem atomsAll_skeletons (trees : List Tree) :
    Skeleton.atomsAll (skeletons trees) = atomsAll trees := by
  cases trees with
  | nil => rfl
  | cons tree rest =>
      simp only [skeletons, Skeleton.atomsAll, atomsAll, atoms_skeleton tree,
        atomsAll_skeletons rest]

end

mutual

theorem tree?_skeleton (tree : Tree) : tree.skeleton.tree? = some tree := by
  cases tree with
  | prim primitive => rfl
  | tuple elements => simp only [skeleton, Skeleton.tree?, treeAll?_skeletons elements, Option.map]
  | array element count =>
      simp only [skeleton, Skeleton.tree?, tree?_skeleton element, Option.map]
  | func result argument =>
      simp only [skeleton, Skeleton.tree?, Skeleton.treeAll?, tree?_skeleton result,
        tree?_skeleton argument]

theorem treeAll?_skeletons (trees : List Tree) :
    Skeleton.treeAll? (skeletons trees) = some trees := by
  cases trees with
  | nil => rfl
  | cons tree rest =>
      simp only [skeletons, Skeleton.treeAll?, tree?_skeleton tree, treeAll?_skeletons rest]

end

mutual

theorem size?_skeleton (tree : Tree) : tree.skeleton.size? = some tree.size := by
  cases tree with
  | prim primitive => rfl
  | tuple elements => simp only [skeleton, Skeleton.size?, size, sizeAll?_skeletons elements]
  | array element count =>
      simp only [skeleton, Skeleton.size?, size, size?_skeleton element, Option.map]
  | func result argument => rfl

theorem sizeAll?_skeletons (trees : List Tree) :
    Skeleton.sizeAll? (skeletons trees) = some (sizeAll trees) := by
  cases trees with
  | nil => rfl
  | cons tree rest =>
      simp only [skeletons, Skeleton.sizeAll?, sizeAll, size?_skeleton tree,
        sizeAll?_skeletons rest]

end

private theorem atomsAll_eq_flatMap (trees : List Tree) : atomsAll trees = trees.flatMap atoms := by
  induction trees with
  | nil => rfl
  | cons tree rest ih => simp [atomsAll, ih]

theorem sizeAll_eq_sum (trees : List Tree) : sizeAll trees = (trees.map size).sum := by
  induction trees with
  | nil => rfl
  | cons tree rest ih => simp [sizeAll, ih]

@[simp] theorem atomsAll_append (left right : List Tree) :
    atomsAll (left ++ right) = atomsAll left ++ atomsAll right := by
  simp [atomsAll_eq_flatMap]

@[simp] theorem sizeAll_append (left right : List Tree) :
    sizeAll (left ++ right) = sizeAll left + sizeAll right := by
  simp [sizeAll_eq_sum]

theorem sizeAll_replicate (count : Nat) (tree : Tree) :
    sizeAll (List.replicate count tree) = count * tree.size := by
  simp [sizeAll_eq_sum]

theorem missing_skeleton (tree : Tree) : tree.skeleton.missing = 0 := by
  cases tree <;> rfl

theorem atoms_ne_nil (tree : Tree) : tree.atoms ≠ [] := by
  cases tree <;> simp [atoms]

end Tree

namespace Skeleton

-- Where a part may begin: everywhere but behind the element of an array.
def Ready : List Open → Prop
  | .element _ :: _ => False
  | _ => True

theorem readFrom_cons (outer : List Open) (atom : Atom) (rest : List Atom) :
    readFrom outer (atom :: rest) =
      match accept atom outer with
      | .inl part => some (part, rest)
      | .inr outer => readFrom outer rest := by
  cases outer with
  | nil => rfl
  | cons first outer => cases first <;> rfl

-- An atom other than the closing one begins a part.
theorem accept_of_ready {outer : List Open} {atom : Atom} (hready : Ready outer)
    (hatom : atom ≠ .close) : accept atom outer = start atom outer := by
  cases outer with
  | nil => rfl
  | cons first outer =>
      cases first with
      | tuple parts => simp [accept, hatom]
      | func parts => simp [accept, hatom]
      | array => rfl
      | element part => exact hready.elim

-- What happens when a part is complete and `rest` follows it.
def resume (part : Skeleton) (outer : List Open) (rest : List Atom) :
    Option (Skeleton × List Atom) :=
  match hand part outer with
  | .inl part => some (part, rest)
  | .inr outer => readFrom outer rest

theorem readFrom_close_tuple (parts : List Skeleton) (outer : List Open) (rest : List Atom) :
    readFrom (.tuple parts :: outer) (.close :: rest) =
      resume (.tuple parts.reverse) outer rest := by
  simp only [readFrom_cons, accept, if_true, resume]

theorem readFrom_close_func (parts : List Skeleton) (outer : List Open) (rest : List Atom) :
    readFrom (.func parts :: outer) (.close :: rest) =
      resume (.func parts.reverse) outer rest := by
  simp only [readFrom_cons, accept, if_true, resume]

theorem readFrom_element (part : Skeleton) (outer : List Open) (atom : Atom) (rest : List Atom) :
    readFrom (.element part :: outer) (atom :: rest) =
      resume (.array part (some atom)) outer rest := by
  simp only [readFrom_cons, accept, resume]

mutual

-- The induction is on the tree, for every list of open parts in front of it.
theorem readFrom_tree (tree : Tree) (outer : List Open) (rest : List Atom)
    (hready : Ready outer) :
    readFrom outer (tree.atoms ++ rest) = resume tree.skeleton outer rest := by
  cases tree with
  | prim primitive =>
      simp only [Tree.atoms, List.cons_append, List.nil_append, readFrom_cons]
      rw [accept_of_ready hready (by simp)]
      rfl
  | tuple elements =>
      simp only [Tree.atoms, List.cons_append, List.append_assoc, List.nil_append, readFrom_cons]
      rw [accept_of_ready hready (by simp)]
      simp only [start]
      rw [readFrom_trees elements [] outer (.close :: rest), readFrom_close_tuple]
      simp [Tree.skeleton]
  | array element count =>
      simp only [Tree.atoms, List.cons_append, List.append_assoc, List.nil_append, readFrom_cons]
      rw [accept_of_ready hready (by simp)]
      simp only [start]
      rw [readFrom_tree element (.array :: outer) (.count count :: rest) trivial]
      simp only [resume, hand]
      rw [readFrom_element]
      rfl
  | func result argument =>
      simp only [Tree.atoms, List.cons_append, List.append_assoc, List.nil_append, readFrom_cons]
      rw [accept_of_ready hready (by simp)]
      simp only [start]
      rw [readFrom_tree result (.func [] :: outer) _ trivial]
      simp only [resume, hand]
      rw [readFrom_tree argument (.func [result.skeleton] :: outer) _ trivial]
      simp only [resume, hand]
      rw [readFrom_close_func]
      rfl

theorem readFrom_trees (trees : List Tree) (parts : List Skeleton) (outer : List Open)
    (rest : List Atom) :
    readFrom (.tuple parts :: outer) (Tree.atomsAll trees ++ rest) =
      readFrom (.tuple ((Tree.skeletons trees).reverse ++ parts) :: outer) rest := by
  cases trees with
  | nil => rfl
  | cons tree trees =>
      simp only [Tree.atomsAll, List.append_assoc]
      rw [readFrom_tree tree (.tuple parts :: outer) _ trivial]
      simp only [resume, hand]
      rw [readFrom_trees trees (tree.skeleton :: parts) outer rest]
      simp [Tree.skeletons]

end

-- A tree at the front of a sequence is read as such.
theorem read?_tree (tree : Tree) (rest : List Atom) :
    read? (tree.atoms ++ rest) = some (tree.skeleton, rest) :=
  readFrom_tree tree [] rest trivial

theorem read?_atoms (tree : Tree) : read? tree.atoms = some (tree.skeleton, []) := by
  simpa using read?_tree tree []

end Skeleton

namespace Skeleton

mutual

theorem eq_skeleton_of_tree? (part : Skeleton) {tree : Tree} (h : part.tree? = some tree) :
    part = tree.skeleton := by
  cases part with
  | leaf atom =>
      cases atom <;> simp only [tree?, Option.some.injEq, reduceCtorEq] at h
      rw [← h, Tree.skeleton]
  | tuple parts =>
      simp only [tree?, Option.map_eq_some_iff] at h
      obtain ⟨trees, htrees, rfl⟩ := h
      rw [Tree.skeleton, eq_skeletons_of_treeAll? parts htrees]
  | func parts =>
      simp only [tree?] at h
      split at h
      · rename_i result argument htrees
        have hparts := eq_skeletons_of_treeAll? parts htrees
        cases h
        simp only [hparts, Tree.skeletons, Tree.skeleton]
      · contradiction
  | array element last =>
      cases last with
      | none => simp [tree?] at h
      | some atom =>
          cases atom with
          | count count =>
              simp only [tree?, Option.map_eq_some_iff] at h
              obtain ⟨tree, htree, rfl⟩ := h
              rw [Tree.skeleton, eq_skeleton_of_tree? element htree]
          | _ => simp [tree?] at h

theorem eq_skeletons_of_treeAll? (parts : List Skeleton) {trees : List Tree}
    (h : treeAll? parts = some trees) : parts = Tree.skeletons trees := by
  cases parts with
  | nil =>
      simp only [treeAll?, Option.some.injEq] at h
      rw [← h, Tree.skeletons]
  | cons part rest =>
      simp only [treeAll?] at h
      split at h
      · rename_i tree trees hpart hrest
        cases h
        rw [Tree.skeletons, ← eq_skeleton_of_tree? part hpart,
          ← eq_skeletons_of_treeAll? rest hrest]
      · contradiction

end

theorem atomsAll_append (left right : List Skeleton) :
    atomsAll (left ++ right) = atomsAll left ++ atomsAll right := by
  induction left with
  | nil => rfl
  | cons part left ih => simp [atomsAll, ih]

-- The atoms behind a list of open parts, the outermost first.
def opened : List Open → List Atom
  | [] => []
  | .tuple parts :: outer => opened outer ++ .tuple :: atomsAll parts.reverse
  | .func parts :: outer => opened outer ++ .func :: atomsAll parts.reverse
  | .array :: outer => opened outer ++ [.array]
  | .element part :: outer => opened outer ++ .array :: part.atoms

-- Only the innermost part waits for an atom behind its element.
def Nested (outer : List Open) : Prop := ∀ part, Open.element part ∉ outer

theorem hand_inl {part whole : Skeleton} {outer : List Open} (hnested : Nested outer)
    (h : hand part outer = .inl whole) : whole = part ∧ outer = [] := by
  cases outer with
  | nil => exact ⟨(Sum.inl.inj h).symm, rfl⟩
  | cons first outer =>
      cases first with
      | element inner => exact absurd List.mem_cons_self (hnested inner)
      | _ => simp [hand] at h

private theorem hand_inr {part : Skeleton} {outer next : List Open} (hnested : Nested outer)
    (h : hand part outer = .inr next) :
    opened next = opened outer ++ part.atoms ∧ Nested next.tail := by
  cases outer with
  | nil => simp [hand] at h
  | cons first outer =>
      have htail : Nested outer := fun inner hmem => hnested inner (List.mem_cons_of_mem _ hmem)
      cases first with
      | tuple parts =>
          cases h
          exact ⟨by simp [opened, atomsAll_append, atomsAll], htail⟩
      | func parts =>
          cases h
          exact ⟨by simp [opened, atomsAll_append, atomsAll], htail⟩
      | array =>
          cases h
          exact ⟨by simp [opened], htail⟩
      | element inner => exact absurd List.mem_cons_self (hnested inner)

theorem atoms_of_endArrays {part whole : Skeleton} {outer : List Open}
    (h : endArrays part outer = some whole) : whole.atoms = opened outer ++ part.atoms := by
  induction outer generalizing part with
  | nil =>
      simp only [endArrays, Option.some.injEq] at h
      simp [opened, h]
  | cons first outer ih =>
      cases first with
      | array =>
          rw [endArrays] at h
          rw [ih h]
          simp [opened, atoms]
      | _ => simp [endArrays] at h

-- A complete part is either all that was open or goes into the part around it.
theorem atoms_of_resume {part whole : Skeleton} {outer : List Open} {rest behind : List Atom}
    (hnested : Nested outer)
    (ih : ∀ next : List Open, Nested next.tail → readFrom next rest = some (whole, behind) →
      opened next ++ rest = whole.atoms ++ behind)
    (h : resume part outer rest = some (whole, behind)) :
    opened outer ++ part.atoms ++ rest = whole.atoms ++ behind := by
  unfold resume at h
  split at h
  · rename_i found hhand
    obtain ⟨rfl, rfl⟩ := hand_inl hnested hhand
    cases h
    rfl
  · rename_i next hhand
    obtain ⟨hopened, htail⟩ := hand_inr hnested hhand
    rw [← hopened]
    exact ih next htail h

theorem readFrom_of_start {atom : Atom} {outer : List Open} {rest : List Atom} :
    (match start atom outer with
      | .inl part => some (part, rest)
      | .inr outer => readFrom outer rest) =
      match atom with
      | .tuple => readFrom (.tuple [] :: outer) rest
      | .func => readFrom (.func [] :: outer) rest
      | .array => readFrom (.array :: outer) rest
      | atom => resume (.leaf atom) outer rest := by
  cases atom <;> rfl

-- Nothing is lost on the way: the atoms are those of the part, and what follows it.
private theorem atoms_of_readFrom {outer : List Open} {atoms behind : List Atom} {whole : Skeleton}
    (hnested : Nested outer.tail) (h : readFrom outer atoms = some (whole, behind)) :
    opened outer ++ atoms = whole.atoms ++ behind := by
  induction atoms generalizing outer with
  | nil =>
      cases outer with
      | nil => simp [readFrom] at h
      | cons first outer =>
          cases first with
          | element part =>
              simp only [readFrom, Option.map_eq_some_iff, Prod.mk.injEq] at h
              obtain ⟨found, hfound, rfl, rfl⟩ := h
              rw [atoms_of_endArrays hfound]
              simp [opened, Skeleton.atoms]
          | _ => simp [readFrom] at h
  | cons atom rest ih =>
      -- an atom that begins a part, in front of parts none of which waits for a count
      have hstart : ∀ {outer : List Open}, Nested outer →
          (match start atom outer with
            | .inl part => some (part, rest)
            | .inr outer => readFrom outer rest) = some (whole, behind) →
          opened outer ++ atom :: rest = whole.atoms ++ behind := by
        intro outer houter hread
        rw [readFrom_of_start] at hread
        split at hread
        · simpa [opened, atomsAll] using @ih (.tuple [] :: outer) houter hread
        · simpa [opened, atomsAll] using @ih (.func [] :: outer) houter hread
        · simpa [opened] using @ih (.array :: outer) houter hread
        · simpa [Skeleton.atoms] using atoms_of_resume houter (fun _ => ih) hread
      rw [readFrom_cons] at h
      cases outer with
      | nil => exact hstart (by simp [Nested]) h
      | cons first outer =>
          have hcons : (∀ part, first ≠ .element part) → Nested (first :: outer) := by
            intro hfirst part hmem
            rcases List.mem_cons.mp hmem with heq | hmem
            · exact hfirst part heq.symm
            · exact hnested part hmem
          cases first with
          | tuple parts =>
              by_cases hatom : atom = .close
              · subst hatom
                simp only [accept, if_true] at h
                simpa [opened, Skeleton.atoms] using atoms_of_resume hnested (fun _ => ih) h
              · simp only [accept, hatom, if_false] at h
                exact hstart (hcons (by simp)) h
          | func parts =>
              by_cases hatom : atom = .close
              · subst hatom
                simp only [accept, if_true] at h
                simpa [opened, Skeleton.atoms] using atoms_of_resume hnested (fun _ => ih) h
              · simp only [accept, hatom, if_false] at h
                exact hstart (hcons (by simp)) h
          | array => exact hstart (hcons (by simp)) h
          | element part =>
              simpa [opened, Skeleton.atoms] using atoms_of_resume hnested (fun _ => ih) h

theorem atoms_of_read? {atoms behind : List Atom} {whole : Skeleton}
    (h : read? atoms = some (whole, behind)) : atoms = whole.atoms ++ behind :=
  @atoms_of_readFrom [] _ _ _ (by simp [Nested]) h

end Skeleton

namespace Atom

-- A part that ends with its sequence and is a type leaves nothing behind it.
theorem typeEnd?_eq_length_iff {atoms : List Atom} :
    typeEnd? atoms 0 = some atoms.length ↔ ∃ tree : Tree, atoms = tree.atoms := by
  constructor
  · intro h
    unfold typeEnd? at h
    split at h
    · contradiction
    · rename_i part rest hread
      simp only [Option.map_eq_some_iff] at h
      obtain ⟨tree, htree, hlength⟩ := h
      rw [List.drop_zero] at hread
      have hatoms := Skeleton.atoms_of_read? hread
      have hpart := Skeleton.eq_skeleton_of_tree? part htree
      rw [hpart, Tree.atoms_skeleton] at hatoms
      have hpos : 0 < tree.atoms.length := List.length_pos_of_ne_nil tree.atoms_ne_nil
      have hsum := congrArg List.length hatoms
      rw [List.length_append] at hsum
      have hrest : rest = [] := List.length_eq_zero_iff.mp (by omega)
      exact ⟨tree, by rw [hatoms, hrest, List.append_nil]⟩
  · rintro ⟨tree, rfl⟩
    simp [typeEnd?, Skeleton.read?_atoms, Tree.tree?_skeleton]

end Atom

namespace Tree

-- No tree is the beginning of another one.
theorem atoms_prefix_free {left right : Tree} {leftRest rightRest : List Atom}
    (h : left.atoms ++ leftRest = right.atoms ++ rightRest) :
    left = right ∧ leftRest = rightRest := by
  have hl := Skeleton.read?_tree left leftRest
  rw [h, Skeleton.read?_tree right rightRest] at hl
  simp only [Option.some.injEq, Prod.mk.injEq] at hl
  have ht := tree?_skeleton right
  rw [hl.1, tree?_skeleton left] at ht
  exact ⟨Option.some.inj ht, hl.2.symm⟩

theorem atoms_injective : Function.Injective atoms := by
  intro left right h
  have h' : left.atoms ++ [] = right.atoms ++ [] := by rw [h]
  exact (atoms_prefix_free h').1

theorem atoms_inj {left right : Tree} : left.atoms = right.atoms ↔ left = right :=
  atoms_injective.eq_iff

end Tree

end Sluice

import Mathlib
import Sluice.Proofs.Patterns

namespace Sluice

-- Two sequences one behind the other.
theorem append_prefix_drop_iff {α : Type} {first second all : List α} {index : Nat} :
    first ++ second <+: all.drop index ↔
      first <+: all.drop index ∧ second <+: all.drop (index + first.length) := by
  constructor
  · rintro ⟨rest, h⟩
    refine ⟨⟨second ++ rest, by rw [← h, List.append_assoc]⟩, rest, ?_⟩
    rw [← List.drop_drop, ← h, List.append_assoc, List.drop_left]
  · rintro ⟨⟨between, hfirst⟩, rest, hsecond⟩
    rw [← List.drop_drop, ← hfirst, List.drop_left] at hsecond
    exact ⟨rest, by rw [← hfirst, ← hsecond, List.append_assoc]⟩

theorem cons_prefix_drop_iff {α : Type} {one : α} {rest all : List α} {index : Nat} :
    one :: rest <+: all.drop index ↔ all[index]? = some one ∧ rest <+: all.drop (index + 1) := by
  by_cases hindex : index < all.length
  · rw [List.drop_eq_getElem_cons hindex, List.cons_prefix_cons, List.getElem?_eq_getElem hindex,
      Option.some.injEq, eq_comm]
  · rw [List.drop_eq_nil_of_le (by omega), List.getElem?_eq_none (by omega)]
    simp

theorem prefix_drop_of_append {α : Type} {front middle back all inner : List α} {start index : Nat}
    (hall : all = front ++ (middle ++ back)) (hstart : front.length = start)
    (h : inner <+: middle.drop index) : inner <+: all.drop (start + index) := by
  rw [hall, ← hstart, ← List.drop_drop, List.drop_left, List.drop_append]
  exact h.trans (List.prefix_append ..)

theorem getElem?_append_cases {α : Type} {first second : List α} {index : Nat} {found : α}
    (h : (first ++ second)[index]? = some found) :
    first[index]? = some found ∨
      ∃ behind, index = first.length + behind ∧ second[behind]? = some found := by
  by_cases hindex : index < first.length
  · rw [List.getElem?_append_left hindex] at h
    exact .inl h
  · rw [List.getElem?_append_right (by omega)] at h
    exact .inr ⟨index - first.length, by omega, h⟩

namespace Atom

variable {atoms : List Atom} {index start stop : Nat}

theorem typeEnd?_eq_some_iff :
    typeEnd? atoms index = some stop ↔
      ∃ tree : Tree, tree.atoms <+: atoms.drop index ∧ stop = index + tree.atoms.length := by
  have hdrop : (atoms.drop index).length = atoms.length - index := List.length_drop ..
  constructor
  · intro h
    unfold typeEnd? at h
    split at h
    · contradiction
    · rename_i part rest hread
      obtain ⟨tree, htree, hstop⟩ := Option.map_eq_some_iff.mp h
      have hatoms := Skeleton.atoms_of_read? hread
      rw [Skeleton.eq_skeleton_of_tree? part htree, Tree.atoms_skeleton] at hatoms
      have hpos := List.length_pos_of_ne_nil tree.atoms_ne_nil
      rw [hatoms, List.length_append] at hdrop
      exact ⟨tree, ⟨rest, hatoms.symm⟩, by omega⟩
  · rintro ⟨tree, ⟨rest, hatoms⟩, rfl⟩
    have hpos := List.length_pos_of_ne_nil tree.atoms_ne_nil
    rw [← hatoms, List.length_append] at hdrop
    simp only [typeEnd?, ← hatoms, Skeleton.read?_tree, Tree.tree?_skeleton, Option.map_some]
    exact congrArg some (by omega)

theorem endOf?_written {tree : Tree} (h : tree.atoms <+: atoms.drop index) :
    endOf? atoms index = some (index + tree.atoms.length) := by
  obtain ⟨rest, hatoms⟩ := h
  have hpos := List.length_pos_of_ne_nil tree.atoms_ne_nil
  have hdrop : (atoms.drop index).length = atoms.length - index := List.length_drop ..
  rw [← hatoms, List.length_append] at hdrop
  simp only [endOf?, ← hatoms, Skeleton.read?_tree, Tree.missing_skeleton, Option.map_some]
  exact congrArg some (by omega)

-- A place behind `index`, at most that where the atoms end.
abbrev Stop (atoms : List Atom) (index : Nat) : Type :=
  { stop : Nat // index < stop ∧ stop ≤ atoms.length }

def Stop.widen (stop : Stop atoms start) (h : index ≤ start) : Stop atoms index :=
  ⟨stop.1, Nat.lt_of_le_of_lt h stop.2.1, stop.2.2⟩

theorem Stop.next (h : index < atoms.length) : index < index + 1 ∧ index + 1 ≤ atoms.length :=
  ⟨Nat.lt_succ_self index, h⟩

theorem Stop.start_le (stop : Stop atoms (index + 1)) : index ≤ stop.1 := by
  have hstop := stop.2
  omega

theorem Stop.start_le_second (first : Stop atoms (index + 1)) (second : Stop atoms first.1) :
    index ≤ second.1 := by
  have hfirst := first.2
  have hsecond := second.2
  omega

def isCount : Atom → Bool
  | .count _ => true
  | _ => false

-- One atom of a certain kind.
def past? (atoms : List Atom) (index : Nat) (test : Atom → Bool) : Option (Stop atoms index) :=
  if h : index < atoms.length then
    if test (atoms.get ⟨index, h⟩) then some ⟨index + 1, by omega⟩ else none
  else none

mutual

-- Where the type that starts at `index` ends.
def typeStop? (atoms : List Atom) (index : Nat) : Option (Stop atoms index) :=
  if h : index < atoms.length then
    match atoms.get ⟨index, h⟩ with
    | .prim _ => some ⟨index + 1, Stop.next h⟩
    | .tuple => (tupleStop? atoms (index + 1)).map (·.widen (Nat.le_succ index))
    | .array => do
        let last ← typeStop? atoms (index + 1)
        (past? atoms last.1 isCount).map (·.widen last.start_le)
    | .func => do
        let argument ← typeStop? atoms (index + 1)
        let last ← typeStop? atoms argument.1
        (past? atoms last.1 (· = .close)).map (·.widen (argument.start_le_second last))
    | .close => none
    | .count _ => none
  else none
termination_by 2 * (atoms.length - index)

-- Elements from `index` on, up to the atom that closes their tuple.
def tupleStop? (atoms : List Atom) (index : Nat) : Option (Stop atoms index) :=
  if h : index < atoms.length then
    if atoms.get ⟨index, h⟩ = .close then some ⟨index + 1, by omega⟩
    else do
      let next ← typeStop? atoms index
      (tupleStop? atoms next.1).map (·.widen (by have := next.2; omega))
  else none
termination_by 2 * (atoms.length - index) + 1

end

-- The same steps on plain numbers.
def stopAt? (atoms : List Atom) (index : Nat) : Option Nat :=
  (typeStop? atoms index).map Subtype.val

def closeAt? (atoms : List Atom) (index : Nat) : Option Nat :=
  (tupleStop? atoms index).map Subtype.val

def pastAt? (atoms : List Atom) (index : Nat) (test : Atom → Bool) : Option Nat :=
  (past? atoms index test).map Subtype.val

theorem map_widen (found : Option (Stop atoms start)) (h : index ≤ start) :
    (found.map (·.widen h)).map Subtype.val = found.map Subtype.val := by
  cases found <;> rfl

theorem map_bind (found : Option (Stop atoms start))
    {next : Stop atoms start → Option (Stop atoms index)} {follow : Nat → Option Nat}
    (h : ∀ stop, (next stop).map Subtype.val = follow stop.1) :
    (found >>= next).map Subtype.val = (found.map Subtype.val).bind follow := by
  cases found with
  | none => rfl
  | some stop => exact h stop

theorem pastAt?_eq (test : Atom → Bool) :
    pastAt? atoms index test =
      atoms[index]?.bind fun atom => if test atom then some (index + 1) else none := by
  by_cases h : index < atoms.length
  · rw [pastAt?, past?, dif_pos h, List.getElem?_eq_getElem h, Option.bind_some]
    simp only [List.get_eq_getElem]
    split <;> rfl
  · rw [pastAt?, past?, dif_neg h, List.getElem?_eq_none (by omega)]
    rfl

theorem stopAt?_eq :
    stopAt? atoms index = atoms[index]?.bind fun atom =>
      match atom with
      | .prim _ => some (index + 1)
      | .tuple => closeAt? atoms (index + 1)
      | .array => (stopAt? atoms (index + 1)).bind fun last => pastAt? atoms last isCount
      | .func => (stopAt? atoms (index + 1)).bind fun argument =>
          (stopAt? atoms argument).bind fun last => pastAt? atoms last (· = .close)
      | .close => none
      | .count _ => none := by
  by_cases h : index < atoms.length
  · rw [stopAt?, typeStop?, dif_pos h, List.getElem?_eq_getElem h, Option.bind_some]
    simp only [List.get_eq_getElem]
    cases hatom : atoms[index] with
    | prim primitive => rfl
    | tuple => exact map_widen _ (Nat.le_succ index)
    | array => exact map_bind _ fun last => map_widen _ (Nat.le_of_succ_le (Nat.le_of_lt last.2.1))
    | func =>
        refine map_bind _ fun argument => map_bind _ fun last => map_widen _ ?_
        have hargument := argument.2.1
        have hlast := last.2.1
        omega
    | close => rfl
    | count count => rfl
  · rw [stopAt?, typeStop?, dif_neg h, List.getElem?_eq_none (by omega)]
    rfl

theorem closeAt?_eq :
    closeAt? atoms index = atoms[index]?.bind fun atom =>
      if atom = .close then some (index + 1)
      else (stopAt? atoms index).bind fun next => closeAt? atoms next := by
  by_cases h : index < atoms.length
  · rw [closeAt?, tupleStop?, dif_pos h, List.getElem?_eq_getElem h, Option.bind_some]
    simp only [List.get_eq_getElem]
    by_cases hatom : atoms[index] = .close
    · rw [if_pos hatom, if_pos hatom]
      rfl
    · rw [if_neg hatom, if_neg hatom]
      exact map_bind _ fun next => map_widen _ (Nat.le_of_lt next.2.1)
  · rw [closeAt?, tupleStop?, dif_neg h, List.getElem?_eq_none (by omega)]
    rfl

theorem pastAt?_eq_some_iff {test : Atom → Bool} :
    pastAt? atoms index test = some stop ↔
      ∃ atom, atoms[index]? = some atom ∧ test atom = true ∧ stop = index + 1 := by
  simp only [pastAt?_eq, Option.bind_eq_some_iff, Option.ite_none_right_eq_some, Option.some.injEq,
    @eq_comm _ stop]

mutual

-- The end of a tree is found wherever it is written. The induction is on the tree.
theorem stopAt?_written (tree : Tree) (index : Nat) (h : tree.atoms <+: atoms.drop index) :
    stopAt? atoms index = some (index + tree.atoms.length) := by
  cases tree with
  | prim primitive =>
      obtain ⟨hatom, -⟩ := cons_prefix_drop_iff.mp h
      rw [stopAt?_eq, hatom]
      rfl
  | tuple elements =>
      obtain ⟨hatom, hrest⟩ := cons_prefix_drop_iff.mp h
      rw [stopAt?_eq, hatom, Option.bind_some]
      simp only [closeAt?_written elements _ hrest, Tree.atoms, List.length_cons,
        List.length_append, List.length_nil]
      exact congrArg some (by omega)
  | array element count =>
      obtain ⟨hatom, hrest⟩ := cons_prefix_drop_iff.mp h
      obtain ⟨helement, hlast⟩ := append_prefix_drop_iff.mp hrest
      obtain ⟨hcount, -⟩ := cons_prefix_drop_iff.mp hlast
      rw [stopAt?_eq, hatom, Option.bind_some]
      simp only [stopAt?_written element _ helement, Option.bind_some]
      refine pastAt?_eq_some_iff.mpr ⟨_, hcount, rfl, ?_⟩
      simp only [Tree.atoms, List.length_cons, List.length_append, List.length_nil]
      omega
  | func result argument =>
      obtain ⟨hatom, hrest⟩ := cons_prefix_drop_iff.mp h
      rw [List.append_assoc] at hrest
      obtain ⟨hresult, hrest⟩ := append_prefix_drop_iff.mp hrest
      obtain ⟨hargument, hlast⟩ := append_prefix_drop_iff.mp hrest
      obtain ⟨hclose, -⟩ := cons_prefix_drop_iff.mp hlast
      rw [stopAt?_eq, hatom, Option.bind_some]
      simp only [stopAt?_written result _ hresult, stopAt?_written argument _ hargument,
        Option.bind_some]
      refine pastAt?_eq_some_iff.mpr ⟨_, hclose, decide_eq_true rfl, ?_⟩
      simp only [Tree.atoms, List.length_cons, List.length_append, List.length_nil]
      omega

theorem closeAt?_written (trees : List Tree) (index : Nat)
    (h : Tree.atomsAll trees ++ [.close] <+: atoms.drop index) :
    closeAt? atoms index = some (index + (Tree.atomsAll trees).length + 1) := by
  cases trees with
  | nil =>
      obtain ⟨hclose, -⟩ := cons_prefix_drop_iff.mp h
      rw [closeAt?_eq, hclose, Option.bind_some, if_pos rfl]
      rfl
  | cons tree trees =>
      rw [Tree.atomsAll, List.append_assoc] at h
      obtain ⟨htree, hrest⟩ := append_prefix_drop_iff.mp h
      have hfirst := htree
      rw [tree.atoms_eq_cons] at hfirst
      obtain ⟨hatom, -⟩ := cons_prefix_drop_iff.mp hfirst
      rw [closeAt?_eq, hatom, Option.bind_some, if_neg tree.head_ne_close,
        stopAt?_written tree _ htree, Option.bind_some, closeAt?_written trees _ hrest,
        Tree.atomsAll, List.length_append]
      exact congrArg some (by omega)

end

mutual

-- Where an end is found, a tree is written. This follows the descent, from place to place.
theorem exists_tree_of_stopAt? (index stop : Nat) (h : stopAt? atoms index = some stop) :
    ∃ tree : Tree, tree.atoms <+: atoms.drop index ∧ stop = index + tree.atoms.length := by
  rw [stopAt?_eq] at h
  obtain ⟨atom, hatom, h⟩ := Option.bind_eq_some_iff.mp h
  have hindex : index < atoms.length := (List.getElem?_eq_some_iff.mp hatom).1
  cases atom with
  | prim primitive =>
      cases h
      exact ⟨.prim primitive, cons_prefix_drop_iff.mpr ⟨hatom, List.nil_prefix⟩, rfl⟩
  | tuple =>
      obtain ⟨trees, htrees, rfl⟩ := exists_trees_of_closeAt? (index + 1) _ h
      refine ⟨.tuple trees, cons_prefix_drop_iff.mpr ⟨hatom, htrees⟩, ?_⟩
      simp only [Tree.atoms, List.length_cons, List.length_append, List.length_nil]
      omega
  | array =>
      obtain ⟨last, hlast, h⟩ := Option.bind_eq_some_iff.mp h
      obtain ⟨element, helement, rfl⟩ := exists_tree_of_stopAt? (index + 1) _ hlast
      obtain ⟨found, hfound, htest, rfl⟩ := pastAt?_eq_some_iff.mp h
      cases found with
      | count count =>
          have hcount := cons_prefix_drop_iff.mpr ⟨hfound, List.nil_prefix⟩
          refine ⟨.array element count, cons_prefix_drop_iff.mpr
            ⟨hatom, append_prefix_drop_iff.mpr ⟨helement, hcount⟩⟩, ?_⟩
          simp only [Tree.atoms, List.length_cons, List.length_append, List.length_nil]
          omega
      | _ => contradiction
  | func =>
      obtain ⟨middle, hmiddle, h⟩ := Option.bind_eq_some_iff.mp h
      obtain ⟨last, hlast, h⟩ := Option.bind_eq_some_iff.mp h
      obtain ⟨result, hresult, rfl⟩ := exists_tree_of_stopAt? (index + 1) _ hmiddle
      obtain ⟨argument, hargument, rfl⟩ := exists_tree_of_stopAt? _ _ hlast
      obtain ⟨found, hfound, htest, rfl⟩ := pastAt?_eq_some_iff.mp h
      cases of_decide_eq_true htest
      have hclose := cons_prefix_drop_iff.mpr ⟨hfound, List.nil_prefix⟩
      have hparts := append_prefix_drop_iff.mpr
        ⟨hresult, append_prefix_drop_iff.mpr ⟨hargument, hclose⟩⟩
      rw [← List.append_assoc] at hparts
      refine ⟨.func result argument, cons_prefix_drop_iff.mpr ⟨hatom, hparts⟩, ?_⟩
      simp only [Tree.atoms, List.length_cons, List.length_append, List.length_nil]
      omega
  | close => contradiction
  | count count => contradiction
termination_by 2 * (atoms.length - index)

theorem exists_trees_of_closeAt? (index stop : Nat) (h : closeAt? atoms index = some stop) :
    ∃ trees : List Tree, Tree.atomsAll trees ++ [.close] <+: atoms.drop index ∧
      stop = index + (Tree.atomsAll trees).length + 1 := by
  rw [closeAt?_eq] at h
  obtain ⟨atom, hatom, h⟩ := Option.bind_eq_some_iff.mp h
  have hindex : index < atoms.length := (List.getElem?_eq_some_iff.mp hatom).1
  by_cases hclose : atom = .close
  · rw [if_pos hclose] at h
    cases h
    exact ⟨[], cons_prefix_drop_iff.mpr ⟨hclose ▸ hatom, List.nil_prefix⟩, rfl⟩
  · rw [if_neg hclose] at h
    obtain ⟨next, hnext, h⟩ := Option.bind_eq_some_iff.mp h
    obtain ⟨tree, htree, rfl⟩ := exists_tree_of_stopAt? index _ hnext
    have hpos := List.length_pos_of_ne_nil tree.atoms_ne_nil
    obtain ⟨trees, htrees, rfl⟩ := exists_trees_of_closeAt? _ _ h
    refine ⟨tree :: trees, ?_, ?_⟩
    · rw [Tree.atomsAll, List.append_assoc]
      exact append_prefix_drop_iff.mpr ⟨htree, htrees⟩
    · rw [Tree.atomsAll, List.length_append]
      omega
termination_by 2 * (atoms.length - index) + 1

end

-- Two ways to find the end: all brackets first, or one descent.
theorem stopAt?_eq_typeEnd? (atoms : List Atom) (index : Nat) :
    stopAt? atoms index = typeEnd? atoms index := by
  refine Option.ext fun stop => ?_
  rw [typeEnd?_eq_some_iff]
  constructor
  · exact exists_tree_of_stopAt? index stop
  · rintro ⟨tree, htree, rfl⟩
    exact stopAt?_written tree index htree

end Atom

namespace Tree

-- A tree and all trees inside of it, with the place of the first atom.
inductive PartAt : Tree → Nat → Tree → Prop
  | whole (tree : Tree) : PartAt tree 0 tree
  | element {before after : List Tree} {tree part : Tree} {index : Nat} (h : PartAt tree index part) :
      PartAt (.tuple (before ++ tree :: after)) (1 + (atomsAll before).length + index) part
  | array {tree part : Tree} {count : UInt32} {index : Nat} (h : PartAt tree index part) :
      PartAt (.array tree count) (1 + index) part
  | result {result argument part : Tree} {index : Nat} (h : PartAt result index part) :
      PartAt (.func result argument) (1 + index) part
  | argument {result argument part : Tree} {index : Nat} (h : PartAt argument index part) :
      PartAt (.func result argument) (1 + result.atoms.length + index) part

theorem PartAt.written {tree part : Tree} {index : Nat} (h : tree.PartAt index part) :
    part.atoms <+: tree.atoms.drop index := by
  induction h with
  | whole tree => exact List.prefix_rfl
  | @element before after tree part index h ih =>
      have hatoms : (Tree.tuple (before ++ tree :: after)).atoms =
          (.tuple :: atomsAll before) ++ (tree.atoms ++ (atomsAll after ++ [.close])) := by
        simp [atoms, atomsAll]
      exact prefix_drop_of_append hatoms (Nat.add_comm _ 1) ih
  | @array tree part count index h ih =>
      have hatoms : (Tree.array tree count).atoms = [.array] ++ (tree.atoms ++ [.count count]) := rfl
      exact prefix_drop_of_append hatoms rfl ih
  | @result result argument part index h ih =>
      have hatoms : (Tree.func result argument).atoms =
          [.func] ++ (result.atoms ++ (argument.atoms ++ [.close])) := by
        simp [atoms]
      exact prefix_drop_of_append hatoms rfl ih
  | @argument result argument part index h ih =>
      have hatoms : (Tree.func result argument).atoms =
          (.func :: result.atoms) ++ (argument.atoms ++ [.close]) := by
        simp [atoms]
      exact prefix_drop_of_append hatoms (Nat.add_comm _ 1) ih

end Tree

-- Atoms that no tree begins with.
def Atom.isLast : Atom → Bool
  | .close => true
  | .count _ => true
  | _ => false

namespace Tree

theorem isLast_head (tree : Tree) : tree.head.isLast = false := by
  cases tree <;> rfl

theorem isLast_of_singleton {last atom : Atom} {index : Nat} (hlast : last.isLast = true)
    (h : [last][index]? = some atom) : atom.isLast = true := by
  cases List.mem_singleton.mp (List.mem_of_getElem? h)
  exact hlast

mutual

-- Every atom of a tree begins a part of it or ends one.
theorem partAt_or_isLast (tree : Tree) (index : Nat) (atom : Atom)
    (h : tree.atoms[index]? = some atom) :
    (∃ part, tree.PartAt index part) ∨ atom.isLast = true := by
  cases index with
  | zero => exact .inl ⟨tree, .whole tree⟩
  | succ index =>
      rw [Nat.add_comm index 1]
      cases tree with
      | prim primitive => simp [atoms] at h
      | tuple elements =>
          rw [atoms, List.getElem?_cons_succ] at h
          rcases getElem?_append_cases h with h | ⟨behind, -, h⟩
          · refine (element_or_isLast elements index atom h).imp ?_ id
            rintro ⟨before, tree, after, inner, part, rfl, rfl, hpart⟩
            rw [← Nat.add_assoc]
            exact ⟨part, .element hpart⟩
          · exact .inr (isLast_of_singleton rfl h)
      | array element count =>
          rw [atoms, List.getElem?_cons_succ] at h
          rcases getElem?_append_cases h with h | ⟨behind, -, h⟩
          · refine (partAt_or_isLast element index atom h).imp ?_ id
            rintro ⟨part, hpart⟩
            exact ⟨part, .array hpart⟩
          · exact .inr (isLast_of_singleton rfl h)
      | func result argument =>
          rw [atoms, List.getElem?_cons_succ, List.append_assoc] at h
          rcases getElem?_append_cases h with h | ⟨behind, rfl, hbehind⟩
          · refine (partAt_or_isLast result index atom h).imp ?_ id
            rintro ⟨part, hpart⟩
            exact ⟨part, .result hpart⟩
          · rcases getElem?_append_cases hbehind with h | ⟨last, -, h⟩
            · refine (partAt_or_isLast argument behind atom h).imp ?_ id
              rintro ⟨part, hpart⟩
              rw [← Nat.add_assoc]
              exact ⟨part, .argument hpart⟩
            · exact .inr (isLast_of_singleton rfl h)

theorem element_or_isLast (trees : List Tree) (index : Nat) (atom : Atom)
    (h : (atomsAll trees)[index]? = some atom) :
    (∃ before tree after inner part, trees = before ++ tree :: after ∧
      index = (atomsAll before).length + inner ∧ tree.PartAt inner part) ∨ atom.isLast = true := by
  cases trees with
  | nil => simp [atomsAll] at h
  | cons tree trees =>
      rcases getElem?_append_cases h with h | ⟨behind, rfl, hbehind⟩
      · refine (partAt_or_isLast tree index atom h).imp ?_ id
        rintro ⟨part, hpart⟩
        exact ⟨[], tree, trees, index, part, rfl, (Nat.zero_add _).symm, hpart⟩
      · refine (element_or_isLast trees behind atom hbehind).imp ?_ id
        rintro ⟨before, other, after, inner, part, rfl, rfl, hpart⟩
        refine ⟨tree :: before, other, after, inner, part, rfl, ?_, hpart⟩
        rw [atomsAll, List.length_append, Nat.add_assoc]

end

-- Parts are written inside of the whole and nothing else is, since no tree begins another one.
theorem partAt_iff {tree part : Tree} {index : Nat} :
    tree.PartAt index part ↔ part.atoms <+: tree.atoms.drop index := by
  constructor
  · exact PartAt.written
  · intro h
    have hfirst := h
    rw [part.atoms_eq_cons] at hfirst
    obtain ⟨hatom, -⟩ := cons_prefix_drop_iff.mp hfirst
    rcases partAt_or_isLast tree index _ hatom with ⟨found, hfound⟩ | hlast
    · obtain ⟨rest, hrest⟩ := h
      obtain ⟨behind, hbehind⟩ := hfound.written
      obtain ⟨rfl, -⟩ := atoms_prefix_free (hrest.trans hbehind.symm)
      exact hfound
    · rw [part.isLast_head] at hlast
      contradiction

end Tree

namespace Ty

theorem table_iff (tree : Tree) (members : List Member) :
    (if tree.isTuple then memberTable? tree.atoms = some members else members = []) ↔
      members = tree.members := by
  cases tree with
  | tuple elements => simp only [Tree.isTuple, if_true, memberTable?_tuple, Option.some.injEq, eq_comm]
  | _ => rfl

theorem Describes.tree?_eq {ty : Ty} {tree : Tree} (h : ty.Describes tree) :
    ty.tree? = some tree := by
  rw [Ty.tree?, Atom.tree?, h.atoms, Skeleton.read?_atoms]
  exact tree.tree?_skeleton

end Ty

-- A type is well-formed if and only if it is a written tree with the table that goes with it. The
-- tree is then read back, and an end is found for its parts and for nothing else. On any atoms at
-- all the end is where one descent through them stops.
theorem isWellFormed_iff_written (ty : Ty) :
    (ty.isWellFormed = true ↔ ∃ tree : Tree, ty.atoms = tree.atoms ∧
      if tree.isTuple then Ty.memberTable? ty.atoms = some ty.members else ty.members = []) ∧
    (ty.isWellFormed = true → ∃ tree : Tree, ty.tree? = some tree ∧ tree.atoms = ty.atoms ∧
      ty.members = tree.members ∧ (∀ other : Tree, other.atoms = ty.atoms → other = tree) ∧
      (∀ index part, tree.PartAt index part →
        Atom.endOf? ty.atoms index = some (index + part.atoms.length) ∧
        Atom.typeEnd? ty.atoms index = some (index + part.atoms.length)) ∧
      ∀ index stop, Atom.typeEnd? ty.atoms index = some stop →
        ∃ part, tree.PartAt index part ∧ stop = index + part.atoms.length) ∧
    ∀ index, (Atom.typeStop? ty.atoms index).map Subtype.val = Atom.typeEnd? ty.atoms index := by
  refine ⟨?_, ?_, Atom.stopAt?_eq_typeEnd? ty.atoms⟩
  · rw [Ty.isWellFormed_iff]
    constructor
    · rintro ⟨tree, hatoms, hmembers⟩
      refine ⟨tree, hatoms, ?_⟩
      rw [hatoms]
      exact (Ty.table_iff tree ty.members).mpr hmembers
    · rintro ⟨tree, hatoms, htable⟩
      rw [hatoms] at htable
      exact ⟨tree, hatoms, (Ty.table_iff tree ty.members).mp htable⟩
  · intro h
    obtain ⟨tree, hdescribes⟩ := Ty.isWellFormed_iff.mp h
    refine ⟨tree, hdescribes.tree?_eq, hdescribes.atoms.symm, hdescribes.members, ?_, ?_, ?_⟩
    · intro other hother
      exact Tree.atoms_injective (hother.trans hdescribes.atoms)
    · intro index part hpart
      have hprefix : part.atoms <+: ty.atoms.drop index := hdescribes.atoms ▸ hpart.written
      exact ⟨Atom.endOf?_written hprefix, Atom.typeEnd?_eq_some_iff.mpr ⟨part, hprefix, rfl⟩⟩
    · intro index stop hstop
      obtain ⟨part, hprefix, rfl⟩ := Atom.typeEnd?_eq_some_iff.mp hstop
      exact ⟨part, Tree.partAt_iff.mpr (hdescribes.atoms ▸ hprefix), rfl⟩

-- A number and three functions that take nothing.
def Tree.callbacks : Tree :=
  .tuple [.prim .i32, .array (.func (.prim .f64) (.tuple [])) 3]

theorem isWellFormed_iff_written_callbacks :
    (Ty.ofAtoms Tree.callbacks.atoms).isWellFormed = true ∧
      (Ty.ofAtoms Tree.callbacks.atoms).tree? = some Tree.callbacks ∧
      Tree.callbacks.PartAt 5 (.tuple []) ∧
      Atom.endOf? (Ty.ofAtoms Tree.callbacks.atoms).atoms 5 = some 7 ∧
      Atom.typeEnd? (Ty.ofAtoms Tree.callbacks.atoms).atoms 5 = some 7 := by
  have hwell : (Ty.ofAtoms Tree.callbacks.atoms).isWellFormed = true := by decide +kernel
  have hinner : (Tree.func (.prim .f64) (.tuple [])).PartAt 2 (.tuple []) :=
    .argument (.whole (.tuple []))
  have hpart : Tree.callbacks.PartAt 5 (.tuple []) :=
    @Tree.PartAt.element [.prim .i32] [] _ _ 3 (.array hinner)
  obtain ⟨tree, htree, -, -, hunique, hends, -⟩ :=
    (isWellFormed_iff_written (Ty.ofAtoms Tree.callbacks.atoms)).2.1 hwell
  cases hunique Tree.callbacks rfl
  exact ⟨hwell, htree, hpart, hends 5 _ hpart⟩

end Sluice

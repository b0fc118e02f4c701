import Mathlib
import Sluice.Proofs.Trees

namespace Sluice

namespace Tree

-- The members of a tuple from `position` on, as `Ty.memberRows` numbers them.
def rows : Nat → Nat → Nat → List Tree → List Member
  | _, _, _, [] => []
  | position, index, offset, tree :: rest =>
      ⟨Ty.memberName position, UInt64.ofNat index, UInt32.ofNat offset⟩ ::
        rows (position + 1) (index + tree.atoms.length) (offset + tree.size) rest

def members : Tree → List Member
  | .tuple elements => rows 1 1 0 elements
  | _ => []

def isTuple : Tree → Bool
  | .tuple _ => true
  | _ => false

def isFunc : Tree → Bool
  | .func _ _ => true
  | _ => false

theorem memberRows_skeletons (position index offset : Nat) (trees : List Tree) :
    Ty.memberRows position index offset (skeletons trees) =
      some (rows position index offset trees) := by
  induction trees generalizing position index offset with
  | nil => rfl
  | cons tree rest ih =>
      simp only [skeletons, Ty.memberRows, size?_skeleton, atoms_skeleton, ih, Option.map, rows]

theorem length_rows (position index offset : Nat) (trees : List Tree) :
    (rows position index offset trees).length = trees.length := by
  induction trees generalizing position index offset with
  | nil => rfl
  | cons tree rest ih => simp [rows, ih]

theorem rows_append (position index offset : Nat) (left right : List Tree) :
    rows position index offset (left ++ right) =
      rows position index offset left ++
        rows (position + left.length) (index + (atomsAll left).length) (offset + sizeAll left)
          right := by
  induction left generalizing position index offset with
  | nil => simp [rows, atomsAll, sizeAll]
  | cons tree left ih =>
      simp only [List.cons_append, rows, ih, atomsAll, sizeAll, List.length_append,
        List.length_cons, List.cons.injEq, true_and]
      congr 2 <;> omega

end Tree

namespace Ty

-- The type is this tree written down, and its table is the one that the atoms determine.
structure Describes (ty : Ty) (tree : Tree) : Prop where
  atoms : ty.atoms = tree.atoms
  members : ty.members = tree.members

theorem memberTable?_tuple (elements : List Tree) :
    memberTable? (Tree.tuple elements).atoms = some (Tree.tuple elements).members := by
  simp only [memberTable?, Skeleton.read?_atoms, Tree.skeleton, Tree.memberRows_skeletons,
    Tree.members]

theorem startsWith_tuple (tree : Tree) : startsWith .tuple tree.atoms = tree.isTuple := by
  cases tree <;> simp [startsWith, Tree.atoms, Tree.isTuple]

theorem startsWith_func (tree : Tree) : startsWith .func tree.atoms = tree.isFunc := by
  cases tree <;> simp [startsWith, Tree.atoms, Tree.isFunc]

theorem describes_ofAtoms (tree : Tree) : (ofAtoms tree.atoms).Describes tree := by
  refine ⟨rfl, ?_⟩
  simp only [ofAtoms, startsWith_tuple]
  cases tree with
  | tuple elements => rw [memberTable?_tuple]; rfl
  | _ => rfl

theorem isWellFormed_iff {ty : Ty} :
    ty.isWellFormed = true ↔ ∃ tree : Tree, ty.Describes tree := by
  simp only [isWellFormed, Bool.and_eq_true, decide_eq_true_eq, Atom.typeEnd?_eq_length_iff]
  constructor
  · rintro ⟨⟨tree, htree⟩, hmembers⟩
    refine ⟨tree, htree, ?_⟩
    simp only [isTuple, htree, startsWith_tuple] at hmembers
    cases tree with
    | tuple elements =>
        rw [Tree.isTuple, if_pos rfl, decide_eq_true_eq, memberTable?_tuple] at hmembers
        exact (Option.some.inj hmembers).symm
    | _ => simpa [Tree.isTuple, Tree.members] using hmembers
  · rintro ⟨tree, hatoms, hmembers⟩
    refine ⟨⟨tree, hatoms⟩, ?_⟩
    simp only [isTuple, hatoms, startsWith_tuple, hmembers]
    cases tree with
    | tuple elements => simp [Tree.isTuple, memberTable?_tuple]
    | _ => simp [Tree.isTuple, Tree.members]

namespace Describes

variable {ty : Ty} {tree : Tree}

theorem unique {other : Tree} (h : ty.Describes tree) (h' : ty.Describes other) :
    tree = other :=
  Tree.atoms_injective (h.atoms.symm.trans h'.atoms)

theorem close (h : ty.Describes tree) : ty.close.Describes tree :=
  ⟨h.atoms, h.members⟩

theorem isTuple_eq (h : ty.Describes tree) : ty.isTuple = tree.isTuple := by
  rw [Ty.isTuple, h.atoms, startsWith_tuple]

theorem isFunc_eq (h : ty.Describes tree) : ty.isFunc = tree.isFunc := by
  rw [Ty.isFunc, h.atoms, startsWith_func]

theorem exactSize? (h : ty.Describes tree) : Atom.exactSize? ty.atoms = some tree.size := by
  simp [Atom.exactSize?, h.atoms, Skeleton.read?_atoms, Tree.size?_skeleton]

theorem size? (h : ty.Describes tree) : ty.size? = some (UInt32.ofNat tree.size) := by
  simp [Ty.size?, Atom.size?, h.exactSize?]

theorem same_iff {other : Ty} {otherTree : Tree} (h : ty.Describes tree)
    (h' : other.Describes otherTree) : ty.same other = true ↔ tree = otherTree := by
  simp [Ty.same, h.atoms, h'.atoms, Tree.atoms_inj]

theorem numeric?_eq (h : ty.Describes tree) :
    ty.numeric? =
      match tree with
      | .prim primitive => if primitive.isNumeric then some primitive else none
      | _ => none := by
  unfold Ty.numeric?
  rw [h.atoms]
  cases tree with
  | prim primitive => rfl
  | tuple elements => simp [Tree.atoms]
  | array element count => simp [Tree.atoms]
  | func result argument => simp [Tree.atoms]

end Describes

theorem describes_ofPrimitive (primitive : Primitive) :
    (ofPrimitive primitive).Describes (.prim primitive) :=
  ⟨rfl, rfl⟩

theorem describes_array {element : Ty} {tree : Tree} (h : element.Describes tree)
    (count : UInt32) : (array element count).Describes (.array tree count) := by
  rw [array, h.atoms]
  exact describes_ofAtoms (.array tree count)

theorem describes_func {result argument : Ty} {resultTree argumentTree : Tree}
    (hresult : result.Describes resultTree) (hargument : argument.Describes argumentTree) :
    (func result argument).Describes (.func resultTree argumentTree) := by
  rw [func, hresult.atoms, hargument.atoms]
  exact describes_ofAtoms (.func resultTree argumentTree)

theorem exists_trees {elements : List Ty} (h : ∀ element ∈ elements, element.isWellFormed = true) :
    ∃ trees, List.Forall₂ Describes elements trees := by
  induction elements with
  | nil => exact ⟨[], .nil⟩
  | cons element rest ih =>
      obtain ⟨tree, htree⟩ := isWellFormed_iff.mp (h element List.mem_cons_self)
      obtain ⟨trees, htrees⟩ := ih fun other hother => h other (List.mem_cons_of_mem _ hother)
      exact ⟨tree :: trees, .cons htree htrees⟩

theorem describes_tuple {types : List Ty} {trees : List Tree}
    (h : List.Forall₂ Describes types trees) : (tuple types).Describes (.tuple trees) := by
  have hatoms : types.flatMap Ty.atoms = Tree.atomsAll trees := by
    induction h with
    | nil => rfl
    | cons hhead _ ih => simp [Tree.atomsAll, hhead.atoms, ih]
  rw [tuple, hatoms]
  exact describes_ofAtoms (.tuple trees)

-- The part behind some atoms, if these atoms stand in front of a tree.
theorem inner?_tree (before : List Atom) (tree : Tree) (rest : List Atom) :
    inner? (before ++ tree.atoms ++ rest) before.length = some (ofAtoms tree.atoms) := by
  simp [inner?, Skeleton.read?_tree, Tree.atoms_skeleton]

namespace Describes

variable {ty : Ty}

theorem result? {result argument : Tree} (h : ty.Describes (.func result argument)) :
    ty.result? = some (ofAtoms result.atoms) := by
  have hinner := inner?_tree [.func] result (argument.atoms ++ [.close])
  rw [Ty.result?, h.isFunc_eq, h.atoms]
  simpa [Tree.isFunc, Tree.atoms] using hinner

theorem argument? {result argument : Tree} (h : ty.Describes (.func result argument)) :
    ty.argument? = some (ofAtoms argument.atoms) := by
  have hend : Atom.endOf? (Tree.func result argument).atoms 1 =
      some (1 + result.atoms.length) := by
    simp only [Atom.endOf?, Tree.atoms, List.drop_succ_cons, List.drop_zero, List.append_assoc,
      Skeleton.read?_tree, Option.map_some, Tree.missing_skeleton, Option.some.injEq]
    simp only [List.length_cons, List.length_append]
    omega
  have hinner := inner?_tree (.func :: result.atoms) argument [.close]
  rw [Ty.argument?, h.isFunc_eq, h.atoms, Tree.isFunc, if_pos rfl, hend, Option.bind_some]
  simpa [Tree.atoms, Nat.add_comm] using hinner

theorem eq_func (h : ty.isFunc = true) {tree : Tree} (htree : ty.Describes tree) :
    ∃ result argument, tree = .func result argument := by
  rw [htree.isFunc_eq] at h
  cases tree with
  | func result argument => exact ⟨result, argument, rfl⟩
  | _ => simp [Tree.isFunc] at h

theorem eq_tuple (h : ty.isTuple = true) {tree : Tree} (htree : ty.Describes tree) :
    ∃ elements, tree = .tuple elements := by
  rw [htree.isTuple_eq] at h
  cases tree with
  | tuple elements => exact ⟨elements, rfl⟩
  | _ => simp [Tree.isTuple] at h

end Describes

-- Types whose member table points at the right atoms: an index has 64 bits.
def Indexable (ty : Ty) : Prop := ty.atoms.length < UInt64.size

instance (ty : Ty) : Decidable ty.Indexable :=
  inferInstanceAs (Decidable (ty.atoms.length < UInt64.size))

-- The element of a tuple behind some others, found through its place.
theorem inner?_element {before after : List Tree} {tree : Tree} {ty : Ty}
    (h : ty.Describes (.tuple (before ++ tree :: after))) :
    inner? ty.atoms (1 + (Tree.atomsAll before).length) = some (ofAtoms tree.atoms) := by
  have hinner := inner?_tree (.tuple :: Tree.atomsAll before) tree
    (Tree.atomsAll after ++ [.close])
  rw [h.atoms]
  simpa [Tree.atoms, Tree.atomsAll, Nat.add_comm] using hinner

private theorem index_lt {before after : List Tree} {tree : Tree} {ty : Ty}
    (h : ty.Describes (.tuple (before ++ tree :: after))) :
    1 + (Tree.atomsAll before).length < ty.atoms.length := by
  rw [h.atoms]
  simp only [Tree.atoms, Tree.atomsAll_append, List.length_cons, List.length_append,
    List.length_nil]
  omega

theorem toNat_index {before after : List Tree} {tree : Tree} {ty : Ty}
    (h : ty.Describes (.tuple (before ++ tree :: after))) (hindexable : ty.Indexable) :
    (UInt64.ofNat (1 + (Tree.atomsAll before).length)).toNat =
      1 + (Tree.atomsAll before).length :=
  UInt64.toNat_ofNat_of_lt' (Nat.lt_trans (index_lt h) hindexable)

-- A row of the table and the element it stands for. The induction goes over the elements that are
-- left, with those in front of them kept.
private theorem find?_rows {name : String} {row : Member} (before trees : List Tree)
    (h : (Tree.rows (1 + before.length) (1 + (Tree.atomsAll before).length)
      (Tree.sizeAll before) trees).find? (·.name = name) = some row) :
    ∃ front tree after, before ++ trees = front ++ tree :: after ∧
      name = memberName (1 + front.length) ∧
      row = ⟨memberName (1 + front.length),
        UInt64.ofNat (1 + (Tree.atomsAll front).length), UInt32.ofNat (Tree.sizeAll front)⟩ := by
  induction trees generalizing before with
  | nil => simp [Tree.rows] at h
  | cons tree rest ih =>
      rw [Tree.rows, List.find?_cons] at h
      split at h
      · rename_i hname
        cases h
        exact ⟨before, tree, rest, rfl, by simpa using (of_decide_eq_true hname).symm, rfl⟩
      · obtain ⟨front, found, after, hsplit, hname, hrow⟩ := ih (before ++ [tree]) (by
          simpa [Tree.atomsAll, Tree.sizeAll, Nat.add_assoc] using h)
        exact ⟨front, found, after, by simpa using hsplit, hname, hrow⟩

theorem member?_tuple {elements : List Tree} {ty : Ty} {name : String} {row : Member}
    (h : ty.Describes (.tuple elements)) (hrow : ty.member? name = some row) :
    ∃ front tree after, elements = front ++ tree :: after ∧
      name = memberName (1 + front.length) ∧
      row = ⟨memberName (1 + front.length),
        UInt64.ofNat (1 + (Tree.atomsAll front).length), UInt32.ofNat (Tree.sizeAll front)⟩ := by
  rw [member?, h.members, Tree.members] at hrow
  exact find?_rows [] elements hrow

private theorem mapM_rows {ty : Ty} (before trees : List Tree)
    (h : ty.Describes (.tuple (before ++ trees))) (hindexable : ty.Indexable) :
    (Tree.rows (1 + before.length) (1 + (Tree.atomsAll before).length)
      (Tree.sizeAll before) trees).mapM (fun row => inner? ty.atoms row.index.toNat) =
      some (trees.map fun tree => ofAtoms tree.atoms) := by
  induction trees generalizing before with
  | nil => rfl
  | cons tree rest ih =>
      have hrest := ih (before ++ [tree]) (by simpa using h)
      simp only [List.length_append, List.length_singleton, Tree.atomsAll_append,
        Tree.sizeAll_append, Tree.atomsAll, Tree.sizeAll, List.append_nil, Nat.add_zero] at hrest
      simp only [Tree.rows, List.mapM_cons, toNat_index h hindexable, inner?_element h,
        Nat.add_assoc, hrest, List.map_cons]
      rfl

theorem elements?_tuple {elements : List Tree} {ty : Ty} (h : ty.Describes (.tuple elements))
    (hindexable : ty.Indexable) :
    ty.elements? = some (elements.map fun tree => ofAtoms tree.atoms) := by
  rw [elements?, h.members, Tree.members]
  exact mapM_rows [] elements h hindexable

-- The tree of a comma: an open tuple on the left takes the right side up.
def joined (leftOpen : Bool) (left right : Tree) : Tree :=
  match leftOpen, left with
  | true, .tuple elements => .tuple (elements ++ [right])
  | _, left => .tuple [left, right]

theorem size_joined (leftOpen : Bool) (left right : Tree) :
    (joined leftOpen left right).size = left.size + right.size := by
  unfold joined
  split <;> simp [Tree.size, Tree.sizeAll]

def isOpen (ty : Ty) : Bool := ty.isTuple && !ty.isClosed

theorem append?_describes {left right : Ty} {leftTree rightTree : Tree}
    (hleft : left.Describes leftTree) (hright : right.Describes rightTree) :
    ∃ whole, left.append? right = some whole ∧
      whole.Describes (joined left.isOpen leftTree rightTree) ∧ whole.isClosed = false := by
  simp only [append?, hleft.size?, Option.map_some]
  refine ⟨_, rfl, ?_, rfl⟩
  cases hopen : left.isOpen with
  | false =>
      have hopen' : (left.isTuple && !left.isClosed) = false := hopen
      simp only [hopen', joined, Bool.false_eq_true, if_false]
      constructor
      · simp [Tree.atoms, Tree.atomsAll, hleft.atoms, hright.atoms]
      · simp [Tree.members, Tree.rows, hleft.atoms, Nat.add_comm]
  | true =>
      have hopen' : (left.isTuple && !left.isClosed) = true := hopen
      obtain ⟨elements, rfl⟩ := Describes.eq_tuple (Bool.and_eq_true_iff.mp hopen').1 hleft
      have hdrop : (Tree.tuple elements).atoms.dropLast = .tuple :: Tree.atomsAll elements := by
        rw [Tree.atoms, ← List.cons_append, List.dropLast_concat]
      simp only [hopen', joined, if_true, hleft.atoms, hdrop]
      constructor
      · simp [Tree.atoms, Tree.atomsAll, hright.atoms]
      · simp [Tree.members, Tree.rows, Tree.rows_append, Tree.length_rows, hleft.members,
          Tree.size, Nat.add_comm]

theorem numeric?_eq_some {ty : Ty} {primitive : Primitive} (h : ty.numeric? = some primitive) :
    ty.atoms = [.prim primitive] ∧ primitive.isNumeric = true := by
  unfold numeric? at h
  split at h
  · rename_i found hatoms
    split at h
    · rename_i hnumeric
      cases h
      exact ⟨hatoms, hnumeric⟩
    · contradiction
  · contradiction

-- The size of a type before it is cut down to a word.
def extent (ty : Ty) : Nat := (Atom.exactSize? ty.atoms).getD 0

theorem Describes.extent_eq {ty : Ty} {tree : Tree} (h : ty.Describes tree) :
    ty.extent = tree.size := by
  simp [extent, h.exactSize?]

theorem size?_eq_extent {ty : Ty} (h : ty.isWellFormed = true) :
    ty.size? = some (UInt32.ofNat ty.extent) := by
  obtain ⟨tree, htree⟩ := isWellFormed_iff.mp h
  rw [htree.size?, htree.extent_eq]

theorem extent_ofPrimitive (primitive : Primitive) :
    (ofPrimitive primitive).extent = primitive.width := by
  rw [(describes_ofPrimitive primitive).extent_eq, Tree.size]

theorem extent_of_isFunc {ty : Ty} (h : ty.isWellFormed = true) (hfunc : ty.isFunc = true) :
    ty.extent = handleWidth := by
  obtain ⟨tree, htree⟩ := isWellFormed_iff.mp h
  obtain ⟨result, argument, rfl⟩ := Describes.eq_func hfunc htree
  rw [htree.extent_eq, Tree.size]

theorem extent_append? {left right whole : Ty} (hleft : left.isWellFormed = true)
    (hright : right.isWellFormed = true) (h : left.append? right = some whole) :
    whole.extent = left.extent + right.extent := by
  obtain ⟨leftTree, hleft⟩ := isWellFormed_iff.mp hleft
  obtain ⟨rightTree, hright⟩ := isWellFormed_iff.mp hright
  obtain ⟨found, hfound, hdescribes, -⟩ := append?_describes hleft hright
  cases h.symm.trans hfound
  rw [hdescribes.extent_eq, size_joined, hleft.extent_eq, hright.extent_eq]

end Ty

end Sluice

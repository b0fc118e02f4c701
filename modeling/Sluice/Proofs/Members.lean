import Mathlib
import Sluice.Proofs.Types

namespace Sluice

private theorem Ty.memberName_inj {left right : Nat} :
    Ty.memberName left = Ty.memberName right ↔ left = right := by
  simp only [Ty.memberName, String.append_right_inj]
  exact Nat.repr_inj

namespace Tree

theorem getElem?_rows (position index offset : Nat) (trees : List Tree) (k : Nat) :
    (rows position index offset trees)[k]? =
      trees[k]?.map fun _ =>
        ⟨Ty.memberName (position + k), UInt64.ofNat (index + (atomsAll (trees.take k)).length),
          UInt32.ofNat (offset + sizeAll (trees.take k))⟩ := by
  induction trees generalizing position index offset k with
  | nil => simp [rows]
  | cons tree rest ih =>
      cases k with
      | zero => simp [rows, atomsAll, sizeAll]
      | succ k =>
          simp only [rows, List.getElem?_cons_succ, ih, List.take_succ_cons, atomsAll, sizeAll,
            List.length_append, Nat.add_assoc, Nat.add_comm 1 k]

-- The names of the rows are all different, so the name of a row finds it.
theorem find?_rows_memberName (position index offset : Nat) (trees : List Tree) (k : Nat) :
    (rows position index offset trees).find? (·.name = Ty.memberName (position + k)) =
      (rows position index offset trees)[k]? := by
  induction trees generalizing position index offset k with
  | nil => simp [rows]
  | cons tree rest ih =>
      cases k with
      | zero => simp [rows]
      | succ k =>
          have hname : Ty.memberName position ≠ Ty.memberName (position + (k + 1)) := by
            rw [Ne, Ty.memberName_inj]
            omega
          have hrest := ih (position + 1) (index + tree.atoms.length) (offset + tree.size) k
          rw [Nat.add_assoc, Nat.add_comm 1 k] at hrest
          rw [rows, List.find?_cons_of_neg (by simpa using hname), List.getElem?_cons_succ, hrest]

theorem size_le_sizeAll {tree : Tree} {trees : List Tree} (h : tree ∈ trees) :
    tree.size ≤ sizeAll trees := by
  rw [sizeAll_eq_sum]
  exact List.le_sum_of_mem (List.mem_map_of_mem h)

theorem sizeAll_take_le (trees : List Tree) (k : Nat) : sizeAll (trees.take k) ≤ sizeAll trees := by
  have hsplit := sizeAll_append (trees.take k) (trees.drop k)
  rw [List.take_append_drop] at hsplit
  omega

end Tree

namespace Ty

-- The tuple has these elements, up to tables and marks.
def Lists (ty : Ty) (elements : List Ty) : Prop :=
  ∃ found, ty.elements? = some found ∧
    List.Forall₂ (fun left right => left.same right = true) found elements

theorem Describes.lists {ty : Ty} {trees : List Tree} (h : ty.Describes (.tuple trees))
    (hindexable : ty.Indexable) {elements : List Ty}
    (helements : List.Forall₂ Describes elements trees) : ty.Lists elements := by
  refine ⟨_, elements?_tuple h hindexable, ?_⟩
  rw [List.forall₂_map_left_iff]
  refine (helements.imp ?_).flip
  intro element tree helement
  exact ((describes_ofAtoms tree).same_iff helement).mpr rfl

theorem forall₂_describes_ofAtoms (trees : List Tree) :
    List.Forall₂ Describes (trees.map fun tree => ofAtoms tree.atoms) trees := by
  rw [List.forall₂_map_left_iff, List.forall₂_same]
  intro tree _
  exact describes_ofAtoms tree

-- The members stand in the order of their names, each of them is the element it numbers, and each
-- begins where those in front of it end.
structure Tiled (ty : Ty) (elements : List Ty) (sizes : List Nat) : Prop where
  listed : ty.elements? = some elements
  measured : elements.map (fun element => element.size?.map UInt32.toNat) = sizes.map some
  size : ty.size?.map UInt32.toNat = some sizes.sum
  count : ty.members.length = elements.length
  member : ∀ k element, elements[k]? = some element → ∃ row, ty.members[k]? = some row ∧
    ty.member? (memberName (k + 1)) = some row ∧
    inner? ty.atoms row.index.toNat = some element ∧ row.offset.toNat = (sizes.take k).sum

theorem Describes.toNat_size? {ty : Ty} {tree : Tree} (h : ty.Describes tree)
    (hsize : tree.size < UInt32.size) : ty.size?.map UInt32.toNat = some tree.size := by
  rw [h.size?, Option.map_some, UInt32.toNat_ofNat_of_lt' hsize]

theorem Describes.tiled {ty : Ty} {trees : List Tree} (h : ty.Describes (.tuple trees))
    (hindexable : ty.Indexable) (hsize : ty.extent < UInt32.size) :
    ty.Tiled (trees.map fun tree => ofAtoms tree.atoms) (trees.map Tree.size) := by
  rw [h.extent_eq] at hsize
  have hall : Tree.sizeAll trees < UInt32.size := hsize
  have hmembers : ty.members = Tree.rows 1 1 0 trees := h.members
  refine ⟨elements?_tuple h hindexable, ?_, ?_, ?_, ?_⟩
  · simp only [List.map_map, List.map_inj_left]
    intro tree htree
    have hle := Tree.size_le_sizeAll htree
    exact (describes_ofAtoms tree).toNat_size? (by omega)
  · rw [h.toNat_size? hsize, Tree.size, Tree.sizeAll_eq_sum]
  · rw [hmembers, Tree.length_rows, List.length_map]
  · intro k element helement
    rw [List.getElem?_map, Option.map_eq_some_iff] at helement
    obtain ⟨tree, htree, rfl⟩ := helement
    obtain ⟨hk, hget⟩ := List.getElem?_eq_some_iff.mp htree
    -- the elements in front of the member, the member and those behind it
    have hsplit : trees = trees.take k ++ tree :: trees.drop (k + 1) := by
      rw [← hget, ← List.drop_eq_getElem_cons hk, List.take_append_drop]
    have hplace : ty.Describes (.tuple (trees.take k ++ tree :: trees.drop (k + 1))) := by
      rwa [← hsplit]
    have hrow := Tree.getElem?_rows 1 1 0 trees k
    rw [htree, Option.map_some] at hrow
    refine ⟨_, hmembers ▸ hrow, ?_, ?_, ?_⟩
    · rw [member?, hmembers, Nat.add_comm k 1, Tree.find?_rows_memberName, hrow]
    · rw [toNat_index hplace hindexable, inner?_element hplace]
    · have hle := Tree.sizeAll_take_le trees k
      rw [Nat.zero_add, UInt32.toNat_ofNat_of_lt' (by omega), Tree.sizeAll_eq_sum, List.map_take]

end Ty

-- Pieces that lie side by side: every place is inside of one of them.
theorem existsUnique_of_lt_sum {sizes : List Nat} {place : Nat} (h : place < sizes.sum) :
    ∃! k, (sizes.take k).sum ≤ place ∧ ∃ size, sizes[k]? = some size ∧
      place < (sizes.take k).sum + size := by
  induction sizes generalizing place with
  | nil => simp at h
  | cons size rest ih =>
      rw [List.sum_cons] at h
      by_cases hfirst : place < size
      · refine ⟨0, by simpa using hfirst, ?_⟩
        intro k hk
        cases k with
        | zero => rfl
        | succ k =>
            have hle := hk.1
            rw [List.take_succ_cons, List.sum_cons] at hle
            omega
      · have hrest : place - size < rest.sum := by omega
        obtain ⟨k, ⟨hle, found, hfound, hlt⟩, hunique⟩ := ih hrest
        refine ⟨k + 1, ⟨?_, found, hfound, ?_⟩, ?_⟩
        · rw [List.take_succ_cons, List.sum_cons]
          omega
        · rw [List.take_succ_cons, List.sum_cons]
          omega
        · intro other hother
          obtain ⟨hbefore, width, hwidth, hbehind⟩ := hother
          cases other with
          | zero =>
              rw [List.getElem?_cons_zero, Option.some.injEq] at hwidth
              rw [List.take_zero, List.sum_nil] at hbehind
              omega
          | succ other =>
              rw [List.take_succ_cons, List.sum_cons] at hbefore hbehind
              rw [hunique other ⟨by omega, width, hwidth, by omega⟩]

namespace Ty.Tiled

variable {ty : Ty} {elements : List Ty} {sizes : List Nat}

theorem length_eq (h : ty.Tiled elements sizes) : elements.length = sizes.length := by
  simpa using congrArg List.length h.measured

-- A row and the size of its element, found at the same place.
theorem offset_eq (h : ty.Tiled elements sizes) {k : Nat} {row : Member}
    (hrow : ty.members[k]? = some row) : row.offset.toNat = (sizes.take k).sum := by
  obtain ⟨hk, -⟩ := List.getElem?_eq_some_iff.mp hrow
  rw [h.count] at hk
  obtain ⟨found, hfound, -, -, hoffset⟩ := h.member k _ (List.getElem?_eq_getElem hk)
  cases hrow.symm.trans hfound
  exact hoffset

theorem last_ends (h : ty.Tiled elements sizes) {row : Member} {size : Nat}
    (hrow : ty.members.getLast? = some row) (hsize : sizes.getLast? = some size) :
    row.offset.toNat + size = sizes.sum := by
  rw [List.getLast?_eq_getElem?, h.count, h.length_eq] at hrow
  have hsplit := List.dropLast_append_getLast? size hsize
  rw [h.offset_eq hrow, ← List.dropLast_eq_take]
  conv_rhs => rw [← hsplit, List.sum_append, List.sum_singleton]

theorem existsUnique_member (h : ty.Tiled elements sizes) {place : Nat}
    (hplace : place < sizes.sum) :
    ∃! k : Nat, ∃ (row : Member) (size : Nat), ty.members[k]? = some row ∧ sizes[k]? = some size ∧
      row.offset.toNat ≤ place ∧ place < row.offset.toNat + size := by
  obtain ⟨k, ⟨hle, size, hsize, hlt⟩, hunique⟩ := existsUnique_of_lt_sum hplace
  obtain ⟨hk, -⟩ := List.getElem?_eq_some_iff.mp hsize
  obtain ⟨row, hrow⟩ : ∃ row, ty.members[k]? = some row := by
    rw [← h.length_eq, ← h.count] at hk
    exact ⟨_, List.getElem?_eq_getElem hk⟩
  refine ⟨k, ⟨row, size, hrow, hsize, ?_, ?_⟩, ?_⟩
  · rwa [h.offset_eq hrow]
  · rwa [h.offset_eq hrow]
  · rintro other ⟨found, width, hfound, hwidth, hbefore, hbehind⟩
    rw [h.offset_eq hfound] at hbefore hbehind
    exact hunique other ⟨hbefore, width, hwidth, hbehind⟩

end Ty.Tiled

namespace Ty

theorem memberTable?_joined (isOpen : Bool) (left right : Tree) :
    memberTable? (joined isOpen left right).atoms = some (joined isOpen left right).members := by
  unfold joined
  split
  · exact memberTable?_tuple _
  · exact memberTable?_tuple _

private theorem length_atoms_append? {left right whole : Ty} (h : left.append? right = some whole) :
    left.atoms.length ≤ whole.atoms.length := by
  rw [append?, Option.map_eq_some_iff] at h
  obtain ⟨size, -, rfl⟩ := h
  cases hopen : left.isTuple && !left.isClosed with
  | false => simp; omega
  | true => simp; omega

private theorem append?_elements {left right whole : Ty} {leftTree rightTree : Tree}
    (hleft : left.Describes leftTree) (hright : right.Describes rightTree)
    (h : left.append? right = some whole)
    (hwhole : whole.Describes (joined left.isOpen leftTree rightTree))
    (hindexable : whole.Indexable) :
    if left.isOpen then ∃ front, left.elements? = some front ∧ whole.Lists (front ++ [right])
    else whole.Lists [left, right] := by
  cases hopen : left.isOpen with
  | false =>
      rw [hopen] at hwhole
      exact Describes.lists hwhole hindexable (.cons hleft (.cons hright .nil))
  | true =>
      obtain ⟨elements, rfl⟩ := Describes.eq_tuple (Bool.and_eq_true_iff.mp hopen).1 hleft
      rw [hopen] at hwhole
      have hfewer : left.Indexable := Nat.lt_of_le_of_lt (length_atoms_append? h) hindexable
      refine ⟨_, elements?_tuple hleft hfewer, Describes.lists hwhole hindexable ?_⟩
      exact List.rel_append (forall₂_describes_ofAtoms elements) (.cons hright .nil)

end Ty

-- A comma gives the tuple that its atoms alone determine, a tuple is covered by its members one
-- behind the other, and the parts of a tuple or of a function put together again are the same type.
theorem append_eq_indexed :
    (∀ left right : Ty, left.isWellFormed = true → right.isWellFormed = true →
      ∃ whole, left.append? right = some whole ∧ whole.isWellFormed = true ∧
        Ty.memberTable? whole.atoms = some whole.members ∧
        (∃ leftSize rightSize, left.size? = some leftSize ∧ right.size? = some rightSize ∧
          whole.size? = some (leftSize + rightSize) ∧
          (left.extent + right.extent < UInt32.size →
            (leftSize + rightSize).toNat = leftSize.toNat + rightSize.toNat)) ∧
        (whole.Indexable →
          if left.isOpen then ∃ front, left.elements? = some front ∧ whole.Lists (front ++ [right])
          else whole.Lists [left, right])) ∧
    (∀ ty : Ty, ty.isWellFormed = true → ty.isTuple = true → ty.Indexable →
      ty.extent < UInt32.size → ∃ elements sizes, ty.Tiled elements sizes ∧
        (∀ row size, ty.members.getLast? = some row → sizes.getLast? = some size →
          row.offset.toNat + size = sizes.sum) ∧
        ∀ place < sizes.sum, ∃! k : Nat, ∃ (row : Member) (size : Nat), ty.members[k]? = some row ∧
          sizes[k]? = some size ∧ row.offset.toNat ≤ place ∧ place < row.offset.toNat + size) ∧
    (∀ elements : List Ty, (∀ element ∈ elements, element.isWellFormed = true) →
      (Ty.tuple elements).Indexable → (Ty.tuple elements).Lists elements) ∧
    (∀ ty : Ty, ty.isWellFormed = true → ty.isTuple = true → ty.Indexable →
      ∃ elements, ty.elements? = some elements ∧ (Ty.tuple elements).same ty = true) ∧
    (∀ result argument : Ty, result.isWellFormed = true → argument.isWellFormed = true →
      ∃ foundResult foundArgument, (Ty.func result argument).result? = some foundResult ∧
        foundResult.same result = true ∧
        (Ty.func result argument).argument? = some foundArgument ∧
        foundArgument.same argument = true) ∧
    ∀ ty : Ty, ty.isWellFormed = true → ty.isFunc = true →
      ∃ result argument, ty.result? = some result ∧ ty.argument? = some argument ∧
        (Ty.func result argument).same ty = true := by
  refine ⟨?_, ?_, ?_, ?_, ?_, ?_⟩
  · intro left right hleft hright
    obtain ⟨leftTree, hleft⟩ := Ty.isWellFormed_iff.mp hleft
    obtain ⟨rightTree, hright⟩ := Ty.isWellFormed_iff.mp hright
    obtain ⟨whole, happend, hwhole, -⟩ := Ty.append?_describes hleft hright
    refine ⟨whole, happend, Ty.isWellFormed_iff.mpr ⟨_, hwhole⟩, ?_, ?_,
      Ty.append?_elements hleft hright happend hwhole⟩
    · rw [hwhole.atoms, hwhole.members, Ty.memberTable?_joined]
    · refine ⟨_, _, hleft.size?, hright.size?, ?_, ?_⟩
      · rw [hwhole.size?, Ty.size_joined, UInt32.ofNat_add]
      · intro hsize
        rw [hleft.extent_eq, hright.extent_eq] at hsize
        rw [← UInt32.ofNat_add, UInt32.toNat_ofNat_of_lt' hsize,
          UInt32.toNat_ofNat_of_lt' (by omega), UInt32.toNat_ofNat_of_lt' (by omega)]
  · intro ty hty htuple hindexable hsize
    obtain ⟨tree, htree⟩ := Ty.isWellFormed_iff.mp hty
    obtain ⟨trees, rfl⟩ := htree.eq_tuple htuple
    have htiled := htree.tiled hindexable hsize
    refine ⟨_, _, htiled, ?_, ?_⟩
    · intro row size hrow hlast
      exact htiled.last_ends hrow hlast
    · intro place hplace
      exact htiled.existsUnique_member hplace
  · intro elements helements hindexable
    obtain ⟨trees, htrees⟩ := Ty.exists_trees helements
    exact (Ty.describes_tuple htrees).lists hindexable htrees
  · intro ty hty htuple hindexable
    obtain ⟨tree, htree⟩ := Ty.isWellFormed_iff.mp hty
    obtain ⟨trees, rfl⟩ := htree.eq_tuple htuple
    refine ⟨_, Ty.elements?_tuple htree hindexable, ?_⟩
    have hagain := Ty.describes_tuple (Ty.forall₂_describes_ofAtoms trees)
    exact (hagain.same_iff htree).mpr rfl
  · intro result argument hresult hargument
    obtain ⟨resultTree, hresult⟩ := Ty.isWellFormed_iff.mp hresult
    obtain ⟨argumentTree, hargument⟩ := Ty.isWellFormed_iff.mp hargument
    have hfunc := Ty.describes_func hresult hargument
    refine ⟨_, _, hfunc.result?, ?_, hfunc.argument?, ?_⟩
    · exact ((Ty.describes_ofAtoms resultTree).same_iff hresult).mpr rfl
    · exact ((Ty.describes_ofAtoms argumentTree).same_iff hargument).mpr rfl
  · intro ty hty hfunc
    obtain ⟨tree, htree⟩ := Ty.isWellFormed_iff.mp hty
    obtain ⟨result, argument, rfl⟩ := htree.eq_func hfunc
    refine ⟨_, _, htree.result?, htree.argument?, ?_⟩
    have hagain := Ty.describes_func (Ty.describes_ofAtoms result) (Ty.describes_ofAtoms argument)
    exact (hagain.same_iff htree).mpr rfl

-- A tuple that a comma may still add to, with an array in it, and a function as what is added.
def Ty.begun : Ty :=
  ⟨[.tuple, .prim .i8, .array, .prim .f64, .count 2, .close], [⟨"_1", 1, 0⟩, ⟨"_2", 2, 1⟩], false⟩

def Ty.callback : Ty := .func (.ofPrimitive .i32) (.tuple [.ofPrimitive .str])

def Ty.extended : Ty :=
  ⟨[.tuple, .prim .i8, .array, .prim .f64, .count 2, .func, .prim .i32, .tuple, .prim .str, .close,
    .close, .close], [⟨"_1", 1, 0⟩, ⟨"_2", 2, 1⟩, ⟨"_3", 5, 17⟩], false⟩

theorem append_eq_indexed_begun :
    Ty.begun.isWellFormed = true ∧ Ty.callback.isWellFormed = true ∧
    Ty.begun.append? Ty.callback = some Ty.extended ∧ Ty.extended.isWellFormed = true ∧
    Ty.extended.extent < UInt32.size ∧ Ty.extended.Indexable ∧
    (∃ front, Ty.begun.elements? = some front ∧ Ty.extended.Lists (front ++ [Ty.callback])) ∧
    (∃ elements sizes, Ty.extended.Tiled elements sizes) ∧
    (Ty.tuple [.begun, .callback]).Lists [.begun, .callback] ∧
    (∃ elements, Ty.extended.elements? = some elements ∧
      (Ty.tuple elements).same .extended = true) ∧
    (∃ result argument, (Ty.func .begun .callback).result? = some result ∧
      result.same .begun = true ∧ (Ty.func .begun .callback).argument? = some argument ∧
      argument.same .callback = true) ∧
    ∃ result argument, Ty.callback.result? = some result ∧ Ty.callback.argument? = some argument ∧
      (Ty.func result argument).same .callback = true := by
  obtain ⟨happend, htiled, htuple, helements, hfunc, hparts⟩ := append_eq_indexed
  have hbegun : Ty.begun.isWellFormed = true := by decide +kernel
  have hcallback : Ty.callback.isWellFormed = true := by decide +kernel
  have hextended : Ty.begun.append? Ty.callback = some Ty.extended := by decide +kernel
  have hindexable : Ty.extended.Indexable := by decide +kernel
  have hextent : Ty.extended.extent < UInt32.size := by decide +kernel
  have hisTuple : Ty.extended.isTuple = true := by decide +kernel
  obtain ⟨whole, hwhole, hwell, -, -, hlists⟩ := happend _ _ hbegun hcallback
  cases hwhole.symm.trans hextended
  obtain ⟨elements, sizes, htiles, -⟩ := htiled _ hwell hisTuple hindexable hextent
  have hboth : ∀ element ∈ [Ty.begun, Ty.callback], element.isWellFormed = true := by
    decide +kernel
  exact ⟨hbegun, hcallback, hextended, hwell, hextent, hindexable, hlists hindexable,
    ⟨elements, sizes, htiles⟩, htuple _ hboth (by decide +kernel),
    helements _ hwell hisTuple hindexable, hfunc _ _ hbegun hcallback,
    hparts _ hcallback (by decide +kernel)⟩

end Sluice

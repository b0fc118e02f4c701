import Mathlib
import Sluice.Bytecode.File
import Sluice.Library.Standard
import Sluice.Program
import Sluice.Proofs.AtomRendering
import Sluice.Proofs.Codecs
import Sluice.Proofs.Members
import Sluice.Proofs.TypeTexts
import Sluice.Value

namespace Sluice

namespace Tree

mutual

-- The text of a value of the type, for bytes of just its size.
def shown : Tree → Bytes → String
  | .prim primitive, bytes => (Skeleton.primitiveText? primitive bytes).getD ""
  | .tuple elements, bytes => "(" ++ Text.joined "," (shownAll elements bytes) ++ ")"
  | .array element count, bytes =>
      "[" ++ Text.joined "," ((List.range count.toNat).map fun place =>
        element.shown ((bytes.drop (place * element.size)).take element.size)) ++ "]"
  | .func _ _, bytes => Skeleton.handleText bytes

-- Every element takes the first bytes that are left.
def shownAll : List Tree → Bytes → List String
  | [], _ => []
  | tree :: rest, bytes =>
      tree.shown (bytes.take tree.size) :: shownAll rest (bytes.drop tree.size)

end

-- An array is shown as as many elements of one type, side by side.
private theorem shownAll_replicate (count : Nat) (tree : Tree) (bytes : Bytes) :
    shownAll (List.replicate count tree) bytes = (List.range count).map fun place =>
      tree.shown ((bytes.drop (place * tree.size)).take tree.size) := by
  induction count generalizing bytes with
  | zero => rfl
  | succ count ih =>
      rw [List.replicate_succ, shownAll, ih, List.range_succ_eq_map, List.map_cons, List.map_map]
      simp [Function.comp_def, Nat.succ_mul, Nat.add_comm]

theorem shown_array (element : Tree) (count : UInt32) (bytes : Bytes) :
    shown (.array element count) bytes =
      "[" ++ Text.joined "," (shownAll (List.replicate count.toNat element) bytes) ++ "]" := by
  rw [shown, shownAll_replicate]

end Tree

namespace Skeleton

theorem isSome_primitiveText? {primitive : Primitive} {bytes : Bytes}
    (h : bytes.length = primitive.width) : (primitiveText? primitive bytes).isSome = true := by
  cases primitive <;>
    simp [primitiveText?, Scalar.read?, h, Primitive.isSigned, Primitive.isUnsigned]

-- An array is rendered as as many elements, side by side.
theorem renderTimes?_eq_renderAll? {part : Skeleton} {width : UInt32}
    (hwidth : part.width? = some width) (count : Nat) (bytes : Bytes) :
    renderTimes? width.toNat part.render? count bytes =
      renderAll? (List.replicate count part) bytes := by
  induction count generalizing bytes with
  | zero => rfl
  | succ count ih => simp [renderTimes?, List.replicate_succ, renderAll?, hwidth, ih]

end Skeleton

namespace Tree

theorem width?_skeleton (tree : Tree) : tree.skeleton.width? = some (.ofNat tree.size) := by
  rw [Skeleton.width?, size?_skeleton, Option.map_some]

theorem skeletons_replicate (count : Nat) (tree : Tree) :
    skeletons (List.replicate count tree) = List.replicate count tree.skeleton := by
  induction count with
  | zero => rfl
  | succ count ih => rw [List.replicate_succ, skeletons, ih, List.replicate_succ]

-- The bytes of a type are those that its size says, and they are shown if that size is the true one.
def Shows (tree : Tree) : Prop :=
  ∀ bytes : Bytes, bytes.length = tree.size % UInt32.size →
    tree.skeleton.render? bytes =
      if tree.size < UInt32.size then some (tree.shown bytes) else none

-- Elements side by side are shown if the bytes reach to the end of the last one. An element that is
-- too large takes up fewer bytes than it needs, and ends the walk.
private theorem renderAll?_skeletons {trees : List Tree} (h : ∀ tree ∈ trees, tree.Shows)
    {bytes : Bytes} (hbytes : bytes.length < UInt32.size) :
    Skeleton.renderAll? (skeletons trees) bytes =
      if sizeAll trees ≤ bytes.length then some (shownAll trees bytes) else none := by
  induction trees generalizing bytes with
  | nil => rw [if_pos (by rw [sizeAll]; omega)]; rfl
  | cons tree rest ih =>
      obtain ⟨htree, hrest⟩ := List.forall_mem_cons.mp h
      rw [skeletons, Skeleton.renderAll?, width?_skeleton, sizeAll]
      simp only [Option.bind_eq_bind, Option.bind_some, UInt32.toNat_ofNat']
      by_cases hwidth : tree.size % UInt32.size ≤ bytes.length
      · rw [Bytes.split?_of_le hwidth]
        simp only [Option.bind_some]
        rw [htree _ (by rw [List.length_take]; omega)]
        by_cases hsize : tree.size < UInt32.size
        · rw [Nat.mod_eq_of_lt hsize] at hwidth ⊢
          have hlength : (bytes.drop tree.size).length = bytes.length - tree.size :=
            List.length_drop
          rw [if_pos hsize, Option.bind_some, ih hrest (by omega), hlength]
          by_cases hall : sizeAll rest ≤ bytes.length - tree.size
          · rw [if_pos hall, if_pos (by omega), Option.bind_some, shownAll]
          · rw [if_neg hall, if_neg (by omega), Option.bind_none]
        · rw [if_neg hsize, if_neg (by omega), Option.bind_none]
      · have hle := Nat.mod_le tree.size UInt32.size
        rw [Bytes.split?_of_lt (Nat.lt_of_not_le hwidth), if_neg (by omega), Option.bind_none]

-- So they are shown on the bytes of their common size, if that is the true one.
theorem renderAll?_of_length {trees : List Tree} (h : ∀ tree ∈ trees, tree.Shows) {bytes : Bytes}
    (hlength : bytes.length = sizeAll trees % UInt32.size) :
    Skeleton.renderAll? (skeletons trees) bytes =
      if sizeAll trees < UInt32.size then some (shownAll trees bytes) else none := by
  have hlt := Nat.mod_lt (sizeAll trees) (show 0 < UInt32.size by decide)
  rw [renderAll?_skeletons h (hlength.trans_lt hlt), hlength]
  by_cases hsize : sizeAll trees < UInt32.size
  · rw [Nat.mod_eq_of_lt hsize, if_pos le_rfl, if_pos hsize]
  · rw [if_neg (by omega), if_neg hsize]

mutual

theorem shows (tree : Tree) : tree.Shows := by
  intro bytes hlength
  cases tree with
  | prim primitive =>
      have hwidth : primitive.width < UInt32.size := by cases primitive <;> decide
      rw [size, Nat.mod_eq_of_lt hwidth] at hlength
      obtain ⟨text, htext⟩ := Option.isSome_iff_exists.mp (Skeleton.isSome_primitiveText? hlength)
      rw [skeleton, Skeleton.render?, size, if_pos hwidth, shown, htext, Option.getD_some]
  | tuple elements =>
      rw [size] at hlength ⊢
      rw [skeleton, Skeleton.render?, renderAll?_of_length (shows_all elements) hlength, shown]
      split <;> rfl
  | array element count =>
      have helements : ∀ tree ∈ List.replicate count.toNat element, tree.Shows := by
        intro tree htree
        rw [List.eq_of_mem_replicate htree]
        exact shows element
      rw [size, Nat.mul_comm, ← sizeAll_replicate] at hlength ⊢
      rw [skeleton, Skeleton.render?, width?_skeleton, Option.bind_eq_bind, Option.bind_some,
        Skeleton.renderTimes?_eq_renderAll? (width?_skeleton element), ← skeletons_replicate,
        renderAll?_of_length helements hlength, shown_array]
      split <;> rfl
  | func result argument =>
      rw [skeleton, Skeleton.render?, if_pos (by rw [size]; decide), shown]

theorem shows_all (trees : List Tree) : ∀ tree ∈ trees, tree.Shows := by
  cases trees with
  | nil => simp
  | cons tree rest =>
      rw [List.forall_mem_cons]
      exact ⟨shows tree, shows_all rest⟩

end

end Tree

namespace Bytes

theorem toNat_inj {left right : Bytes} (hlength : left.length = right.length)
    (h : left.toNat = right.toNat) : left = right := by
  rw [← ofNat_toNat left, ← ofNat_toNat right, hlength, h]

theorem toInt_inj {left right : Bytes} (hlength : left.length = right.length)
    (h : left.toInt = right.toInt) : left = right := by
  have hleft := toNat_lt left
  have hright := toNat_lt right
  apply toNat_inj hlength
  unfold toInt at h
  rw [hlength] at h hleft
  split at h <;> split at h <;> omega

end Bytes

namespace Text

theorem toList_negSucc (n : Nat) :
    (toString (Int.negSucc n)).toList = '-' :: (toString (n + 1)).toList := by
  simp [toString, Int.repr]

theorem decimal_ne_minus {n : Nat} {p q : List Char} (hp : Undigited p) :
    (toString n).toList ++ p ≠ '-' :: q := by
  intro h
  have hdigits := takeWhile_decimal n hp
  rw [h, Nat.toString_eq_repr, Nat.toList_repr] at hdigits
  exact Nat.toDigits_ne_nil hdigits.symm

theorem integer_append_inj {i j : Int} {p q : List Char} (hp : Undigited p) (hq : Undigited q)
    (h : (toString i).toList ++ p = (toString j).toList ++ q) : i = j ∧ p = q := by
  cases i with
  | ofNat m =>
      cases j with
      | ofNat n =>
          obtain ⟨rfl, rfl⟩ := decimal_append_inj (m := m) (n := n) hp hq h
          exact ⟨rfl, rfl⟩
      | negSucc n =>
          rw [toList_negSucc] at h
          exact absurd h (decimal_ne_minus (n := m) hp)
  | negSucc m =>
      rw [toList_negSucc] at h
      cases j with
      | ofNat n => exact absurd h.symm (decimal_ne_minus (n := n) hq)
      | negSucc n =>
          rw [toList_negSucc, List.cons_append, List.cons_append, List.cons_inj_right] at h
          obtain ⟨hsucc, hrest⟩ := decimal_append_inj hp hq h
          exact ⟨by rw [Nat.succ.inj hsucc], hrest⟩

end Text

-- Integers and what holds them together.
def Atom.isIntegral : Atom → Bool
  | .prim primitive => primitive.isInteger
  | .func => false
  | _ => true

namespace Tree

-- The text of a value tells its bytes, whatever stands behind the text but a digit.
def Told (tree : Tree) : Prop :=
  ∀ left right : Bytes, left.length = tree.size → right.length = tree.size →
    ∀ p q : List Char, Text.Undigited p → Text.Undigited q →
      (tree.shown left).toList ++ p = (tree.shown right).toList ++ q → left = right ∧ p = q

theorem shown_prim {primitive : Primitive} {bytes : Bytes} (h : primitive.isInteger = true)
    (hlength : bytes.length = primitive.width) :
    shown (.prim primitive) bytes =
      toString (if primitive.isSigned then bytes.toInt else (bytes.toNat : Int)) := by
  cases primitive <;> simp_all [shown, Skeleton.primitiveText?, Scalar.read?, Scalar.rendered,
    Primitive.isInteger, Primitive.isSigned, Primitive.isUnsigned]

theorem told_prim {primitive : Primitive} (h : primitive.isInteger = true) :
    (prim primitive).Told := by
  intro left right hleft hright p q hp hq htexts
  rw [shown_prim h hleft, shown_prim h hright] at htexts
  obtain ⟨hvalues, hrest⟩ := Text.integer_append_inj hp hq htexts
  refine ⟨?_, hrest⟩
  split at hvalues
  · exact Bytes.toInt_inj (hleft.trans hright.symm) hvalues
  · exact Bytes.toNat_inj (hleft.trans hright.symm) (Int.ofNat.inj hvalues)

theorem undigited_behind (items : List String) {c : Char} (hc : c.isDigit = false)
    (chars : List Char) : Text.Undigited (Text.behind items ++ c :: chars) := by
  cases items with
  | nil => exact Text.undigited_cons hc chars
  | cons item items => exact Text.undigited_cons rfl _

-- Elements side by side, each told by its text up to the next comma or the closing bracket.
theorem told_behind {trees : List Tree} (h : ∀ tree ∈ trees, tree.Told) {c : Char}
    (hc : c.isDigit = false) {left right : Bytes} (hleft : left.length = sizeAll trees)
    (hright : right.length = sizeAll trees) {p q : List Char}
    (htexts : Text.behind (shownAll trees left) ++ c :: p =
      Text.behind (shownAll trees right) ++ c :: q) : left = right ∧ p = q := by
  induction trees generalizing left right with
  | nil =>
      rw [sizeAll, List.length_eq_zero_iff] at hleft hright
      exact ⟨hleft.trans hright.symm, List.tail_eq_of_cons_eq htexts⟩
  | cons tree rest ih =>
      rw [sizeAll] at hleft hright
      simp only [shownAll, Text.behind, List.flatMap_cons, List.cons_append, List.cons.injEq,
        true_and, List.append_assoc] at htexts
      obtain ⟨hfirst, hrest⟩ := h tree (List.mem_cons_self ..) _ _ (by simp [hleft])
        (by simp [hright]) _ _ (undigited_behind _ hc _) (undigited_behind _ hc _) htexts
      obtain ⟨hbehind, hends⟩ := ih (fun other hother => h other (List.mem_cons_of_mem _ hother))
        (by simp [hleft]) (by simp [hright]) hrest
      refine ⟨?_, hends⟩
      rw [← List.take_append_drop tree.size left, hfirst, hbehind, List.take_append_drop]

theorem told_joined {trees : List Tree} (h : ∀ tree ∈ trees, tree.Told) {c : Char}
    (hc : c.isDigit = false) {left right : Bytes} (hleft : left.length = sizeAll trees)
    (hright : right.length = sizeAll trees) {p q : List Char}
    (htexts : (Text.joined "," (shownAll trees left)).toList ++ c :: p =
      (Text.joined "," (shownAll trees right)).toList ++ c :: q) : left = right ∧ p = q := by
  apply told_behind h hc hleft hright
  cases trees with
  | nil => exact htexts
  | cons tree rest =>
      simp only [shownAll, Text.toList_joined_cons] at htexts
      simp only [shownAll, Text.behind, List.flatMap_cons, List.cons_append]
      exact congrArg (List.cons ',') htexts

mutual

theorem told_of_integral (tree : Tree) (h : ∀ atom ∈ tree.atoms, atom.isIntegral = true) :
    tree.Told := by
  cases tree with
  | prim primitive => exact told_prim (h _ (List.mem_singleton_self _))
  | tuple elements =>
      have helements := told_all_of_integral elements
        fun atom hatom => h atom (by simp [atoms, hatom])
      intro left right hleft hright p q hp hq htexts
      simp only [shown, String.toList_append, List.append_assoc] at htexts
      exact told_joined helements (c := ')') rfl hleft hright (List.append_cancel_left htexts)
  | array element count =>
      have helement := told_of_integral element fun atom hatom => h atom (by simp [atoms, hatom])
      intro left right hleft hright p q hp hq htexts
      simp only [shown_array, String.toList_append, List.append_assoc] at htexts
      rw [size, Nat.mul_comm, ← sizeAll_replicate] at hleft hright
      refine told_joined (fun tree htree => ?_) (c := ']') rfl hleft hright
        (List.append_cancel_left htexts)
      rwa [List.eq_of_mem_replicate htree]
  | func result argument => exact absurd (h .func (by simp [atoms])) (by decide)

theorem told_all_of_integral (trees : List Tree)
    (h : ∀ atom ∈ atomsAll trees, atom.isIntegral = true) : ∀ tree ∈ trees, tree.Told := by
  cases trees with
  | nil => simp
  | cons tree rest =>
      rw [List.forall_mem_cons]
      exact ⟨told_of_integral tree fun atom hatom => h atom (by simp [atomsAll, hatom]),
        told_all_of_integral rest fun atom hatom => h atom (by simp [atomsAll, hatom])⟩

end

end Tree

namespace Value

variable {value : Value}

theorem render?_eq {tree : Tree} (h : value.ty.Describes tree)
    (hlength : value.bytes.length = tree.size % UInt32.size) :
    value.render? = if tree.size < UInt32.size then some (tree.shown value.bytes) else none := by
  have hsplit := Bytes.split?_of_le (Nat.le_of_eq hlength.symm)
  rw [← hlength, List.take_length, List.drop_length, hlength] at hsplit
  rw [render?, h.atoms, Skeleton.read?_atoms]
  simp only [Option.bind_eq_bind, Option.bind_some, Tree.width?_skeleton, UInt32.toNat_ofNat']
  rw [hsplit]
  exact tree.shows _ hlength

theorem render?_eq_shown {tree : Tree} (h : value.ty.Describes tree)
    (hsize : tree.size < UInt32.size) (hlength : value.bytes.length = tree.size) :
    value.render? = some (tree.shown value.bytes) := by
  rw [render?_eq h (by rw [Nat.mod_eq_of_lt hsize, hlength]), if_pos hsize]

theorem isSome_render? (h : value.ty.isWellFormed = true) (hsize : value.ty.extent < UInt32.size)
    (hlength : value.ty.extent = value.bytes.length) : value.render?.isSome = true := by
  obtain ⟨tree, htree⟩ := Ty.isWellFormed_iff.mp h
  rw [htree.extent_eq] at hsize hlength
  rw [render?_eq_shown htree hsize hlength.symm, Option.isSome_some]

-- The value of a type that begins at an offset of this one.
def part? (value : Value) (ty : Ty) (offset : Nat) : Option Value :=
  ty.size?.bind fun size =>
    (value.bytes.slice? offset size.toNat).map fun bytes => ⟨ty, bytes⟩

theorem part?_eq_some {ty : Ty} (h : ty.isWellFormed = true) (hsize : ty.extent < UInt32.size)
    {offset : Nat} (hend : offset + ty.extent ≤ value.bytes.length) :
    value.part? ty offset = some ⟨ty, (value.bytes.drop offset).take ty.extent⟩ := by
  rw [part?, Ty.size?_eq_extent h, Option.bind_some, UInt32.toNat_ofNat_of_lt' hsize,
    Bytes.slice?, if_pos hend, Option.map_some]

-- The parts fill the value, one after the other, and its text is made of their texts.
def Joins (value : Value) (opening closing : String) (parts : List (Option Value)) : Prop :=
  ∃ (values : List Value) (texts : List String), parts = values.map some ∧
    values.flatMap bytes = value.bytes ∧ values.map render? = texts.map some ∧
    value.render? = some (opening ++ Text.joined "," texts ++ closing)

-- Values of the types, each on the first bytes that are left.
def placed : List Ty → Bytes → List Value
  | [], _ => []
  | ty :: tys, bytes => ⟨ty, bytes.take ty.extent⟩ :: placed tys (bytes.drop ty.extent)

theorem getElem?_placed (tys : List Ty) (bytes : Bytes) (k : Nat) :
    (placed tys bytes)[k]? = tys[k]?.map fun ty =>
      ⟨ty, (bytes.drop ((tys.take k).map Ty.extent).sum).take ty.extent⟩ := by
  induction tys generalizing bytes k with
  | nil => simp [placed]
  | cons ty tys ih =>
      cases k with
      | zero => simp [placed]
      | succ k => simp [placed, ih]

theorem flatMap_placed (tys : List Ty) {bytes : Bytes}
    (h : bytes.length = (tys.map Ty.extent).sum) :
    (placed tys bytes).flatMap Value.bytes = bytes := by
  induction tys generalizing bytes with
  | nil => exact (List.eq_nil_of_length_eq_zero h).symm
  | cons ty tys ih =>
      rw [List.map_cons, List.sum_cons] at h
      rw [placed, List.flatMap_cons, ih (by rw [List.length_drop]; omega), List.take_append_drop]

section Placed

variable {tys : List Ty} {trees : List Tree}

theorem isWellFormed_of_describes (h : List.Forall₂ Ty.Describes tys trees) :
    ∀ ty ∈ tys, ty.isWellFormed = true := by
  induction h with
  | nil => simp
  | cons hty _ ih => exact List.forall_mem_cons.mpr ⟨Ty.isWellFormed_iff.mpr ⟨_, hty⟩, ih⟩

theorem sum_extents (h : List.Forall₂ Ty.Describes tys trees) :
    (tys.map Ty.extent).sum = Tree.sizeAll trees := by
  induction h with
  | nil => rfl
  | cons hty _ ih => rw [List.map_cons, List.sum_cons, hty.extent_eq, ih, Tree.sizeAll]

private theorem map_render?_placed (h : List.Forall₂ Ty.Describes tys trees) {bytes : Bytes}
    (hlength : bytes.length = Tree.sizeAll trees) (hsize : Tree.sizeAll trees < UInt32.size) :
    (placed tys bytes).map render? = (Tree.shownAll trees bytes).map some := by
  induction h generalizing bytes with
  | nil => rfl
  | @cons ty tree tys trees hty _ ih =>
      rw [Tree.sizeAll] at hlength hsize
      have hfirst : (Value.mk ty (bytes.take tree.size)).render? =
          some (tree.shown (bytes.take tree.size)) :=
        render?_eq_shown hty (by omega) (by rw [List.length_take]; omega)
      rw [placed, Tree.shownAll, List.map_cons, List.map_cons, hty.extent_eq, hfirst,
        ih (by rw [List.length_drop]; omega) (by omega)]

-- Parts at the sums of the sizes before them fill the value.
theorem joins_of_parts (h : List.Forall₂ Ty.Describes tys trees)
    (hlength : value.bytes.length = Tree.sizeAll trees) (hsize : Tree.sizeAll trees < UInt32.size)
    {opening closing : String} (htext : value.render? =
      some (opening ++ Text.joined "," (Tree.shownAll trees value.bytes) ++ closing))
    {parts : List (Option Value)} (hparts : ∀ k : Nat, parts[k]? = tys[k]?.map fun ty =>
      value.part? ty ((tys.take k).map Ty.extent).sum) : value.Joins opening closing parts := by
  refine ⟨placed tys value.bytes, _, ?_, flatMap_placed tys (by rw [hlength, sum_extents h]),
    map_render?_placed h hlength hsize, htext⟩
  apply List.ext_getElem?
  intro k
  rw [hparts, List.getElem?_map, getElem?_placed, Option.map_map]
  cases hty : tys[k]? with
  | none => rfl
  | some ty =>
      have hsum : ((tys.take k).map Ty.extent).sum + ty.extent ≤ Tree.sizeAll trees := by
        have hsplit := congrArg (fun tys => (tys.map Ty.extent).sum) (tys.take_append_drop (k + 1))
        simp only [List.take_add_one, hty, Option.toList_some, List.map_append, List.sum_append,
          List.map_singleton, List.sum_singleton, sum_extents h] at hsplit
        omega
      have hwell := isWellFormed_of_describes h ty (List.mem_of_getElem? hty)
      rw [Option.map_some, part?_eq_some hwell (by omega) (by omega)]
      rfl

end Placed

-- The text of a tuple, taken from its table.
theorem joins_tuple {trees : List Tree} (h : value.ty.Describes (.tuple trees))
    (hlength : value.bytes.length = Tree.sizeAll trees) (hindexable : value.ty.Indexable)
    (hsize : Tree.sizeAll trees < UInt32.size) :
    value.Joins "(" ")" (value.ty.members.map fun row =>
      (Ty.inner? value.ty.atoms row.index.toNat).bind fun element =>
        value.part? element row.offset.toNat) := by
  have htiled := h.tiled hindexable (by rwa [h.extent_eq])
  have hdescribes :
      List.Forall₂ Ty.Describes (trees.map fun tree => Ty.ofAtoms tree.atoms) trees := by
    rw [List.forall₂_map_left_iff, List.forall₂_same]
    exact fun tree _ => Ty.describes_ofAtoms tree
  refine joins_of_parts hdescribes hlength hsize (render?_eq_shown h hsize hlength) ?_
  intro k
  rw [List.getElem?_map, List.getElem?_map]
  cases htree : trees[k]? with
  | none =>
      have hrow : value.ty.members[k]? = none := by
        rw [List.getElem?_eq_none_iff, htiled.count, List.length_map]
        exact List.getElem?_eq_none_iff.mp htree
      rw [hrow]
      rfl
  | some tree =>
      obtain ⟨row, hrow, -, hinner, hoffset⟩ := htiled.member k (Ty.ofAtoms tree.atoms)
        (by rw [List.getElem?_map, htree, Option.map_some])
      have hsum : (((trees.map fun tree => Ty.ofAtoms tree.atoms).take k).map Ty.extent).sum =
          ((trees.map Tree.size).take k).sum := by
        rw [List.map_take, List.map_map]
        simp only [Function.comp_def, (Ty.describes_ofAtoms _).extent_eq]
      simp only [hrow, Option.map_some, hinner, Option.bind_some, hoffset, hsum]

theorem joins_array {element : Tree} {count : UInt32}
    (h : value.ty.Describes (.array element count))
    (hlength : value.bytes.length = element.size * count.toNat)
    (hsize : element.size * count.toNat < UInt32.size) {ty : Ty} (hty : ty.Describes element) :
    value.Joins "[" "]" ((List.range count.toNat).map fun place =>
      value.part? ty (place * element.size)) := by
  have hdescribes : List.Forall₂ Ty.Describes (List.replicate count.toNat ty)
      (List.replicate count.toNat element) := by
    induction count.toNat with
    | zero => exact .nil
    | succ number ih => exact .cons hty ih
  rw [Nat.mul_comm, ← Tree.sizeAll_replicate] at hlength hsize
  refine joins_of_parts hdescribes hlength hsize ?_ ?_
  · have harray : (Tree.array element count).size =
        Tree.sizeAll (List.replicate count.toNat element) := by
      rw [Tree.size, Nat.mul_comm, Tree.sizeAll_replicate]
    rw [render?_eq_shown h (by rwa [harray]) (by rwa [harray]), Tree.shown_array]
  · intro k
    rw [List.getElem?_map, List.getElem?_replicate]
    by_cases hk : k < count.toNat
    · rw [List.getElem?_range hk, if_pos hk, List.take_replicate, List.map_replicate,
        List.sum_replicate, Nat.min_eq_left (Nat.le_of_lt hk), hty.extent_eq]
      rfl
    · rw [List.getElem?_eq_none (by simpa using hk), if_neg hk]
      rfl

end Value

-- A value is shown if the size of its type, of which its bytes are as many, is the true one, and then
-- all of its type and of its bytes is walked over. A tuple shows its members, each on the bytes that
-- the table gives to it, and an array shows its elements on one piece after the other. Integers, and
-- tuples and arrays of them, are known by their text.
theorem render_follows_layout (value : Value) (hty : value.ty.isWellFormed = true)
    (hlength : value.ty.size?.map UInt32.toNat = some value.bytes.length) :
    Atom.shownAt? value.ty.atoms 0 value.bytes = value.render?.map (fun text =>
      (text, value.ty.atoms.length, value.bytes.length)) ∧
    (value.render?.isSome = true ↔ value.ty.extent < UInt32.size) ∧
    (value.ty.extent < UInt32.size →
      (value.ty.isTuple = true → value.ty.Indexable →
        value.Joins "(" ")" (value.ty.members.map fun row =>
          (Ty.inner? value.ty.atoms row.index.toNat).bind fun element =>
            value.part? element row.offset.toNat)) ∧
      (∀ element count, element.isWellFormed = true →
        value.ty.same (.array element count) = true →
        ∃ width, element.size? = some width ∧
          value.Joins "[" "]" ((List.range count.toNat).map fun place =>
            value.part? element (place * width.toNat))) ∧
      ((∀ atom ∈ value.ty.atoms, atom.isIntegral = true) → ∀ other : Bytes,
        other.length = value.bytes.length →
        (Value.mk value.ty other).render? = value.render? → other = value.bytes)) := by
  obtain ⟨tree, htree⟩ := Ty.isWellFormed_iff.mp hty
  have hmod : value.bytes.length = tree.size % UInt32.size := by
    rw [htree.size?, Option.map_some, Option.some.injEq, UInt32.toNat_ofNat'] at hlength
    exact hlength.symm
  have hrender := Value.render?_eq htree hmod
  rw [htree.extent_eq]
  refine ⟨?_, ?_, fun hsize => ?_⟩
  · have hwritten := @Atom.shownAt?_written tree.atoms tree 0 value.bytes List.prefix_rfl
    rw [htree.atoms, hwritten, ← hmod, Bytes.split?_of_le le_rfl, Option.bind_some,
      List.take_length, tree.shows _ hmod, ← hrender, Nat.zero_add]
  · rw [hrender]
    split <;> simp_all
  rw [Nat.mod_eq_of_lt hsize] at hmod
  rw [if_pos hsize] at hrender
  refine ⟨?_, ?_, ?_⟩
  · intro htuple hindexable
    obtain ⟨trees, rfl⟩ := htree.eq_tuple htuple
    exact Value.joins_tuple htree hmod hindexable hsize
  · intro element count helement hsame
    obtain ⟨inner, hinner⟩ := Ty.isWellFormed_iff.mp helement
    obtain rfl := (htree.same_iff (Ty.describes_array hinner count)).mp hsame
    refine ⟨_, hinner.size?, ?_⟩
    -- Only an array without elements may have an element that is too large.
    have hparts : (List.range count.toNat).map (fun place =>
          value.part? element (place * (UInt32.ofNat inner.size).toNat)) =
        (List.range count.toNat).map fun place => value.part? element (place * inner.size) := by
      apply List.map_congr_left
      intro place hplace
      have hle := Nat.le_mul_of_pos_right inner.size (Nat.zero_lt_of_lt (List.mem_range.mp hplace))
      rw [UInt32.toNat_ofNat_of_lt' (hle.trans_lt hsize)]
    rw [hparts]
    exact Value.joins_array htree hmod hsize hinner
  · intro hintegral other hother htexts
    rw [htree.atoms] at hintegral
    rw [@Value.render?_eq_shown ⟨value.ty, other⟩ tree htree hsize (hother.trans hmod), hrender,
      Option.some.injEq] at htexts
    exact (Tree.told_of_integral tree hintegral other value.bytes (hother.trans hmod) hmod [] []
      (by simp [Text.Undigited]) (by simp [Text.Undigited]) (by rw [htexts])).1

-- A number, and an array of pairs whose second halves take up no bytes.
def Value.nested : Value :=
  ⟨.tuple [.ofPrimitive .i8, .array (.tuple [.ofPrimitive .u16, .tuple []]) 2], [255, 1, 0, 2, 0]⟩

theorem render_follows_layout_nested :
    Value.nested.ty.isWellFormed = true ∧ Value.nested.ty.size?.map UInt32.toNat = some 5 ∧
      Value.nested.render? = some "(-1,[(1,()),(2,())])" ∧
      Value.nested.Joins "(" ")" (Value.nested.ty.members.map fun row =>
        (Ty.inner? Value.nested.ty.atoms row.index.toNat).bind fun element =>
          Value.nested.part? element row.offset.toNat) ∧
      ∀ other : Bytes, other.length = 5 →
        (Value.mk Value.nested.ty other).render? = some "(-1,[(1,()),(2,())])" →
        other = [255, 1, 0, 2, 0] := by
  have hty : Value.nested.ty.isWellFormed = true := by decide +kernel
  have hsize : Value.nested.ty.size?.map UInt32.toNat = some 5 := by decide +kernel
  have htext : Value.nested.render? = some "(-1,[(1,()),(2,())])" := by decide +kernel
  obtain ⟨-, -, hsmall⟩ := render_follows_layout .nested hty hsize
  obtain ⟨hmembers, -, htold⟩ := hsmall (by decide +kernel)
  refine ⟨hty, hsize, htext, ?_, ?_⟩
  · exact hmembers (by decide +kernel) (by decide +kernel)
  · intro other hother hsame
    exact htold (by decide +kernel) other hother (hsame.trans htext.symm)

-- Bytes so many that their number is zero in 32 bits.
def Ty.vast : Ty := .array (.array (.ofPrimitive .i8) 65536) 65536

def Program.vast : Program := ⟨#[⟨.finish, .vast, [.vast], .none, 0, .start⟩], ⟨[]⟩, 0⟩

-- An accepted file ends with such a value, and no text is found for it.
theorem render_vast_fails :
    Bytecode.read (Bytecode.write 0 .vast) = .ok .vast ∧
      Ty.vast.isWellFormed = true ∧ Ty.vast.size? = some 0 ∧
      Program.vast.run .standard = .ok ⟨.vast, []⟩ ∧ (Value.mk .vast []).render? = none ∧
      Atom.shownAt? Ty.vast.atoms 0 [] = none := by
  refine ⟨?_, ?_, ?_, ?_, ?_, ?_⟩
  · decide +kernel
  · decide +kernel
  · decide +kernel
  · decide +kernel
  · decide +kernel
  · decide +kernel

end Sluice

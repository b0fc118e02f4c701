import Mathlib
import Sluice.Proofs.Codecs
import Sluice.Proofs.Descent
import Sluice.Value

namespace Sluice

namespace Bytes

-- The bytes from `offset` on.
def from? (bytes : Bytes) (offset : Nat) : Option Bytes :=
  if offset ≤ bytes.length then some (bytes.drop offset) else none

theorem from?_append (front back : Bytes) (offset : Nat) :
    from? (front ++ back) (front.length + offset) = back.from? offset := by
  rw [from?, from?, List.length_append, List.drop_length_add_append]
  simp only [Nat.add_le_add_iff_left]

theorem split?_of_le {bytes : Bytes} {count : Nat} (h : count ≤ bytes.length) :
    bytes.split? count = some (bytes.take count, bytes.drop count) := by
  rw [split?, if_pos (by rw [List.length_take]; omega)]

theorem slice?_zero (bytes : Bytes) (count : Nat) :
    bytes.slice? 0 count = (bytes.split? count).map Prod.fst := by
  by_cases hcount : count ≤ bytes.length
  · rw [slice?, if_pos (by omega), split?_of_le hcount, List.drop_zero, Option.map_some]
  · rw [slice?, if_neg (by omega), split?_of_lt (by omega), Option.map_none]

end Bytes

namespace Atom

variable {atoms : List Atom} {index stop : Nat} {bytes : Bytes}

theorem lt_of_endOf? (h : endOf? atoms index = some stop) : index < stop := by
  obtain ⟨⟨part, rest⟩, hread, rfl⟩ := Option.map_eq_some_iff.mp h
  have hatoms := congrArg List.length (Skeleton.atoms_of_read? hread)
  have hpart : 0 < part.atoms.length := by cases part <;> simp [Skeleton.atoms]
  rw [List.length_drop, List.length_append] at hatoms
  dsimp only
  omega

-- The number of bytes of the part that starts at `index`.
def widthAt? (atoms : List Atom) (index : Nat) : Option Nat := do
  let stop ← endOf? atoms index
  let size ← size? ((atoms.drop index).take (stop - index))
  some size.toNat

-- How many elements an array has, by the atom behind its element.
def countOf : Atom → Nat
  | .count number => number.toNat
  | _ => 0

-- The text of a part, the place behind it, and its number of bytes.
abbrev Rendered (index : Nat) : Type := { found : String × Nat × Nat // index < found.2.1 }

mutual

-- The text of the part that starts at `index`. The atoms are walked over by their places, and the
-- bytes by offsets from the first byte of the part.
def renderAt? (atoms : List Atom) (index : Nat) (bytes : Bytes) : Option (Rendered index) :=
  if h : index < atoms.length then do
    let size ← widthAt? atoms index
    let bytes ← bytes.slice? 0 size
    match atoms.get ⟨index, h⟩ with
    | .tuple => do
        let parts ← renderParts? atoms (index + 1) bytes 0
        some ⟨("(" ++ Text.joined "," parts.1.1 ++ ")", parts.1.2, size), Nat.lt_of_succ_lt parts.2⟩
    | .array =>
        match hlast : endOf? atoms (index + 1) with
        | none => none
        | some last => do
            let behind ← atoms[last]?
            let width ← widthAt? atoms (index + 1)
            let texts ← (List.range (countOf behind)).mapM fun element => do
              let rest ← bytes.from? (element * width)
              let text ← renderAt? atoms (index + 1) rest
              some text.1.1
            some ⟨("[" ++ Text.joined "," texts ++ "]", last + 1, size),
              Nat.lt_succ_of_lt (Nat.lt_of_succ_lt (lt_of_endOf? hlast))⟩
    | .func =>
        match hlast : endOf? atoms index with
        | none => none
        | some last => some ⟨(Skeleton.handleText bytes, last, size), lt_of_endOf? hlast⟩
    | .prim primitive => do
        let text ← Skeleton.primitiveText? primitive bytes
        some ⟨(text, index + 1, size), Nat.lt_succ_self index⟩
    | _ => some ⟨("?", index + 1, size), Nat.lt_succ_self index⟩
  else none
termination_by 2 * (atoms.length - index)

-- The texts of the parts from `index` on, up to the atom that closes their tuple.
def renderParts? (atoms : List Atom) (index : Nat) (bytes : Bytes) (offset : Nat) :
    Option { found : List String × Nat // index < found.2 } :=
  if h : index < atoms.length then
    if atoms.get ⟨index, h⟩ = .close then some ⟨([], index + 1), Nat.lt_succ_self index⟩
    else do
      let rest ← bytes.from? offset
      let first ← renderAt? atoms index rest
      let parts ← renderParts? atoms first.1.2.1 bytes (offset + first.1.2.2)
      some ⟨(first.1.1 :: parts.1.1, parts.1.2), Nat.lt_trans first.2 parts.2⟩
  else none
termination_by 2 * (atoms.length - index) + 1

end

-- The same walk on plain numbers.
def shownAt? (atoms : List Atom) (index : Nat) (bytes : Bytes) : Option (String × Nat × Nat) :=
  (renderAt? atoms index bytes).map Subtype.val

def partsAt? (atoms : List Atom) (index : Nat) (bytes : Bytes) (offset : Nat) :
    Option (List String × Nat) :=
  (renderParts? atoms index bytes offset).map Subtype.val

-- What a part shows of its own bytes, by the atom that it starts with.
section Equations

variable {size : Nat} {front back : Bytes}

theorem shownAt?_none (hsize : widthAt? atoms index = some size)
    (hbytes : bytes.split? size = none) : shownAt? atoms index bytes = none := by
  rw [shownAt?, renderAt?]
  split
  · simp only [hsize, Bytes.slice?_zero, hbytes, Option.map_none, Option.bind_eq_bind,
      Option.bind_some, Option.bind_none]
  · rfl

theorem shownAt?_prim {primitive : Primitive} (h : atoms[index]? = some (.prim primitive))
    (hsize : widthAt? atoms index = some size) (hbytes : bytes.split? size = some (front, back)) :
    shownAt? atoms index bytes =
      (Skeleton.primitiveText? primitive front).map fun text => (text, index + 1, size) := by
  obtain ⟨hindex, hatom⟩ := List.getElem?_eq_some_iff.mp h
  rw [shownAt?, renderAt?, dif_pos hindex]
  simp only [List.get_eq_getElem, hatom, hsize, Bytes.slice?_zero, hbytes, Option.map_some,
    Option.bind_eq_bind, Option.bind_some]
  cases Skeleton.primitiveText? primitive front <;> rfl

theorem shownAt?_tuple (h : atoms[index]? = some .tuple)
    (hsize : widthAt? atoms index = some size) (hbytes : bytes.split? size = some (front, back)) :
    shownAt? atoms index bytes = (partsAt? atoms (index + 1) front 0).map fun parts =>
      ("(" ++ Text.joined "," parts.1 ++ ")", parts.2, size) := by
  obtain ⟨hindex, hatom⟩ := List.getElem?_eq_some_iff.mp h
  rw [shownAt?, renderAt?, dif_pos hindex, partsAt?]
  simp only [List.get_eq_getElem, hatom, hsize, Bytes.slice?_zero, hbytes, Option.map_some,
    Option.bind_eq_bind, Option.bind_some]
  cases renderParts? atoms (index + 1) front 0 <;> rfl

theorem shownAt?_func (h : atoms[index]? = some .func) {last : Nat}
    (hlast : endOf? atoms index = some last) (hsize : widthAt? atoms index = some size)
    (hbytes : bytes.split? size = some (front, back)) :
    shownAt? atoms index bytes = some (Skeleton.handleText front, last, size) := by
  obtain ⟨hindex, hatom⟩ := List.getElem?_eq_some_iff.mp h
  rw [shownAt?, renderAt?, dif_pos hindex]
  simp only [List.get_eq_getElem, hatom, hsize, Bytes.slice?_zero, hbytes, Option.map_some,
    Option.bind_eq_bind, Option.bind_some]
  split
  · rename_i hnone
    cases hnone.symm.trans hlast
  · rename_i found hfound
    cases hfound.symm.trans hlast
    rfl

theorem shownAt?_array (h : atoms[index]? = some .array) {last width : Nat} {number : UInt32}
    (hlast : endOf? atoms (index + 1) = some last) (hbehind : atoms[last]? = some (.count number))
    (hwidth : widthAt? atoms (index + 1) = some width) (hsize : widthAt? atoms index = some size)
    (hbytes : bytes.split? size = some (front, back)) :
    shownAt? atoms index bytes =
      ((List.range number.toNat).mapM fun element =>
        (front.from? (element * width)).bind fun rest =>
          (shownAt? atoms (index + 1) rest).map Prod.fst).map fun texts =>
            ("[" ++ Text.joined "," texts ++ "]", last + 1, size) := by
  obtain ⟨hindex, hatom⟩ := List.getElem?_eq_some_iff.mp h
  rw [shownAt?, renderAt?, dif_pos hindex]
  simp only [List.get_eq_getElem, hatom, hsize, Bytes.slice?_zero, hbytes, Option.map_some,
    Option.bind_eq_bind, Option.bind_some]
  split
  · rename_i hnone
    cases hnone.symm.trans hlast
  · rename_i found hfound
    cases hfound.symm.trans hlast
    have htexts : (fun rest => (renderAt? atoms (index + 1) rest).bind fun text => some text.1.1) =
        fun rest => (shownAt? atoms (index + 1) rest).map Prod.fst := by
      funext rest
      rw [shownAt?]
      cases renderAt? atoms (index + 1) rest <;> rfl
    simp only [hbehind, hwidth, Option.bind_some, countOf, htexts]
    cases (List.range number.toNat).mapM fun element =>
      (front.from? (element * width)).bind fun rest =>
        (shownAt? atoms (index + 1) rest).map Prod.fst <;> rfl

theorem partsAt?_close (h : atoms[index]? = some .close) (offset : Nat) :
    partsAt? atoms index bytes offset = some ([], index + 1) := by
  obtain ⟨hindex, hatom⟩ := List.getElem?_eq_some_iff.mp h
  rw [partsAt?, renderParts?, dif_pos hindex, List.get_eq_getElem, if_pos hatom]
  rfl

theorem partsAt?_part {atom : Atom} (h : atoms[index]? = some atom) (hatom : atom ≠ .close)
    (offset : Nat) :
    partsAt? atoms index bytes offset = (bytes.from? offset).bind fun rest =>
      (shownAt? atoms index rest).bind fun first =>
        (partsAt? atoms first.2.1 bytes (offset + first.2.2)).map fun parts =>
          (first.1 :: parts.1, parts.2) := by
  obtain ⟨hindex, hget⟩ := List.getElem?_eq_some_iff.mp h
  rw [partsAt?, renderParts?, dif_pos hindex, List.get_eq_getElem, if_neg (hget ▸ hatom)]
  cases bytes.from? offset with
  | none => rfl
  | some rest =>
      simp only [Option.bind_eq_bind, Option.bind_some, shownAt?]
      cases renderAt? atoms index rest with
      | none => rfl
      | some first =>
          simp only [Option.bind_some, Option.map_some, partsAt?]
          cases renderParts? atoms first.1.2.1 bytes (offset + first.1.2.2) <;> rfl

end Equations

section Written

variable {tree : Tree}

theorem widthAt?_written (h : tree.atoms <+: atoms.drop index) :
    widthAt? atoms index = some (tree.size % UInt32.size) := by
  have hpart : (atoms.drop index).take tree.atoms.length = tree.atoms :=
    (List.prefix_iff_eq_take.mp h).symm
  have hsize : size? tree.atoms = some (UInt32.ofNat tree.size) := by
    rw [size?, exactSize?, Skeleton.read?_atoms, Option.bind_some, Tree.size?_skeleton,
      Option.map_some]
  simp only [widthAt?, endOf?_written h, Nat.add_sub_cancel_left, hpart, hsize,
    Option.bind_eq_bind, Option.bind_some, UInt32.toNat_ofNat']

-- One element after the other, by their offsets or by what is left of the bytes.
private theorem mapM_range_eq {render shown : Bytes → Option String} {width : Nat}
    (h : ∀ bytes, shown bytes = (bytes.split? width).bind fun parts => render parts.1)
    (count : Nat) (bytes : Bytes) :
    ((List.range count).mapM fun element => (bytes.from? (element * width)).bind shown) =
      Skeleton.renderTimes? width render count bytes := by
  induction count generalizing bytes with
  | zero => rfl
  | succ count ih =>
      have hfirst : bytes.from? (0 * width) = some bytes := by
        rw [Nat.zero_mul, Bytes.from?, if_pos (Nat.zero_le _), List.drop_zero]
      rw [List.range_succ_eq_map, List.mapM_cons, List.mapM_map, hfirst, Option.bind_some, h,
        Skeleton.renderTimes?]
      cases hsplit : bytes.split? width with
      | none => rfl
      | some parts =>
          obtain ⟨front, back⟩ := parts
          obtain ⟨rfl, rfl⟩ := Bytes.split?_eq_some hsplit
          have hrest : ∀ element, Bytes.from? (front ++ back) ((element + 1) * front.length) =
              back.from? (element * front.length) := by
            intro element
            rw [Nat.succ_mul, Nat.add_comm, Bytes.from?_append]
          simp only [Option.bind_eq_bind, Option.bind_some, Nat.succ_eq_add_one, hrest,
            Function.comp_def, ← ih]
          rfl

end Written

mutual

-- Where a tree is written, the walk shows it as its skeleton does, and ends behind it. The induction
-- is on the tree.
theorem shownAt?_written (tree : Tree) (index : Nat) (bytes : Bytes)
    (h : tree.atoms <+: atoms.drop index) :
    shownAt? atoms index bytes = (bytes.split? (tree.size % UInt32.size)).bind fun parts =>
      (tree.skeleton.render? parts.1).map fun text =>
        (text, index + tree.atoms.length, tree.size % UInt32.size) := by
  have hsize := widthAt?_written h
  cases hsplit : bytes.split? (tree.size % UInt32.size) with
  | none => rw [shownAt?_none hsize hsplit, Option.bind_none]
  | some parts =>
      obtain ⟨front, back⟩ := parts
      rw [Option.bind_some]
      cases tree with
      | prim primitive =>
          obtain ⟨hatom, -⟩ := cons_prefix_drop_iff.mp h
          rw [shownAt?_prim hatom hsize hsplit, Tree.skeleton, Skeleton.render?]
          rfl
      | tuple elements =>
          obtain ⟨hatom, hrest⟩ := cons_prefix_drop_iff.mp h
          rw [shownAt?_tuple hatom hsize hsplit,
            partsAt?_written elements (index + 1) front 0 hrest (Nat.zero_le _), List.drop_zero,
            Tree.skeleton, Skeleton.render?, Option.map_map, Option.map_map]
          congr 1
          funext texts
          simp only [Function.comp_apply, Tree.atoms, List.length_cons, List.length_append,
            List.length_nil, Prod.mk.injEq, true_and, and_true]
          omega
      | array element number =>
          obtain ⟨hatom, hrest⟩ := cons_prefix_drop_iff.mp h
          obtain ⟨helement, hlast⟩ := append_prefix_drop_iff.mp hrest
          obtain ⟨hcount, -⟩ := cons_prefix_drop_iff.mp hlast
          have hshown : ∀ rest : Bytes, (shownAt? atoms (index + 1) rest).map Prod.fst =
              (rest.split? (element.size % UInt32.size)).bind fun parts =>
                element.skeleton.render? parts.1 := by
            intro rest
            rw [shownAt?_written element (index + 1) rest helement, Option.map_bind]
            simp only [Function.comp_def, Option.map_map, Option.map_id_fun', id]
          rw [shownAt?_array hatom (endOf?_written helement) hcount (widthAt?_written helement) hsize
            hsplit, mapM_range_eq hshown, Tree.skeleton, Skeleton.render?, Skeleton.width?,
            Tree.size?_skeleton]
          simp only [Option.map_some, Option.bind_eq_bind, Option.bind_some, UInt32.toNat_ofNat']
          rw [Option.map_map]
          congr 1
          funext texts
          simp only [Function.comp_apply, Tree.atoms, List.length_cons, List.length_append,
            List.length_nil, Prod.mk.injEq, true_and, and_true]
          omega
      | func result argument =>
          obtain ⟨hatom, -⟩ := cons_prefix_drop_iff.mp h
          rw [shownAt?_func hatom (endOf?_written h) hsize hsplit, Tree.skeleton, Skeleton.render?,
            Option.map_some]

theorem partsAt?_written (trees : List Tree) (index : Nat) (bytes : Bytes) (offset : Nat)
    (h : Tree.atomsAll trees ++ [.close] <+: atoms.drop index) (hoffset : offset ≤ bytes.length) :
    partsAt? atoms index bytes offset =
      (Skeleton.renderAll? (Tree.skeletons trees) (bytes.drop offset)).map fun texts =>
        (texts, index + (Tree.atomsAll trees).length + 1) := by
  cases trees with
  | nil =>
      obtain ⟨hclose, -⟩ := cons_prefix_drop_iff.mp h
      rw [partsAt?_close hclose, Tree.skeletons, Skeleton.renderAll?]
      rfl
  | cons tree trees =>
      rw [Tree.atomsAll, List.append_assoc] at h
      obtain ⟨htree, hrest⟩ := append_prefix_drop_iff.mp h
      have hfirst := htree
      rw [tree.atoms_eq_cons] at hfirst
      obtain ⟨hatom, -⟩ := cons_prefix_drop_iff.mp hfirst
      rw [partsAt?_part hatom tree.head_ne_close, Bytes.from?, if_pos hoffset, Option.bind_some,
        shownAt?_written tree index _ htree, Tree.skeletons, Skeleton.renderAll?, Skeleton.width?,
        Tree.size?_skeleton]
      simp only [Option.map_some, Option.bind_eq_bind, Option.bind_some, UInt32.toNat_ofNat']
      by_cases hwidth : tree.size % UInt32.size ≤ (bytes.drop offset).length
      · have hnext : offset + tree.size % UInt32.size ≤ bytes.length := by
          rw [List.length_drop] at hwidth
          omega
        rw [Bytes.split?_of_le hwidth]
        simp only [Option.bind_some, List.drop_drop]
        cases htext : tree.skeleton.render? ((bytes.drop offset).take (tree.size % UInt32.size)) with
        | none => rfl
        | some text =>
            simp only [Option.map_some, Option.bind_some]
            rw [partsAt?_written trees (index + tree.atoms.length) bytes _ hrest hnext]
            cases Skeleton.renderAll? (Tree.skeletons trees)
                (bytes.drop (offset + tree.size % UInt32.size)) with
            | none => rfl
            | some texts =>
                simp only [Option.map_some, Option.bind_some, Tree.atomsAll, List.length_append,
                  Nat.add_assoc]
      · rw [Bytes.split?_of_lt (by omega)]
        rfl

end

end Atom

end Sluice

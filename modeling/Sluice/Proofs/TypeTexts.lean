import Mathlib
import Sluice.Proofs.Patterns

namespace Sluice

namespace Text

-- The items behind the first one, each with its comma.
def behind (items : List String) : List Char :=
  items.flatMap fun item => ',' :: item.toList

theorem toList_joined_cons (item : String) (items : List String) :
    (joined "," (item :: items)).toList = item.toList ++ behind items := by
  induction items generalizing item with
  | nil => simp [joined, behind]
  | cons next items ih =>
      have htail := ih next
      simp only [joined, String.toList_intercalate, List.map_cons] at htail ⊢
      rw [List.intercalate_cons_cons, htail]
      simp [behind]

-- No digit comes next.
def Undigited (chars : List Char) : Prop :=
  ∀ c ∈ chars.head?, c.isDigit = false

theorem undigited_cons {c : Char} (h : c.isDigit = false) (chars : List Char) :
    Undigited (c :: chars) := by
  intro first hfirst
  cases hfirst
  exact h

private theorem isDigit_of_mem_decimal {n : Nat} {c : Char} (h : c ∈ (toString n).toList) :
    c.isDigit = true := by
  rw [Nat.toString_eq_repr, Nat.toList_repr] at h
  exact Nat.isDigit_of_mem_toDigits (by decide) (by decide) h

theorem takeWhile_decimal (n : Nat) {chars : List Char} (h : Undigited chars) :
    ((toString n).toList ++ chars).takeWhile Char.isDigit = (toString n).toList := by
  rw [List.takeWhile_append_of_pos fun c hc => isDigit_of_mem_decimal hc]
  cases chars with
  | nil => simp
  | cons c chars => simp [h c rfl]

-- A number ends where its digits end.
theorem decimal_append_inj {m n : Nat} {p q : List Char} (hp : Undigited p) (hq : Undigited q)
    (h : (toString m).toList ++ p = (toString n).toList ++ q) : m = n ∧ p = q := by
  have hdigits : (toString m).toList = (toString n).toList := by
    rw [← takeWhile_decimal m hp, h, takeWhile_decimal n hq]
  refine ⟨Nat.repr_injective (String.toList_inj.mp hdigits), ?_⟩
  rwa [hdigits, List.append_cancel_left_eq] at h

end Text

namespace Tree

-- The text in front of the parts of a tree.
def lead : Tree → String
  | .prim primitive => primitive.text
  | .tuple _ => "("
  | .array _ _ => "@array("
  | .func _ _ => "@fn("

def leads : List String :=
  ["(", "@array(", "@fn(", "@?", "@i8", "@i16", "@i32", "@i64", "@isize", "@u8", "@u16", "@u32",
    "@u64", "@usize", "@f32", "@f64", "@str"]

theorem lead_mem (tree : Tree) : tree.lead ∈ leads := by
  cases tree with
  | prim primitive => cases primitive <;> decide
  | tuple elements => simp [lead, leads]
  | array element count => simp [lead, leads]
  | func result argument => simp [lead, leads]

theorem eq_of_prefix_leads : ∀ first ∈ leads, ∀ second ∈ leads,
    first.toList <+: second.toList → first = second := by
  decide

theorem lead_append_inj {left right : Tree} {p q : List Char}
    (h : left.lead.toList ++ p = right.lead.toList ++ q) : left.lead = right.lead ∧ p = q := by
  have hleads : left.lead = right.lead := by
    have hright : right.lead.toList <+: left.lead.toList ++ p := h ▸ List.prefix_append ..
    rcases List.prefix_or_prefix_of_prefix (List.prefix_append ..) hright with hahead | hahead
    · exact eq_of_prefix_leads _ left.lead_mem _ right.lead_mem hahead
    · exact (eq_of_prefix_leads _ right.lead_mem _ left.lead_mem hahead).symm
  rw [hleads, List.append_cancel_left_eq] at h
  exact ⟨hleads, h⟩

-- The text behind the lead.
def trail : Tree → List Char
  | .prim _ => []
  | .tuple elements => (Text.joined "," (textAll elements)).toList ++ [')']
  | .array element count => element.text.toList ++ ',' :: ((toString count).toList ++ [')'])
  | .func result argument => argument.text.toList ++ '-' :: '>' :: (result.text.toList ++ [')'])

theorem toList_text (tree : Tree) : tree.text.toList = tree.lead.toList ++ tree.trail := by
  cases tree <;> simp [text, lead, trail]

theorem text_ne_closed (tree : Tree) (p q : List Char) : tree.text.toList ++ p ≠ ')' :: q := by
  have hhead : ∀ lead ∈ leads, lead.toList.head? ≠ some ')' ∧ lead.toList ≠ [] := by decide
  obtain ⟨hclosed, hne⟩ := hhead _ tree.lead_mem
  intro h
  rw [toList_text, List.append_assoc] at h
  have hfirst := congrArg List.head? h
  rw [List.head?_append_of_ne_nil _ hne] at hfirst
  exact hclosed hfirst

-- The lead tells what kind of tree it stands in front of.
theorem lead_text_ne (primitive : Primitive) :
    primitive.text ≠ "(" ∧ primitive.text ≠ "@array(" ∧ primitive.text ≠ "@fn(" := by
  cases primitive <;> decide

theorem eq_prim_of_lead {primitive : Primitive} {tree : Tree} (h : primitive.text = tree.lead) :
    tree = .prim primitive := by
  cases tree with
  | prim other =>
      congr
      revert h
      cases other <;> cases primitive <;> decide
  | tuple elements => exact absurd h (lead_text_ne primitive).1
  | array element count => exact absurd h (lead_text_ne primitive).2.1
  | func result argument => exact absurd h (lead_text_ne primitive).2.2

theorem exists_tuple_of_lead {tree : Tree} (h : "(" = tree.lead) :
    ∃ elements, tree = .tuple elements := by
  cases tree with
  | prim primitive => exact absurd h.symm (lead_text_ne primitive).1
  | tuple elements => exact ⟨elements, rfl⟩
  | array element count => simp [lead] at h
  | func result argument => simp [lead] at h

theorem exists_array_of_lead {tree : Tree} (h : "@array(" = tree.lead) :
    ∃ element count, tree = .array element count := by
  cases tree with
  | prim primitive => exact absurd h.symm (lead_text_ne primitive).2.1
  | tuple elements => simp [lead] at h
  | array element count => exact ⟨element, count, rfl⟩
  | func result argument => simp [lead] at h

private theorem exists_func_of_lead {tree : Tree} (h : "@fn(" = tree.lead) :
    ∃ result argument, tree = .func result argument := by
  cases tree with
  | prim primitive => exact absurd h.symm (lead_text_ne primitive).2.2
  | tuple elements => simp [lead] at h
  | array element count => simp [lead] at h
  | func result argument => exact ⟨result, argument, rfl⟩

mutual

-- Whatever stands behind two texts, they are the same or differ before one of them ends.
theorem text_append_inj (left right : Tree) {p q : List Char}
    (h : left.text.toList ++ p = right.text.toList ++ q) : left = right ∧ p = q := by
  rw [toList_text, toList_text, List.append_assoc, List.append_assoc] at h
  obtain ⟨hlead, htrail⟩ := lead_append_inj h
  cases left with
  | prim primitive =>
      obtain rfl := eq_prim_of_lead hlead
      exact ⟨rfl, htrail⟩
  | tuple lefts =>
      obtain ⟨rights, rfl⟩ := exists_tuple_of_lead hlead
      simp only [trail, List.append_assoc, List.singleton_append] at htrail
      cases lefts with
      | nil =>
          cases rights with
          | nil => simpa [textAll, Text.joined] using htrail
          | cons right rights =>
              rw [textAll, textAll, Text.toList_joined_cons, List.append_assoc] at htrail
              exact absurd htrail.symm (text_ne_closed right _ _)
      | cons left lefts =>
          cases rights with
          | nil =>
              rw [textAll, textAll, Text.toList_joined_cons, List.append_assoc] at htrail
              exact absurd htrail (text_ne_closed left _ _)
          | cons right rights =>
              rw [textAll, textAll, Text.toList_joined_cons, Text.toList_joined_cons,
                List.append_assoc, List.append_assoc] at htrail
              obtain ⟨rfl, hbehind⟩ := text_append_inj left right htrail
              obtain ⟨rfl, rfl⟩ := behind_append_inj lefts rights hbehind
              exact ⟨rfl, rfl⟩
  | array left count =>
      obtain ⟨right, other, rfl⟩ := exists_array_of_lead hlead
      simp only [trail, List.append_assoc, List.cons_append] at htrail
      obtain ⟨rfl, hcounts⟩ := text_append_inj left right htrail
      simp only [List.cons.injEq, true_and, List.nil_append] at hcounts
      obtain ⟨hcount, hclosed⟩ :=
        Text.decimal_append_inj (Text.undigited_cons rfl _) (Text.undigited_cons rfl _) hcounts
      obtain rfl := UInt32.toNat_inj.mp hcount
      exact ⟨rfl, List.tail_eq_of_cons_eq hclosed⟩
  | func leftResult leftArgument =>
      obtain ⟨rightResult, rightArgument, rfl⟩ := exists_func_of_lead hlead
      simp only [trail, List.append_assoc, List.cons_append, List.nil_append] at htrail
      obtain ⟨rfl, hresult⟩ := text_append_inj leftArgument rightArgument htrail
      simp only [List.cons.injEq, true_and] at hresult
      obtain ⟨rfl, hclosed⟩ := text_append_inj leftResult rightResult hresult
      exact ⟨rfl, List.tail_eq_of_cons_eq hclosed⟩

theorem behind_append_inj (lefts rights : List Tree) {p q : List Char}
    (h : Text.behind (textAll lefts) ++ ')' :: p = Text.behind (textAll rights) ++ ')' :: q) :
    lefts = rights ∧ p = q := by
  cases lefts with
  | nil =>
      cases rights with
      | nil => exact ⟨rfl, List.tail_eq_of_cons_eq h⟩
      | cons right rights => simp [textAll, Text.behind] at h
  | cons left lefts =>
      cases rights with
      | nil => simp [textAll, Text.behind] at h
      | cons right rights =>
          simp only [textAll, Text.behind, List.flatMap_cons, List.cons_append, List.cons.injEq,
            true_and, List.append_assoc] at h
          obtain ⟨rfl, hbehind⟩ := text_append_inj left right h
          obtain ⟨rfl, rfl⟩ := behind_append_inj lefts rights hbehind
          exact ⟨rfl, rfl⟩

end

end Tree

namespace Atom

mutual

theorem outlineWithin_tree (tree : Tree) (rest : List Atom) (fuel : Nat)
    (h : 2 * tree.atoms.length ≤ fuel + 1) :
    outlineWithin fuel (tree.atoms ++ rest) = some (tree, rest) := by
  cases tree with
  | prim primitive =>
      rw [Tree.atoms, List.length_singleton] at h
      obtain ⟨fuel, rfl⟩ := Nat.exists_eq_add_of_le' (by omega : 1 ≤ fuel)
      rfl
  | tuple elements =>
      simp only [Tree.atoms, List.length_cons, List.length_append, List.length_nil] at h
      obtain ⟨fuel, rfl⟩ := Nat.exists_eq_add_of_le' (by omega : 1 ≤ fuel)
      have helements := outlinesWithin_trees elements rest fuel (by omega)
      simp only [Tree.atoms, List.cons_append, List.append_assoc, List.nil_append,
        outlineWithin, helements, Option.map_some]
  | array element count =>
      simp only [Tree.atoms, List.length_cons, List.length_append, List.length_nil] at h
      obtain ⟨fuel, rfl⟩ := Nat.exists_eq_add_of_le' (by omega : 1 ≤ fuel)
      have helement := outlineWithin_tree element (.count count :: rest) fuel (by omega)
      simp only [Tree.atoms, List.cons_append, List.append_assoc, List.nil_append,
        outlineWithin, helement]
  | func result argument =>
      simp only [Tree.atoms, List.length_cons, List.length_append, List.length_nil] at h
      obtain ⟨fuel, rfl⟩ := Nat.exists_eq_add_of_le' (by omega : 1 ≤ fuel)
      have hresult := outlineWithin_tree result (argument.atoms ++ .close :: rest) fuel
        (by omega)
      have hargument := outlineWithin_tree argument (.close :: rest) fuel (by omega)
      simp only [Tree.atoms, List.cons_append, List.append_assoc, List.nil_append,
        outlineWithin, Skeleton.read?_tree, hresult, hargument, List.drop_one, List.tail_cons]

theorem outlinesWithin_trees (trees : List Tree) (rest : List Atom) (fuel : Nat)
    (h : 2 * (Tree.atomsAll trees).length + 1 ≤ fuel) :
    outlinesWithin fuel (Tree.atomsAll trees ++ .close :: rest) = some (trees, rest) := by
  obtain ⟨fuel, rfl⟩ := Nat.exists_eq_add_of_le' (by omega : 1 ≤ fuel)
  cases trees with
  | nil => simp [Tree.atomsAll, outlinesWithin]
  | cons tree trees =>
      rw [Tree.atomsAll, List.length_append] at h
      have hfirst := outlineWithin_tree tree (Tree.atomsAll trees ++ .close :: rest) fuel
        (by omega)
      have hpositive := List.length_pos_of_ne_nil tree.atoms_ne_nil
      have hothers := outlinesWithin_trees trees rest fuel (by omega)
      have hopen : (tree.atoms ++ (Tree.atomsAll trees ++ .close :: rest)).head? ≠ some .close := by
        rw [tree.atoms_eq_cons]
        exact fun hclose => tree.head_ne_close (Option.some.inj hclose)
      rw [Tree.atomsAll, List.append_assoc, outlinesWithin, if_neg hopen, hfirst]
      simp only [hothers, Option.map_some]

end

-- The atoms of a tree show just that tree.
private theorem outline?_atoms (tree : Tree) : outline? tree.atoms = some tree := by
  have hwithin := outlineWithin_tree tree [] (2 * tree.atoms.length) (by omega)
  rw [List.append_nil] at hwithin
  rw [outline?, hwithin, Option.map_some]

end Atom

theorem Ty.Describes.text_eq {ty : Ty} {tree : Tree} (h : ty.Describes tree) :
    ty.text = tree.text := by
  rw [Ty.text, h.atoms, Atom.outline?_atoms]

-- A type is known by its text.
theorem type_text_eq_iff (left right : Ty) (hleft : left.isWellFormed = true)
    (hright : right.isWellFormed = true) : left.text = right.text ↔ left.atoms = right.atoms := by
  obtain ⟨leftTree, hleft⟩ := Ty.isWellFormed_iff.mp hleft
  obtain ⟨rightTree, hright⟩ := Ty.isWellFormed_iff.mp hright
  rw [hleft.text_eq, hright.text_eq, hleft.atoms, hright.atoms, Tree.atoms_inj]
  constructor
  · intro htext
    exact (Tree.text_append_inj leftTree rightTree (p := []) (q := []) (by rw [htext])).1
  · intro htrees
    rw [htrees]

-- A function whose argument is a function, and one whose result is a function.
def Ty.taking : Ty :=
  .func (.ofPrimitive .i32) (.func (.array (.tuple []) 2) (.ofPrimitive .i8))

def Ty.giving : Ty :=
  .func (.func (.ofPrimitive .i32) (.array (.tuple []) 2)) (.ofPrimitive .i8)

theorem type_text_eq_iff_functions :
    Ty.taking.isWellFormed = true ∧ Ty.giving.isWellFormed = true ∧
      Ty.taking.text = "@fn(@fn(@i8->@array((),2))->@i32)" ∧
      Ty.taking.text ≠ Ty.giving.text := by
  have htaking : Ty.taking.isWellFormed = true := by decide +kernel
  have hgiving : Ty.giving.isWellFormed = true := by decide +kernel
  refine ⟨htaking, hgiving, by decide +kernel, ?_⟩
  rw [Ne, type_text_eq_iff _ _ htaking hgiving]
  decide +kernel

end Sluice

import Mathlib
import Sluice.Proofs.Floors
import Sluice.Proofs.Interpreter
import Sluice.Proofs.Mistakes

namespace Sluice

theorem Ty.Describes.tree_eq {ty : Ty} {tree : Tree} (h : ty.Describes tree) : ty.tree = tree := by
  have hread : Skeleton.read? tree.atoms = some (tree.skeleton, []) := Skeleton.read?_atoms tree
  rw [Ty.tree, Ty.tree?, h.atoms]
  simp [Atom.tree?, hread, Tree.tree?_skeleton]

namespace Tree

theorem accepts_iff {argument tree : Tree} :
    argument.accepts tree = true ↔ ∃ result, tree = .func result argument := by
  cases tree <;> simp [accepts]

end Tree

theorem Env.accepts_of_overload {env : Env} {name : String} {argument : Tree} {datum : Datum}
    (h : env.overload name argument = some datum) : argument.accepts datum.tree = true := by
  obtain ⟨level, -, hlevel⟩ := List.exists_of_findSome?_eq_some h
  obtain ⟨entry, hentry, rfl⟩ := Option.map_eq_some_iff.mp hlevel
  have hfound := List.find?_some hentry
  exact (Bool.and_eq_true_iff.mp hfound).2

-- A pattern with the argument of a call finds what the argument is accepted by.
theorem Ty.Describes.matches?_call {argument ty : Ty} {tree found : Tree}
    (hargument : argument.Describes tree) (hdecided : tree.isDecided = true)
    (hty : ty.Describes found) :
    (Ty.func .undecided argument).matches? ty = some (tree.accepts found) := by
  have hpattern := Ty.describes_func (Ty.describes_ofPrimitive .undecided) hargument
  have hfits : (Tree.func (.prim .undecided) tree).fits found = tree.accepts found := by
    rw [Bool.eq_iff_iff, Tree.func_fits_iff hdecided, Tree.accepts_iff]
  rw [← hfits]
  exact hpattern.matches? hty

-- The types of what a library offers: closed, without wildcards, and small enough to be loaded.
structure Ty.Plain (ty : Ty) : Prop where
  closed : ty.isClosed = true
  decided : .prim .undecided ∉ ty.atoms
  indexable : ty.Indexable
  small : ty.extent < 2147483640

instance (ty : Ty) : Decidable ty.Plain :=
  decidable_of_iff
    (ty.isClosed = true ∧ .prim .undecided ∉ ty.atoms ∧ ty.Indexable ∧ ty.extent < 2147483640)
    ⟨fun h => ⟨h.1, h.2.1, h.2.2.1, h.2.2.2⟩,
      fun h => ⟨h.closed, h.decided, h.indexable, h.small⟩⟩

-- A binding that stands for a value. The types of names are closed, and small enough to be loaded.
structure Binding.Holds (literals : Pool) (frame : Bytes) (binding : Binding)
    (datum : Datum) : Prop where
  describes : binding.ty.Describes datum.tree
  closed : binding.ty.isClosed = true
  decided : datum.tree.isDecided = true
  indexable : binding.ty.Indexable
  small : binding.ty.extent < 2147483640
  stored : binding.Stored literals frame.length
  fetch : binding.fetch? literals frame = some datum.bytes

theorem Scope.find?_overloads (scope : Scope) (name : String) (test : Binding → Bool) :
    (scope.overloads name).find? test =
      (scope.bindings.find? fun row => decide (row.1 = name) && test row.2).map Prod.snd := by
  rw [overloads, List.find?_map, List.find?_filter]
  simp [Bool.decide_and]

namespace Scopes

variable {literals : Pool} {frame after : Bytes} {scopes : Scopes} {env : Env} {name : String}

def Holds (literals : Pool) (frame : Bytes) (scopes : Scopes) (env : Env) : Prop :=
  List.Forall₂ (fun scope level =>
    List.Forall₂ (fun row entry => row.1 = entry.1 ∧ row.2.Holds literals frame entry.2)
      scope.bindings level) scopes.chain env

theorem rel_snd {row : Option (String × Binding)} {entry : Option (String × Datum)}
    (h : Option.Rel (fun row entry => row.1 = entry.1 ∧ row.2.Holds literals frame entry.2) row entry) :
    Option.Rel (Binding.Holds literals frame) (row.map Prod.snd) (entry.map Prod.snd) := by
  cases h with
  | none => exact .none
  | some hrow => exact .some hrow.2

theorem Holds.lookup (h : scopes.Holds literals frame env) (name : String) :
    Option.Rel (Binding.Holds literals frame) (scopes.lookup name) (env.lookup name) := by
  refine rel_findSome? h fun scope level hlevel => ?_
  have hfind := rel_find? hlevel (p := fun row => row.1 = name) (q := fun entry => entry.1 = name)
    fun row entry hrow => by rw [hrow.1]
  rw [Scope.overloads, List.head?_map, List.head?_filter]
  exact rel_snd hfind

theorem Holds.overload (h : scopes.Holds literals frame env) (name : String) {argument : Ty}
    {tree : Tree} (hargument : argument.Describes tree) (hdecided : tree.isDecided = true) :
    Option.Rel (Binding.Holds literals frame)
      (scopes.lookupMatching name (.func .undecided argument)) (env.overload name tree) := by
  refine rel_findSome? h fun scope level hlevel => ?_
  have hfind := rel_find? hlevel
    (p := fun row => decide (row.1 = name) &&
      decide ((Ty.func .undecided argument).matches? row.2.ty = some true))
    (q := fun entry => decide (entry.1 = name) && tree.accepts entry.2.tree)
    fun row entry hrow => by
      rw [hrow.1, hargument.matches?_call hdecided hrow.2.describes]
      simp
  rw [Scope.find?_overloads]
  exact rel_snd hfind

-- Declaring fails for a name that has a value of the same type in the innermost scope. The new
-- value may be there only in a later frame.
theorem Holds.declare {binding : Binding} {datum : Datum} (h : scopes.Holds literals frame env)
    (hty : binding.ty.Describes datum.tree) (name : String) (position : Position) :
    Option.Rel (fun declared behind => ∀ {after}, scopes.Holds literals after env →
        binding.Holds literals after datum → declared.Holds literals after behind)
      (scopes.declare name binding position).toOption (env.declare name datum) := by
  obtain ⟨current, outer, frameSize⟩ := scopes
  cases h with
  | @cons _ level _ rest hlevel hrest =>
      have hany := rel_find? hlevel
        (p := fun row => decide (row.1 = name) && row.2.ty.same binding.ty)
        (q := fun entry => decide (entry.1 = name) && decide (entry.2.tree = datum.tree))
        fun row entry hrow => by
          have hsame := hrow.2.describes.same_iff hty
          rw [hrow.1, Bool.eq_iff_iff]
          simp [hsame]
      simp only [Scopes.declare, Env.declare, Scope.find?_overloads, ← List.isSome_find?]
      generalize current.bindings.find? _ = row at hany ⊢
      generalize level.find? _ = entry at hany ⊢
      cases hany with
      | none =>
          refine .some fun {after} hscopes hbinding => ?_
          cases hscopes with
          | cons hlevel hrest =>
              exact .cons (List.rel_append hlevel (.cons ⟨rfl, hbinding⟩ .nil)) hrest
      | some hrow => exact .none

theorem Holds.allocate (h : scopes.Holds literals frame env) (size : UInt32) :
    (scopes.allocate size).2.Holds literals frame env := by
  cases h with
  | cons hlevel hrest => exact .cons hlevel hrest

theorem Holds.enter (h : scopes.Holds literals frame env) :
    scopes.enter.Holds literals frame ([] :: env) := .cons .nil h

theorem Holds.congr {other : Scopes} (h : scopes.Holds literals frame env)
    (hchain : other.chain = scopes.chain) : other.Holds literals frame env := by
  rw [Holds, hchain]
  exact h

-- Another frame with the same bytes for every name.
private theorem Holds.transfer (h : scopes.Holds literals frame env)
    (hlength : after.length = frame.length)
    (hfetch : ∀ scope ∈ scopes.chain, ∀ row ∈ scope.bindings, ∀ datum,
      row.2.Holds literals frame datum →
      row.2.fetch? literals after = row.2.fetch? literals frame) :
    scopes.Holds literals after env := by
  refine (forall₂_imp_mem h.flip fun level scope hscope hlevel => ?_).flip
  refine (forall₂_imp_mem hlevel.flip fun entry row hrow hentry => ⟨hentry.1, ?_⟩).flip
  have hsame := hfetch scope hscope row hrow entry.2 hentry.2
  exact { hentry.2 with
    stored := hlength ▸ hentry.2.stored
    fetch := hsame.trans hentry.2.fetch }

-- A value that is written above all slots.
theorem Holds.write (h : scopes.Holds literals frame env) (hfloored : scopes.Floored)
    {data : Bytes} (hinside : scopes.floor + data.length ≤ frame.length) :
    scopes.Holds literals (frame.write scopes.floor data) env := by
  refine h.transfer (Bytes.length_write hinside) fun scope hscope row hrow datum hdatum => ?_
  obtain ⟨name, ty, storage⟩ := row
  cases storage with
  | stack offset =>
      refine Bytes.slice?_write_of_disjoint hinside fun byte hstart hend hwritten => ?_
      have hextent : (UInt32.ofNat ty.extent).toNat = ty.extent :=
        Ty.toNat_size (Nat.lt_trans hdatum.small (by decide))
      have hslot : ty.Slot offset byte :=
        ⟨_, Ty.size?_eq_extent (Ty.isWellFormed_iff.mpr ⟨_, hdatum.describes⟩), hstart,
          by rw [hextent]; exact hend⟩
      have hbelow := hfloored scope hscope _ hrow offset byte rfl hslot
      omega
  | _ => rfl

-- The root scope stands for the environment of the library, in every frame.
theorem holds_ofLibrary {library : Library} (hlibrary : library.Registered)
    (htypes : ∀ ty ∈ library.types, ty.Plain)
    (hroot : ofLibrary library = .ok (scopes, literals))
    (hpool : literals.bytes.length < UInt32.size) (frame : Bytes) :
    scopes.Holds literals frame library.env := by
  have hplain : ∀ {binding : Binding} {bytes : Bytes}, binding.ty.isWellFormed = true →
      binding.ty.Plain → binding.Stored literals frame.length →
      binding.fetch? literals frame = some bytes →
      binding.Holds literals frame ⟨binding.ty.tree, bytes⟩ := by
    intro binding bytes hwell hplain hstored hfetch
    obtain ⟨tree, htree⟩ := Ty.isWellFormed_iff.mp hwell
    have hdecided : tree.isDecided = true :=
      (Tree.isDecided_iff tree).mpr (htree.atoms ▸ hplain.decided)
    rw [htree.tree_eq]
    exact ⟨htree, hplain.closed, hdecided, hplain.indexable, hplain.small, hstored, hfetch⟩
  obtain ⟨rows, rfl, hrows⟩ := ofLibrary_eq_ok hroot
  refine List.Forall₂.cons (List.rel_append ?_ ?_) .nil
  · rw [List.forall₂_map_left_iff, List.forall₂_map_right_iff, List.forall₂_same]
    rintro ⟨id, native⟩ hmem
    obtain ⟨⟨found, index⟩, hfound, heq⟩ := List.mem_map.mp hmem
    cases heq
    have hnative := List.fst_mem_of_mem_zipIdx hfound
    have hwell := (hlibrary.checked.native _ hnative).wellFormed
    refine ⟨rfl, hplain hwell (htypes _ ?_) ?_ rfl⟩
    · exact List.mem_append_left _ (List.mem_map_of_mem hnative)
    · exact Ty.extent_of_isFunc hwell (hlibrary.isFunc _ hnative)
  · rw [List.forall₂_map_right_iff]
    refine forall₂_imp_mem hrows.flip fun row constant hmem hlies => ⟨hlies.name, ?_⟩
    have hwell := (hlibrary.checked.constant constant hmem).wellFormed
    have hconstant := htypes constant.ty (List.mem_append_right _ (List.mem_map_of_mem hmem))
    obtain ⟨name, ty, storage⟩ := row
    obtain ⟨front, back, hbytes, hstorage⟩ := hlies.storage
    have hsize := hlies.size
    cases hlies.ty
    cases hstorage
    have hextent : (UInt32.ofNat constant.ty.extent).toNat = constant.ty.extent :=
      Ty.toNat_size (Nat.lt_trans hconstant.small (by decide))
    rw [Ty.size?_eq_extent hwell, Option.map_some, Option.some.injEq] at hsize
    have hfront : (UInt32.ofNat front.length).toNat = front.length := by
      refine UInt32.toNat_ofNat_of_lt' (Nat.lt_of_le_of_lt ?_ hpool)
      rw [hbytes]
      simp
    refine hplain hwell hconstant ?_ ?_
    · simp only [Binding.Stored, hfront, hsize, hbytes, List.length_append]
      omega
    · simp only [Binding.fetch?, hfront, hsize, Bytes.slice?, hbytes]
      simp

end Scopes

namespace Expr

theorem binds_of_orderly {expr : Expr} (h : expr.orderly false = true) : expr.binds = false := by
  induction expr with
  | number text position => rfl
  | name text position => rfl
  | negate operand position ih => exact ih h
  | binary operator left right position ihleft ihright =>
      cases operator <;> simp_all [orderly, binds]
  | pipe value callee position ihvalue ihcallee => simp_all [orderly, binds]
  | pipeWith value callee argument position ihvalue ihcallee ihargument =>
      simp_all [orderly, binds]
  | member subject field position ih => exact ih h
  | bracketed bracket inner opened closed ih =>
      cases bracket with
      | curly => rfl
      | round => exact ih h
      | square => exact ih h

theorem eval_of_bare? {library : Library} {expr : Expr} {text : String} {place : Position}
    (h : expr.bare? = some (text, place)) (env : Env) :
    expr.eval library env = (env.lookup text).map (·, env) := by
  induction expr with
  | name found position =>
      cases h
      rfl
  | bracketed bracket inner opened closed ih =>
      cases bracket with
      | round => exact ih h
      | _ => contradiction
  | _ => contradiction

-- A sign between two values that are computed one after the other.
theorem eval_sign {library : Library} {operator : Operator} (hassign : operator ≠ .assign)
    (hcall : operator ≠ .call) (left right : Expr) (position : Position) (env : Env) :
    (Expr.binary operator left right position).eval library env =
      (left.eval library env).bind fun first => (right.eval library first.2).bind fun second =>
        (Datum.sign? operator left.isOpen first.1 second.1).map (·, second.2) := by
  cases operator with
  | assign => contradiction
  | call => contradiction
  | _ => rfl

section Declarations

variable {library : Library} {env after : Env} {datum : Datum}

-- A name that is new in the innermost scope, if there may be any.
def Declares (binds : Bool) (env after : Env) : Prop :=
  binds = true ∧ ∃ name datum, env.declare name datum = some after

theorem Declares.widen {binds more : Bool}
    (h : Relation.ReflTransGen (Declares binds) env after) (hmore : binds = true → more = true) :
    Relation.ReflTransGen (Declares more) env after :=
  Relation.ReflTransGen.mono (fun _ _ hdeclares => ⟨hmore hdeclares.1, hdeclares.2⟩) _ _ h

theorem declares_of_called {binds : Bool} {expr : Expr} {callee : Callee}
    (hvalue : ∀ {datum after}, expr.eval library env = some (datum, after) →
      Relation.ReflTransGen (Declares binds) env after)
    (h : expr.called env (expr.eval library env) = some (callee, after)) :
    Relation.ReflTransGen (Declares binds) env after := by
  unfold called at h
  split at h
  · cases h
    exact .refl
  · obtain ⟨⟨found, behind⟩, hfound, heq⟩ := Option.map_eq_some_iff.mp h
    cases heq
    exact hvalue hfound

-- An evaluation only adds names. The induction follows the tree and chains what the parts add.
theorem declares_of_eval {expr : Expr} (h : expr.eval library env = some (datum, after)) :
    Relation.ReflTransGen (Declares expr.binds) env after := by
  induction expr generalizing env datum after with
  | number text position =>
      obtain ⟨value, -, heq⟩ := Option.map_eq_some_iff.mp h
      cases heq
      exact .refl
  | name text position =>
      obtain ⟨value, -, heq⟩ := Option.map_eq_some_iff.mp h
      cases heq
      exact .refl
  | negate operand position ih =>
      obtain ⟨⟨value, middle⟩, hvalue, h⟩ := Option.bind_eq_some_iff.mp h
      obtain ⟨result, -, heq⟩ := Option.map_eq_some_iff.mp h
      cases heq
      exact ih hvalue
  | binary operator left right position ihleft ihright =>
      have hleft : left.binds = true → (Expr.binary operator left right position).binds = true := by
        simp +contextual [binds]
      have hright : right.binds = true →
          (Expr.binary operator left right position).binds = true := by
        simp +contextual [binds]
      by_cases hassign : operator = .assign
      · subst hassign
        obtain ⟨⟨text, place⟩, -, h⟩ := Option.bind_eq_some_iff.mp h
        obtain ⟨⟨value, middle⟩, hvalue, h⟩ := Option.bind_eq_some_iff.mp h
        obtain ⟨declared, hdeclare, heq⟩ := Option.map_eq_some_iff.mp h
        cases heq
        exact (Declares.widen (ihright hvalue) hright).tail ⟨rfl, text, _, hdeclare⟩
      by_cases hcall : operator = .call
      · subst hcall
        obtain ⟨⟨callee, middle⟩, hcallee, h⟩ := Option.bind_eq_some_iff.mp h
        obtain ⟨⟨argument, behind⟩, hargument, h⟩ := Option.bind_eq_some_iff.mp h
        obtain ⟨result, -, heq⟩ := Option.map_eq_some_iff.mp h
        cases heq
        exact (Declares.widen (declares_of_called ihleft hcallee) hleft).trans
          (Declares.widen (ihright hargument) hright)
      · rw [eval_sign hassign hcall] at h
        obtain ⟨⟨first, middle⟩, hfirst, h⟩ := Option.bind_eq_some_iff.mp h
        obtain ⟨⟨second, behind⟩, hsecond, h⟩ := Option.bind_eq_some_iff.mp h
        obtain ⟨result, -, heq⟩ := Option.map_eq_some_iff.mp h
        cases heq
        exact (Declares.widen (ihleft hfirst) hleft).trans
          (Declares.widen (ihright hsecond) hright)
  | pipe value callee position ihvalue ihcallee =>
      obtain ⟨⟨first, middle⟩, hfirst, h⟩ := Option.bind_eq_some_iff.mp h
      obtain ⟨⟨second, behind⟩, hsecond, h⟩ := Option.bind_eq_some_iff.mp h
      obtain ⟨result, -, heq⟩ := Option.map_eq_some_iff.mp h
      cases heq
      refine (Declares.widen (ihvalue hfirst) ?_).trans
        (Declares.widen (declares_of_called ihcallee hsecond) ?_) <;> simp +contextual [binds]
  | pipeWith value callee argument position ihvalue ihcallee ihargument =>
      obtain ⟨⟨first, middle⟩, hfirst, h⟩ := Option.bind_eq_some_iff.mp h
      obtain ⟨⟨second, behind⟩, hsecond, h⟩ := Option.bind_eq_some_iff.mp h
      obtain ⟨⟨third, final⟩, hthird, h⟩ := Option.bind_eq_some_iff.mp h
      obtain ⟨result, -, heq⟩ := Option.map_eq_some_iff.mp h
      cases heq
      refine ((Declares.widen (ihvalue hfirst) ?_).trans
        (Declares.widen (declares_of_called ihcallee hsecond) ?_)).trans
        (Declares.widen (ihargument hthird) ?_) <;> simp +contextual [binds]
  | member subject field position ih =>
      obtain ⟨⟨value, middle⟩, hvalue, h⟩ := Option.bind_eq_some_iff.mp h
      obtain ⟨result, -, heq⟩ := Option.map_eq_some_iff.mp h
      cases heq
      exact ih hvalue
  | bracketed bracket inner opened closed ih =>
      cases bracket with
      | round => exact ih h
      | square =>
          obtain ⟨⟨value, middle⟩, hvalue, h⟩ := Option.bind_eq_some_iff.mp h
          obtain ⟨result, -, heq⟩ := Option.map_eq_some_iff.mp h
          cases heq
          exact ih hvalue
      | curly =>
          obtain ⟨found, -, heq⟩ := Option.map_eq_some_iff.mp h
          cases heq
          exact .refl

theorem env_of_eval {expr : Expr} (hbinds : expr.binds = false)
    (h : expr.eval library env = some (datum, after)) : after = env := by
  have hdeclares := declares_of_eval h
  rw [hbinds] at hdeclares
  induction hdeclares with
  | refl => rfl
  | tail hbefore hlast ih => exact absurd hlast.1 Bool.false_ne_true

-- The scopes around the innermost one stay as they are.
theorem tail_of_eval {expr : Expr} (h : expr.eval library env = some (datum, after)) :
    after.tail = env.tail := by
  have hdeclares := declares_of_eval h
  clear h
  induction hdeclares with
  | refl => rfl
  | @tail middle last hbefore hlast ih =>
      obtain ⟨-, name, value, hdeclare⟩ := hlast
      cases middle with
      | nil => contradiction
      | cons level outer =>
          simp only [Env.declare] at hdeclare
          split at hdeclare
          · contradiction
          · cases hdeclare
            exact ih

end Declarations

end Expr

end Sluice

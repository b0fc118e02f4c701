import Mathlib
import Sluice.Proofs.Mistakes

namespace Sluice

inductive Registration
  | native (name : String) (result argument : Ty) (compute : Bytes → Nat → Option Bytes)
  | constant (name : String) (ty : Ty) (bytes : Bytes)

def Registration.name : Registration → String
  | .native name _ _ _ => name
  | .constant name _ _ => name

-- Entries that one scope can hold: equal names need different types.
def Apart (left right : String × Ty) : Prop :=
  left.1 = right.1 → left.2.same right.2 = false

instance (left right : String × Ty) : Decidable (Apart left right) :=
  inferInstanceAs (Decidable (left.1 = right.1 → left.2.same right.2 = false))

def Native.entry (native : Native) : String × Ty := (native.name, native.ty)

def Constant.entry (constant : Constant) : String × Ty := (constant.name, constant.ty)

namespace Library

def register (library : Library) : Registration → Except Failure Library
  | .native name result argument compute =>
      (library.registerNative name result argument compute).map Prod.snd
  | .constant name ty bytes => library.registerConstant name ty bytes

-- The first registration that is refused ends it.
def registerAll (library : Library) (registrations : List Registration) :
    Except Failure Library :=
  registrations.foldlM register library

-- No native has both the name and the type of a constant.
def Unambiguous (library : Library) : Prop :=
  ∀ native ∈ library.natives, ∀ constant ∈ library.constants, Apart native.entry constant.entry

instance (library : Library) : Decidable library.Unambiguous :=
  inferInstanceAs (Decidable (∀ native ∈ library.natives, ∀ constant ∈ library.constants,
    Apart native.entry constant.entry))

-- What registering sees to: each kind of entries for itself, and the bytes of the constants.
structure Accepted (library : Library) : Prop where
  natives : (library.natives.map Native.entry).Pairwise Apart
  constants : (library.constants.map Constant.entry).Pairwise Apart
  size : ∀ constant ∈ library.constants,
    constant.ty.size?.map UInt32.toNat = some constant.bytes.length

theorem accepted_empty : Library.empty.Accepted :=
  ⟨.nil, .nil, by simp [Library.empty]⟩

theorem accepted_standard : Library.standard.Accepted :=
  ⟨by decide +kernel, by decide +kernel, checked_standard.size⟩

theorem Accepted.register {library larger : Library} {registration : Registration}
    (hlibrary : library.Accepted) (h : library.register registration = .ok larger) :
    larger.Accepted := by
  cases registration with
  | native name result argument compute =>
      obtain ⟨⟨id, found⟩, hregister, rfl⟩ := map_eq_ok.mp h
      obtain ⟨hnew, rfl⟩ := registerNative_eq_ok hregister
      refine ⟨?_, hlibrary.constants, hlibrary.size⟩
      rw [List.map_append, List.pairwise_append]
      refine ⟨hlibrary.natives, List.pairwise_singleton _ _, ?_⟩
      simpa [Apart, Native.entry, Native.ofFunction] using hnew
  | constant name ty bytes =>
      obtain ⟨hsize, hnew, rfl⟩ := registerConstant_eq_ok h
      refine ⟨hlibrary.natives, ?_,
        List.forall_mem_append.mpr ⟨hlibrary.size, List.forall_mem_singleton.mpr hsize⟩⟩
      rw [List.map_append, List.pairwise_append]
      refine ⟨hlibrary.constants, List.pairwise_singleton _ _, ?_⟩
      simpa [Apart, Constant.entry] using hnew

theorem Accepted.registerAll {library larger : Library} {registrations : List Registration}
    (hlibrary : library.Accepted) (h : library.registerAll registrations = .ok larger) :
    larger.Accepted :=
  foldlM_keeps (fun _ _ _ _ hstate hnext => hstate.register hnext) hlibrary h

end Library

namespace Scopes

-- A constant that is laid behind what the pool holds.
def constantRow (pool : Pool) (constant : Constant) : String × Binding :=
  (constant.name, ⟨constant.ty, .pool (pool.push constant.bytes constant.ty.alignment).1⟩)

def constantRows : Pool → List Constant → List (String × Binding)
  | _, [] => []
  | pool, constant :: rest =>
      constantRow pool constant ::
        constantRows (pool.push constant.bytes constant.ty.alignment).2 rest

def filled (pool : Pool) (constants : List Constant) : Pool :=
  constants.foldl (fun pool constant => (pool.push constant.bytes constant.ty.alignment).2) pool

-- The bindings of the root scope, in the order in which they are declared.
def rows (library : Library) : List (String × Binding) :=
  library.handles.map nativeRow ++ constantRows .empty library.constants

def declareAll (scopes : Scopes) (rows : List (String × Binding)) : Except Failure Scopes :=
  rows.foldlM (fun scopes row => scopes.declare row.1 row.2 .start) scopes

def rowEntry (row : String × Binding) : String × Ty := (row.1, row.2.ty)

theorem map_rowEntry_handles (library : Library) :
    (library.handles.map nativeRow).map rowEntry = library.natives.map Native.entry := by
  have hfst : library.natives.zipIdx.map Prod.fst = library.natives :=
    List.zipIdx_map_fst 0 library.natives
  rw [Library.handles, List.map_map, List.map_map]
  conv_rhs => rw [← hfst, List.map_map]
  rfl

theorem map_rowEntry_constantRows (pool : Pool) (constants : List Constant) :
    (constantRows pool constants).map rowEntry = constants.map Constant.entry := by
  induction constants generalizing pool with
  | nil => rfl
  | cons constant rest ih =>
      rw [constantRows, List.map_cons, List.map_cons, ih]
      rfl

private theorem declareConstant_eq {scopes : Scopes} {pool : Pool} {constant : Constant}
    (hsize : constant.ty.size?.map UInt32.toNat = some constant.bytes.length) :
    declareConstant (scopes, pool) constant =
      (scopes.declare constant.name (constantRow pool constant).2 .start).map fun declared =>
        (declared, (pool.push constant.bytes constant.ty.alignment).2) := by
  obtain ⟨size, hsize, hlength⟩ := Option.map_eq_some_iff.mp hsize
  simp only [declareConstant, Pool.pushTyped, hsize, inRange, ok_bind, hlength, ne_eq,
    not_true_eq_false, if_false, constantRow]
  cases scopes.declare constant.name _ _ <;> rfl

private theorem declareConstants_eq {constants : List Constant}
    (hsize : ∀ constant ∈ constants,
      constant.ty.size?.map UInt32.toNat = some constant.bytes.length)
    (scopes : Scopes) (pool : Pool) :
    constants.foldlM declareConstant (scopes, pool) =
      (scopes.declareAll (constantRows pool constants)).map fun declared =>
        (declared, filled pool constants) := by
  induction constants generalizing scopes pool with
  | nil => rfl
  | cons constant rest ih =>
      obtain ⟨hfirst, hrest⟩ := List.forall_mem_cons.mp hsize
      rw [List.foldlM_cons, declareConstant_eq hfirst, constantRows, declareAll, List.foldlM_cons]
      cases hdeclare : scopes.declare constant.name (constantRow pool constant).2 .start with
      | error failure =>
          simp only [constantRow] at hdeclare ⊢
          rw [hdeclare]
          rfl
      | ok declared =>
          simp only [constantRow] at hdeclare ⊢
          rw [hdeclare]
          exact ih hrest declared _

-- The root scope is one declaration after the other, provided that the constants fit their types.
theorem ofLibrary_eq_declareAll {library : Library}
    (hsize : ∀ constant ∈ library.constants,
      constant.ty.size?.map UInt32.toNat = some constant.bytes.length) :
    ofLibrary library =
      (empty.declareAll (rows library)).map fun scopes =>
        (scopes, filled .empty library.constants) := by
  have hnatives : library.handles.foldlM declareNative empty =
      empty.declareAll (library.handles.map nativeRow) := by
    rw [declareAll, List.foldlM_map]
    rfl
  have hrows : empty.declareAll (rows library) =
      empty.declareAll (library.handles.map nativeRow) >>= fun scopes =>
        scopes.declareAll (constantRows .empty library.constants) := List.foldlM_append
  rw [ofLibrary, hnatives, hrows]
  cases empty.declareAll (library.handles.map nativeRow) with
  | error failure => rfl
  | ok scopes => exact declareConstants_eq hsize scopes .empty

private theorem declare_of_apart {scopes : Scopes} {row : String × Binding}
    (h : ∀ other ∈ scopes.current.bindings, Apart (rowEntry other) (rowEntry row)) :
    scopes.declare row.1 row.2 .start = .ok (scopes.extended [row]) := by
  have hfind : (scopes.current.overloads row.1).find? (fun other => other.ty.same row.2.ty) =
      none := by
    refine List.find?_eq_none.mpr fun binding hbinding => ?_
    simp only [Scope.overloads, List.mem_map, List.mem_filter, decide_eq_true_eq] at hbinding
    obtain ⟨other, ⟨hmem, hname⟩, rfl⟩ := hbinding
    have hapart : other.2.ty.same row.2.ty = false := h other hmem hname
    simp [hapart]
  simp only [declare, hfind]
  rfl

private theorem declare_of_not_apart {scopes : Scopes} {row other : String × Binding}
    (hmem : other ∈ scopes.current.bindings) (h : ¬ Apart (rowEntry other) (rowEntry row)) :
    ∃ found ∈ scopes.current.bindings, ¬ Apart (rowEntry found) (rowEntry row) ∧
      scopes.declare row.1 row.2 .start =
        .error (.located .start (.alreadyBound row.1 found.2.ty)) := by
  have hclash : other.1 = row.1 ∧ other.2.ty.same row.2.ty = true := by
    simpa [Apart, rowEntry] using h
  have hsome : ((scopes.current.overloads row.1).find?
      fun binding => binding.ty.same row.2.ty).isSome = true := by
    refine List.find?_isSome.mpr ⟨other.2, ?_, hclash.2⟩
    simp only [Scope.overloads, List.mem_map, List.mem_filter, decide_eq_true_eq]
    exact ⟨other, ⟨hmem, hclash.1⟩, rfl⟩
  obtain ⟨binding, hfind⟩ := Option.isSome_iff_exists.mp hsome
  have hsame := List.find?_some hfind
  have hfound := List.mem_of_find?_eq_some hfind
  simp only [Scope.overloads, List.mem_map, List.mem_filter, decide_eq_true_eq] at hfound
  obtain ⟨found, ⟨hfound, hname⟩, rfl⟩ := hfound
  refine ⟨found, hfound, ?_, ?_⟩
  · simpa [Apart, rowEntry, hname] using hsame
  · simp only [declare, hfind]

-- Rows that are apart from each other and from what the scope holds are all declared. Otherwise
-- the first row that is not apart from one before it is refused.
theorem declareAll_cases (scopes : Scopes) (rows : List (String × Binding))
    (hscopes : (scopes.current.bindings.map rowEntry).Pairwise Apart) :
    (((scopes.current.bindings ++ rows).map rowEntry).Pairwise Apart ∧
      scopes.declareAll rows = .ok (scopes.extended rows)) ∨
    ∃ front row rest other, rows = front ++ row :: rest ∧
      other ∈ scopes.current.bindings ++ front ∧ ¬ Apart (rowEntry other) (rowEntry row) ∧
      scopes.declareAll rows = .error (.located .start (.alreadyBound row.1 other.2.ty)) := by
  induction rows generalizing scopes with
  | nil => exact .inl ⟨by simpa using hscopes, by simp [declareAll, extended]; rfl⟩
  | cons row rest ih =>
      by_cases hrow : ∀ other ∈ scopes.current.bindings, Apart (rowEntry other) (rowEntry row)
      · have hdeclare := declare_of_apart hrow
        have hnext : ((scopes.extended [row]).current.bindings.map rowEntry).Pairwise Apart := by
          rw [extended, List.map_append, List.pairwise_append]
          refine ⟨hscopes, List.pairwise_singleton _ _, ?_⟩
          rw [List.forall_mem_map]
          intro other hother
          exact List.forall_mem_singleton.mpr (hrow other hother)
        have hstep : scopes.declareAll (row :: rest) = (scopes.extended [row]).declareAll rest := by
          rw [declareAll, List.foldlM_cons, hdeclare]
          rfl
        rw [hstep]
        rcases ih (scopes.extended [row]) hnext with ⟨hapart, hall⟩ | hclash
        · refine .inl ⟨by simpa [extended] using hapart, ?_⟩
          rw [hall]
          simp [extended]
        · obtain ⟨front, found, behind, other, rfl, hother, hclash⟩ := hclash
          refine .inr ⟨row :: front, found, behind, other, rfl, ?_, hclash⟩
          simpa [extended] using hother
      · push Not at hrow
        obtain ⟨other, hmem, hother⟩ := hrow
        obtain ⟨found, hfound, hclash, hdeclare⟩ := declare_of_not_apart hmem hother
        refine .inr ⟨[], row, rest, found, rfl, by simpa using hfound, hclash, ?_⟩
        rw [declareAll, List.foldlM_cons, hdeclare]
        rfl

-- Everything in the root scope and in the pool, entry by entry.
theorem ofLibrary_eq_rows {library : Library} {scopes : Scopes} {literals : Pool}
    (h : ofLibrary library = .ok (scopes, literals)) :
    scopes = empty.extended (rows library) ∧ literals = filled .empty library.constants := by
  obtain ⟨found, -, hlies⟩ := ofLibrary_eq_ok h
  rw [ofLibrary_eq_declareAll fun constant hmem => (exists_of_mem_left hlies hmem).elim
    fun _ hrow => hrow.2.size] at h
  rcases declareAll_cases empty (rows library) .nil with ⟨-, hall⟩ | hclash
  · rw [hall] at h
    cases h
    exact ⟨rfl, rfl⟩
  · obtain ⟨front, row, rest, other, -, -, -, hall⟩ := hclash
    rw [hall] at h
    contradiction

theorem map_rowEntry_rows (library : Library) :
    (rows library).map rowEntry =
      library.natives.map Native.entry ++ library.constants.map Constant.entry := by
  rw [rows, List.map_append, map_rowEntry_handles, map_rowEntry_constantRows]

-- Two entries of one kind are apart, so a clash is between a native and a constant behind it.
theorem ofLibrary_cases {library : Library} (h : library.Accepted) :
    (library.Unambiguous ∧ ofLibrary library =
      .ok (empty.extended (rows library), filled .empty library.constants)) ∨
    ∃ native ∈ library.natives, ∃ constant ∈ library.constants,
      ¬ Apart native.entry constant.entry ∧
      ofLibrary library = .error (.located .start (.alreadyBound constant.name native.ty)) := by
  have hkinds : ((rows library).map rowEntry).Pairwise fun left right =>
      Apart left right ∨
        (left ∈ library.natives.map Native.entry ∧ right ∈ library.constants.map Constant.entry) := by
    rw [map_rowEntry_rows, List.pairwise_append]
    exact ⟨h.natives.imp .inl, h.constants.imp .inl, fun _ hleft _ hright => .inr ⟨hleft, hright⟩⟩
  rw [ofLibrary_eq_declareAll h.size]
  rcases declareAll_cases empty (rows library) .nil with ⟨hapart, hall⟩ | hclash
  · have hrows : ((rows library).map rowEntry).Pairwise Apart := hapart
    rw [map_rowEntry_rows, List.pairwise_append] at hrows
    refine .inl ⟨fun native hnative constant hconstant => ?_, by rw [hall]; rfl⟩
    exact hrows.2.2 _ (List.mem_map_of_mem hnative) _ (List.mem_map_of_mem hconstant)
  · obtain ⟨front, row, rest, other, hrows, hother, hclash, hall⟩ := hclash
    have hfront : other ∈ front := by simpa [empty] using hother
    rw [hrows, List.map_append, List.map_cons, List.pairwise_append] at hkinds
    have hpair := hkinds.2.2 _ (List.mem_map_of_mem hfront) _ (List.mem_cons_self ..)
    obtain ⟨hnative, hconstant⟩ := hpair.resolve_left hclash
    obtain ⟨native, hnative, hleft⟩ := List.mem_map.mp hnative
    obtain ⟨constant, hconstant, hright⟩ := List.mem_map.mp hconstant
    refine .inr ⟨native, hnative, constant, hconstant, hleft ▸ hright ▸ hclash, ?_⟩
    obtain ⟨-, hty⟩ := Prod.mk.inj hleft
    obtain ⟨hname, -⟩ := Prod.mk.inj hright
    rw [hall, hty, hname]
    rfl

end Scopes

-- A program that needs no library.
def Source.one : Bytes := "1".toUTF8.toList

private theorem Source.compile_one {library : Library} {scopes : Scopes} {literals : Pool}
    (h : Scopes.ofLibrary library = .ok (scopes, literals)) :
    ∃ program, Source.compile library Source.one = .ok program := by
  have hexpr : Source.expr Source.one = .ok (.number "1" .start, .start) := by decide +kernel
  have hpoint : "1".contains '.' = false := by simp
  have hread : Decimal.readInteger? "1" = some 1 := by decide +kernel
  have hfits : Primitive.i32.least ≤ 1 ∧ 1 ≤ Primitive.i32.greatest := by decide
  have hdepth : scopes.depth = 1 := by
    obtain ⟨rows, rfl, -⟩ := Scopes.ofLibrary_eq_ok h
    rfl
  obtain ⟨ty, segment, hbuild⟩ : ∃ ty segment,
      (Expr.number "1" .start).build scopes = .ok (.value ty segment, scopes) := by
    simp [Expr.build, Analysis.Piece.number, hpoint, hread, hfits, Analysis.join,
      Analysis.Operand.made]
  simp [Source.compile_eq_build, hexpr, h, hbuild, Analysis.Plan.finish, Analysis.Piece.settle,
    Analysis.Operand.settle, hdepth]

-- A library that was filled by registering can be used exactly if it is unambiguous, and otherwise
-- the failure names the native and the constant that clash. No program compiles then, whichever it is.
theorem ofLibrary_registered_iff (base library : Library) (registrations : List Registration)
    (hbase : base = .empty ∨ base = .standard)
    (h : base.registerAll registrations = .ok library) :
    ((∃ scopes literals, Scopes.ofLibrary library = .ok (scopes, literals)) ↔
      library.Unambiguous) ∧
    (∀ failure, Scopes.ofLibrary library = .error failure →
      ∃ native ∈ library.natives, ∃ constant ∈ library.constants,
        native.name = constant.name ∧ native.ty.same constant.ty = true ∧
        failure = .located .start (.alreadyBound constant.name native.ty)) ∧
    ((∃ source program, Source.compile library source = .ok program) ↔ library.Unambiguous) := by
  have haccepted : library.Accepted := by
    rcases hbase with rfl | rfl
    · exact Library.accepted_empty.registerAll h
    · exact Library.accepted_standard.registerAll h
  have hcompile : (∃ source program, Source.compile library source = .ok program) ↔
      ∃ scopes literals, Scopes.ofLibrary library = .ok (scopes, literals) := by
    constructor
    · rintro ⟨source, program, hcompile⟩
      rw [Source.compile_eq_build] at hcompile
      obtain ⟨parsed, -, hcompile⟩ := bind_eq_ok.mp hcompile
      obtain ⟨root, hroot, -⟩ := bind_eq_ok.mp hcompile
      exact ⟨root.1, root.2, hroot⟩
    · rintro ⟨scopes, literals, hroot⟩
      exact ⟨Source.one, Source.compile_one hroot⟩
  rw [hcompile]
  rcases Scopes.ofLibrary_cases haccepted with ⟨hclear, hroot⟩ | hclash
  · simp [hroot, hclear]
  · obtain ⟨native, hnative, constant, hconstant, hclash, hroot⟩ := hclash
    have hambiguous : ¬ library.Unambiguous := fun hclear =>
      hclash (hclear native hnative constant hconstant)
    have hpair : native.name = constant.name ∧ native.ty.same constant.ty = true := by
      simpa [Apart, Native.entry, Constant.entry] using hclash
    refine ⟨by simp [hroot, hambiguous], fun failure hfailure => ?_, by simp [hroot, hambiguous]⟩
    rw [hroot] at hfailure
    exact ⟨native, hnative, constant, hconstant, hpair.1, hpair.2, (Except.error.inj hfailure).symm⟩

-- More meanings for a name of the standard library: a native, a number, and a constant that is a
-- function of another type.
def Registration.powers : List Registration :=
  [.native "pow" Library.float Library.float fun argument _ => some argument,
    .constant "pow" Library.integer [2, 0, 0, 0],
    .constant "pow" (.func Library.integer Library.float) [11, 0, 0, 0, 0, 0, 0, 0]]

theorem ofLibrary_registered_powers :
    ∃ library, Library.standard.registerAll Registration.powers = .ok library ∧
      library.Unambiguous ∧
      (∃ scopes literals, Scopes.ofLibrary library = .ok (scopes, literals)) ∧
      ∃ source program, Source.compile library source = .ok program := by
  obtain ⟨library, hregister, hclear⟩ : ∃ library,
      Library.standard.registerAll Registration.powers = .ok library ∧ library.Unambiguous :=
    ⟨_, rfl, by decide +kernel⟩
  obtain ⟨hroot, -, hcompile⟩ :=
    ofLibrary_registered_iff .standard library _ (.inr rfl) hregister
  exact ⟨library, hregister, hclear, hroot.mpr hclear, hcompile.mpr hclear⟩

-- A native and a constant that is a handle of the same type.
def Registration.twins : List Registration :=
  [.native "f" Library.integer Library.integer fun argument _ => some argument,
    .constant "f" (.func Library.integer Library.integer) [0, 0, 0, 0, 0, 0, 0, 0]]

-- Both are accepted, and then there is no root scope for any program.
theorem ofLibrary_registered_twins :
    Library.integer.isWellFormed = true ∧
    (Ty.func Library.integer Library.integer).isWellFormed = true ∧
    ∃ library, Library.empty.registerAll Registration.twins = .ok library ∧
      Scopes.ofLibrary library =
        .error (.located .start (.alreadyBound "f" (.func Library.integer Library.integer))) ∧
      (Problem.alreadyBound "f" (.func Library.integer Library.integer)).kind =
        .duplicateBinding := by
  exact ⟨by decide +kernel, by decide +kernel, _, rfl, rfl, rfl⟩

end Sluice

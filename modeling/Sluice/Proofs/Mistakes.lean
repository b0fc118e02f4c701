import Mathlib
import Sluice.Proofs.Defects
import Sluice.Proofs.StackLayout

namespace Sluice

-- Types as they can be made from outside.
inductive Ty.Constructed : Ty → Prop
  | ofPrimitive (primitive : Primitive) : Constructed (.ofPrimitive primitive)
  | ofAtoms {atoms : List Atom} (h : Atom.typeEnd? atoms 0 = some atoms.length) :
      Constructed (.ofAtoms atoms)
  | tuple {elements : List Ty} (h : ∀ element ∈ elements, Constructed element) :
      Constructed (.tuple elements)
  | array {element : Ty} (count : UInt32) (h : Constructed element) :
      Constructed (.array element count)
  | func {result argument : Ty} (hresult : Constructed result) (hargument : Constructed argument) :
      Constructed (.func result argument)
  | append {left right whole : Ty} (hleft : Constructed left) (hright : Constructed right)
      (h : left.append? right = some whole) : Constructed whole
  | close {ty : Ty} (h : Constructed ty) : Constructed ty.close

theorem Ty.Constructed.regular {ty : Ty} (h : ty.Constructed) : ty.Regular := by
  induction h with
  | ofPrimitive primitive =>
      exact .of_closed (Ty.isWellFormed_iff.mpr ⟨_, Ty.describes_ofPrimitive primitive⟩) rfl
  | @ofAtoms atoms h =>
      obtain ⟨tree, rfl⟩ := Atom.typeEnd?_eq_length_iff.mp h
      exact .of_closed (Ty.isWellFormed_iff.mpr ⟨tree, Ty.describes_ofAtoms tree⟩) rfl
  | @tuple elements h ih =>
      obtain ⟨trees, htrees⟩ := Ty.exists_trees fun element hmem => (ih element hmem).wellFormed
      exact .of_closed (Ty.isWellFormed_iff.mpr ⟨_, Ty.describes_tuple htrees⟩) rfl
  | array count h ih => exact Ty.kept_regular.array count ih
  | func hresult hargument ihresult ihargument =>
      obtain ⟨resultTree, hresult⟩ := Ty.isWellFormed_iff.mp ihresult.wellFormed
      obtain ⟨argumentTree, hargument⟩ := Ty.isWellFormed_iff.mp ihargument.wellFormed
      exact .of_closed (Ty.isWellFormed_iff.mpr ⟨_, Ty.describes_func hresult hargument⟩) rfl
  | append hleft hright h ihleft ihright => exact Ty.kept_regular.append ihleft ihright h
  | close h ih => exact Ty.kept_regular.close ih

namespace Library

-- A library that was filled by registering, from nothing or from the standard one.
inductive Registered : Library → Prop
  | empty : Registered .empty
  | standard : Registered .standard
  | native {library larger : Library} {name : String} {result argument : Ty}
      {compute : Bytes → Nat → Option Bytes} {id : NativeId} (h : Registered library)
      (hresult : result.Constructed) (hargument : argument.Constructed)
      (hregister : library.registerNative name result argument compute = .ok (id, larger)) :
      Registered larger
  | constant {library larger : Library} {name : String} {ty : Ty} {bytes : Bytes}
      (h : Registered library) (hty : ty.Constructed)
      (hregister : library.registerConstant name ty bytes = .ok larger) : Registered larger

-- What registering has checked.
structure Checked (library : Library) : Prop where
  native : ∀ native ∈ library.natives, native.ty.Regular
  constant : ∀ constant ∈ library.constants, constant.ty.Regular
  size : ∀ constant ∈ library.constants,
    constant.ty.size?.map UInt32.toNat = some constant.bytes.length

theorem checked_standard : Library.standard.Checked := by
  have hnatives : ∀ native ∈ Library.standard.natives,
      native.ty.isWellFormed = true ∧ native.ty.isClosed = true := by decide +kernel
  have hconstants : ∀ constant ∈ Library.standard.constants,
      (constant.ty.isWellFormed = true ∧ constant.ty.isClosed = true) ∧
      constant.ty.size?.map UInt32.toNat = some constant.bytes.length := by decide +kernel
  exact ⟨fun native hmem => .of_closed (hnatives native hmem).1 (hnatives native hmem).2,
    fun constant hmem => .of_closed (hconstants constant hmem).1.1 (hconstants constant hmem).1.2,
    fun constant hmem => (hconstants constant hmem).2⟩

theorem registerNative_eq_ok {library larger : Library} {name : String} {result argument : Ty}
    {compute : Bytes → Nat → Option Bytes} {id : NativeId}
    (h : library.registerNative name result argument compute = .ok (id, larger)) :
    (∀ native ∈ library.natives, native.name = name →
      native.ty.same (.func result argument) = false) ∧
    larger = { library with
      natives := library.natives ++ [.ofFunction name (.func result argument) compute] } := by
  simp only [registerNative] at h
  split at h
  · contradiction
  · rename_i hnew
    cases h
    exact ⟨by simpa using hnew, rfl⟩

theorem registerConstant_eq_ok {library larger : Library} {name : String} {ty : Ty}
    {bytes : Bytes} (h : library.registerConstant name ty bytes = .ok larger) :
    ty.size?.map UInt32.toNat = some bytes.length ∧
      (∀ constant ∈ library.constants, constant.name = name → constant.ty.same ty = false) ∧
      larger = { library with constants := library.constants ++ [⟨name, ty, bytes⟩] } := by
  obtain ⟨size, hsize, h⟩ := bind_eq_ok.mp h
  split at h
  · contradiction
  · rename_i hlength
    split at h
    · contradiction
    · rename_i hnew
      cases h
      rw [inRange_eq_ok.mp hsize]
      exact ⟨congrArg some (not_not.mp hlength).symm, by simpa using hnew, rfl⟩

theorem Registered.checked {library : Library} (h : library.Registered) : library.Checked := by
  induction h with
  | empty => exact ⟨by simp [Library.empty], by simp [Library.empty], by simp [Library.empty]⟩
  | standard => exact checked_standard
  | native h hresult hargument hregister ih =>
      obtain ⟨-, rfl⟩ := registerNative_eq_ok hregister
      refine ⟨List.forall_mem_append.mpr ⟨ih.native, ?_⟩, ih.constant, ih.size⟩
      exact List.forall_mem_singleton.mpr (Ty.Constructed.func hresult hargument).regular
  | constant h hty hregister ih =>
      obtain ⟨hsize, -, rfl⟩ := registerConstant_eq_ok hregister
      exact ⟨ih.native,
        List.forall_mem_append.mpr ⟨ih.constant, List.forall_mem_singleton.mpr hty.regular⟩,
        List.forall_mem_append.mpr ⟨ih.size, List.forall_mem_singleton.mpr hsize⟩⟩

theorem Registered.isFunc {library : Library} (h : library.Registered) :
    ∀ native ∈ library.natives, native.ty.isFunc = true := by
  induction h with
  | empty => simp [Library.empty]
  | standard => decide +kernel
  | native h hresult hargument hregister ih =>
      obtain ⟨-, rfl⟩ := registerNative_eq_ok hregister
      exact List.forall_mem_append.mpr ⟨ih, List.forall_mem_singleton.mpr rfl⟩
  | constant h hty hregister ih =>
      obtain ⟨-, -, rfl⟩ := registerConstant_eq_ok hregister
      exact ih

-- All types that a library brings along.
def types (library : Library) : List Ty :=
  library.natives.map Native.ty ++ library.constants.map Constant.ty

end Library

section Root

open Analysis

variable {P : Position → Prop}

theorem clean_foldlM {α β : Type} {step : β → α → Except Failure β} {items : List α}
    (hstep : ∀ item ∈ items, ∀ state, Clean P (step state item)) (first : β) :
    Clean P (items.foldlM step first) := by
  induction items generalizing first with
  | nil => trivial
  | cons item items ih =>
      obtain ⟨hitem, hitems⟩ := List.forall_mem_cons.mp hstep
      exact Meets.bind (hitem first) fun next _ => ih hitems next

theorem clean_pushTyped {pool : Pool} {constant : Constant}
    (hsize : constant.ty.size?.map UInt32.toNat = some constant.bytes.length) :
    Clean P (pool.pushTyped constant.ty constant.bytes) := by
  obtain ⟨size, hsize, hlength⟩ := Option.map_eq_some_iff.mp hsize
  simp only [Pool.pushTyped, hsize, inRange, ok_bind, hlength, ne_eq, not_true_eq_false, if_false]
  trivial

-- Names of a library may clash, but that is all.
theorem clean_ofLibrary {library : Library} (hstart : P .start) (hlibrary : library.Checked) :
    Clean P (Scopes.ofLibrary library) := by
  refine Meets.bind (clean_foldlM (fun entry _ scopes => clean_declare hstart) _) fun scopes _ => ?_
  refine clean_foldlM (fun constant hmem state => ?_) _
  refine Meets.bind (clean_pushTyped (hlibrary.size constant hmem)) fun _ _ => ?_
  exact Meets.bind (clean_declare hstart) fun _ _ => trivial

-- Whatever fails in a compilation is a mistake in the text.
theorem Source.clean_compile {library : Library} {source : Bytes} (hlibrary : library.Checked)
    (hindexable : ∀ ty ∈ library.types, ty.Indexable) (hsource : source.length < 2 ^ 32)
    (hevents : ∀ event ∈ (Source.compileLogged library source).1,
      event.Holds Instruction.Indexable) :
    Clean (Position.Within source) (Source.compile library source) := by
  rw [Source.compile_eq_build]
  refine Meets.chain (Source.meets_expr hsource) fun parsed hexpr => ?_
  obtain ⟨expr, last⟩ := parsed
  have hplaces := Source.meets_expr hsource
  rw [hexpr] at hplaces
  refine Meets.chain (clean_ofLibrary (Position.within_start source) hlibrary)
    fun root hroot => ?_
  obtain ⟨scopes, literals⟩ := root
  have hplan : Plan.Ready ⟨[], scopes⟩ := by
    refine ⟨⟨by simp, Scopes.typed_ofLibrary hlibrary.native hlibrary.constant hroot⟩, ?_,
      by simp [Plan.code, codeOf]⟩
    refine Scopes.typed_ofLibrary (fun native hmem => ?_) (fun constant hmem => ?_) hroot
    · exact hindexable _ (List.mem_append_left _ (List.mem_map_of_mem hmem))
    · exact hindexable _ (List.mem_append_right _ (List.mem_map_of_mem hmem))
  have hsees := Source.sees_postfixTokens faithful_indexable hexpr hroot hevents
  refine Meets.chain (Expr.clean_build expr hplaces hplan hsees) fun found hbuild => ?_
  obtain ⟨operand, outer⟩ := found
  obtain ⟨hoperand, hplan⟩ := Expr.ready_of_build hplaces hplan hsees hbuild
  refine clean_finish hplan.toScopes hoperand ?_
  obtain ⟨rows, rfl, -⟩ := Scopes.ofLibrary_eq_ok hroot
  exact Expr.depth_of_build hbuild

end Root

theorem Report.foldl_remark (remarks : List (Position × String)) (report : Report) :
    remarks.foldl (fun report remark => report.remark (some remark.1) remark.2) report =
      { report with remarks := report.remarks ++ remarks.map fun remark =>
          ⟨.remark, some remark.1, remark.2, ""⟩ } := by
  induction remarks generalizing report with
  | nil => simp
  | cons remark remarks ih =>
      rw [List.foldl_cons, ih]
      simp [Report.remark]

-- Every statement of a quoted report stands for one of the places, and has the line around it.
theorem Failure.Blames.quoted {source : Bytes} {failure : Failure}
    (h : failure.Blames (Position.Within source)) :
    ∀ statement ∈ (Source.report source failure).statements, ∃ position,
      statement.position = some position ∧
      Source.lineAt? source position = some statement.line := by
  have hquote : ∀ position ∈ failure.places, ∀ weight message line,
      ∃ found, ((⟨weight, some position, message, line⟩ : Report.Statement).quote source).position =
        some found ∧ Source.lineAt? source found =
          some ((⟨weight, some position, message, line⟩ : Report.Statement).quote source).line := by
    intro position hposition weight message line
    obtain ⟨text, htext⟩ := Option.isSome_iff_exists.mp
      (Source.isSome_lineAt? (h.places position hposition))
    exact ⟨position, rfl, by simp [Report.Statement.quote, htext]⟩
  obtain ⟨position, hposition⟩ := Option.isSome_iff_exists.mp h.located
  simp only [Source.report, Failure.report, Report.foldl_remark, Report.ofMessage, hposition,
    Report.quote, Report.statements, List.nil_append, List.forall_mem_cons, List.forall_mem_map]
  refine ⟨hquote position (by simp [Failure.places, hposition]) _ _ _, fun remark hremark => ?_⟩
  exact hquote remark.1 (List.mem_append_right _ (List.mem_map_of_mem hremark)) _ _ _

-- No text makes the compiler report a defect in itself. Types have fewer atoms than an index can
-- count, and the text fewer bytes than a word can count.
theorem compile_blames_source (library : Library) (source : Bytes) (hlibrary : library.Registered)
    (hindexable : ∀ ty ∈ library.types, ty.Indexable) (hsource : source.length < 2 ^ 32)
    (hevents : ∀ event ∈ (Source.compileLogged library source).1,
      event.Holds Instruction.Indexable) :
    (∃ program, Source.compile library source = .ok program) ∨
    ∃ failure, Source.compile library source = .error failure ∧
      (Source.report source failure).isDefect = false ∧
      ∀ statement ∈ (Source.report source failure).statements, ∃ position,
        statement.position = some position ∧
        Source.lineAt? source position = some statement.line := by
  have hclean := Source.clean_compile hlibrary.checked hindexable hsource hevents
  cases hcompile : Source.compile library source with
  | ok program => exact .inl ⟨program, rfl⟩
  | error failure =>
      rw [hcompile] at hclean
      have hblames : failure.Blames (Position.Within source) := hclean
      refine .inr ⟨failure, rfl, ?_, hblames.quoted⟩
      have hkind : (Source.report source failure).kind = failure.problem.kind := by
        simp [Source.report, Failure.report, Report.foldl_remark, Report.ofMessage, Report.quote]
      simpa [Report.isDefect, hkind] using hblames.kind

theorem Library.registered_echoing : Library.echoing.Registered := by
  have hinteger : (Ty.ofPrimitive .i32).Constructed := .ofPrimitive .i32
  have hecho : Library.empty.registerNative "echo" (.ofPrimitive .i32) (.ofPrimitive .i32)
      (fun argument _ => some argument) = .ok (⟨0⟩, ⟨Library.echoing.natives, []⟩) := rfl
  have hseven : (⟨Library.echoing.natives, []⟩ : Library).registerConstant "seven"
      (.ofPrimitive .i32) [7, 0, 0, 0] = .ok .echoing := rfl
  exact .constant (.native .empty hinteger hinteger hecho) hinteger hseven

-- A block, a pipe and a member, and then a name that only the block knows.
def Source.escaping : Bytes := "\x7ba := seven; (a, a)._2 |> echo\x7d; a".toUTF8.toList

theorem compile_blames_escaping :
    Library.echoing.Registered ∧ (∀ ty ∈ Library.echoing.types, ty.Indexable) ∧
      Source.escaping.length < 2 ^ 32 ∧
      (∀ event ∈ (Source.compileLogged .echoing Source.escaping).1,
        event.Holds Instruction.Indexable) ∧
      ∃ failure, Source.compile .echoing Source.escaping = .error failure ∧
        (Source.report Source.escaping failure).isDefect = false ∧
        ∀ statement ∈ (Source.report Source.escaping failure).statements, ∃ position,
          statement.position = some position ∧
          Source.lineAt? Source.escaping position = some statement.line := by
  have hindexable : ∀ ty ∈ Library.echoing.types, ty.Indexable := by decide +kernel
  have hlength : Source.escaping.length < 2 ^ 32 := by decide +kernel
  have hevents : ∀ event ∈ (Source.compileLogged .echoing Source.escaping).1,
      event.Holds Instruction.Indexable := by decide +kernel
  have hfails : (Source.compile .echoing Source.escaping).isOk = false := by decide +kernel
  refine ⟨Library.registered_echoing, hindexable, hlength, hevents, ?_⟩
  rcases compile_blames_source .echoing Source.escaping Library.registered_echoing hindexable
    hlength hevents with ⟨program, hprogram⟩ | hfailure
  · rw [hprogram] at hfails
    contradiction
  · exact hfailure

end Sluice

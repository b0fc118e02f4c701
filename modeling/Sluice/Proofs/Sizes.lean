import Mathlib
import Sluice.Proofs.Files
import Sluice.Proofs.Placements
import Sluice.Proofs.StackLayout

namespace Sluice

namespace Tree

-- Where the elements of a tuple begin, the first of them at `start`.
def offsets : Nat → List Tree → List Nat
  | _, [] => []
  | start, tree :: rest => start :: offsets (start + tree.size) rest

def memberOffsets : Tree → List Nat
  | .tuple elements => offsets 0 elements
  | _ => []

theorem offset_rows (position index : Nat) {start : Nat} {trees : List Tree}
    (h : start + sizeAll trees < UInt32.size) :
    (rows position index start trees).map (fun row => row.offset.toNat) = offsets start trees := by
  induction trees generalizing position index start with
  | nil => rfl
  | cons tree rest ih =>
      rw [sizeAll, ← Nat.add_assoc] at h
      have hstart : (UInt32.ofNat start).toNat = start :=
        UInt32.toNat_ofNat_of_lt' (by omega)
      simp only [rows, List.map_cons, offsets, hstart, ih _ _ h]

-- Brackets count the elements in a word, so an array is at most as large as its elements together.
theorem size_array_le (inner : Tree) (count : Nat) :
    (Tree.array inner (UInt32.ofNat count)).size ≤
      (Tree.tuple (List.replicate count inner)).size := by
  have hcount : (UInt32.ofNat count).toNat ≤ count := by
    rw [UInt32.toNat_ofNat']
    exact Nat.mod_le _ _
  rw [size, size, sizeAll_replicate, Nat.mul_comm]
  exact Nat.mul_le_mul_right _ hcount

end Tree

namespace Ty

-- The words of a type are its size and the offsets of its members as numbers.
def Exact (ty : Ty) : Prop :=
  ∃ tree, ty.Describes tree ∧ ty.size?.map UInt32.toNat = some tree.size ∧
    ty.members.map (fun row => row.offset.toNat) = tree.memberOffsets

variable {ty : Ty}

theorem Exact.extent_lt (h : ty.Exact) : ty.extent < UInt32.size := by
  obtain ⟨tree, htree, hsize, -⟩ := h
  rw [htree.size?, Option.map_some, Option.some.injEq] at hsize
  rw [htree.extent_eq, ← hsize]
  exact UInt32.toNat_lt_size _

theorem exact_of_extent_lt (hty : ty.isWellFormed = true) (h : ty.extent < UInt32.size) :
    ty.Exact := by
  obtain ⟨tree, htree⟩ := isWellFormed_iff.mp hty
  rw [htree.extent_eq] at h
  refine ⟨tree, htree, ?_, ?_⟩
  · rw [htree.size?, Option.map_some, UInt32.toNat_ofNat_of_lt' h]
  · rw [htree.members]
    cases tree with
    | tuple elements =>
        rw [Tree.size] at h
        exact Tree.offset_rows 1 1 (by omega)
    | _ => rfl

-- A slim type whose size fits into a word.
def Contained (ty : Ty) : Prop := ty.Slim ∧ ty.extent < UInt32.size

theorem Small.contained (h : ty.Small) : ty.Contained := by
  have hsize : ty.extent ≤ 16 := h.extent_le
  have hword : 16 < UInt32.size := by decide
  exact ⟨h.slim, by omega⟩

theorem Contained.brackets {element : Ty} {count : Nat} {position : Position} (h : ty.Contained)
    (hindexable : ty.isTuple = true → ty.Indexable)
    (helements : Analysis.Piece.elementsOf ty position = .ok (element, count)) :
    (array element (UInt32.ofNat count)).Contained := by
  refine ⟨(Analysis.carried_of_kept kept_slim).brackets h.1 hindexable helements, ?_⟩
  obtain ⟨tree, htree⟩ := isWellFormed_iff.mp h.1.isWellFormed
  obtain ⟨inner, hinner, hcases⟩ := Analysis.elementsOf_tree htree hindexable helements
  have hsize : ty.extent = tree.size := htree.extent_eq
  have harray : (array element (UInt32.ofNat count)).extent =
      (Tree.array inner (UInt32.ofNat count)).size := (describes_array hinner _).extent_eq
  have hle : (Tree.array inner (UInt32.ofNat count)).size ≤ tree.size := by
    rcases hcases with ⟨-, rfl⟩ | ⟨-, rfl, rfl⟩
    · exact Tree.size_array_le inner count
    · exact Nat.le_of_eq (Nat.mul_one _)
  have hlimit := h.2
  omega

theorem Contained.member {inner : Ty} {name : String} {row : Member} (h : ty.Contained)
    (htuple : ty.isTuple = true) (hindexable : ty.Indexable) (hrow : ty.member? name = some row)
    (hinner : inner? ty.atoms row.index.toNat = some inner) : inner.Contained := by
  refine ⟨kept_slim.member h.1 htuple hindexable hrow hinner, ?_⟩
  obtain ⟨tree, htree⟩ := isWellFormed_iff.mp h.1.isWellFormed
  obtain ⟨elements, rfl⟩ := htree.eq_tuple htuple
  obtain ⟨front, element, after, rfl, -, -, rfl⟩ :=
    inner?_of_member? htree hindexable hrow hinner
  have hlimit := h.2
  rw [htree.extent_eq, Tree.size, Tree.sizeAll_append, Tree.sizeAll] at hlimit
  rw [(describes_ofAtoms element).extent_eq]
  omega

theorem contained_undecided : Contained .undecided :=
  ⟨⟨_, describes_ofPrimitive .undecided, rfl⟩, by decide⟩

theorem carried_contained : Carried Contained := by
  constructor
  case numeric =>
    intro primitive hnumeric
    refine ⟨kept_slim.numeric hnumeric, ?_⟩
    rw [extent_ofPrimitive]
    cases primitive <;> decide
  case close =>
    intro ty h
    exact ⟨kept_slim.close h.1, h.2⟩
  case brackets =>
    intro ty element count position h hindexable helements
    exact h.brackets hindexable helements
  case result =>
    intro ty result h hresult
    exact (h.1.result hresult).contained
  case member =>
    intro ty inner name row h htuple hindexable hrow hinner
    exact h.member htuple hindexable hrow hinner
  case applied =>
    intro left right whole callee hleft hright hcallee happend hmatches
    have hwhole := (kept_slim.append hleft.1 hright.1 happend).isWellFormed
    exact (hcallee.1.argument hwhole hmatches).contained

end Ty

-- The sizes that nothing bounds from the outside: those of tuples, and the ends of the slots.
structure Instruction.Roomy (instruction : Instruction) : Prop where
  indexable : instruction.Indexable
  tuple : instruction.op = .tuple → instruction.result.extent < UInt32.size
  copy : instruction.op = .copy → instruction.frameEnd < UInt32.size

namespace Analysis

theorem uniform_roomy : Uniform Instruction.Roomy := by
  constructor
  · intro instruction placement
    exact ⟨fun h => ⟨h.indexable, h.tuple, h.copy⟩, fun h => ⟨h.indexable, h.tuple, h.copy⟩⟩
  · intro text position
    refine ⟨uniform_indexable.placeholder text position, ?_, ?_⟩
    · rintro ⟨⟩
    · rintro ⟨⟩

-- The frame bytes of an instruction end at a limit or before it.
def EndsWithin (limit : Nat) (instruction : Instruction) : Prop := instruction.frameEnd ≤ limit

theorem uniform_endsWithin (limit : Nat) : Uniform (EndsWithin limit) :=
  ⟨fun _ => Iff.rfl, fun _ _ => Nat.zero_le _⟩

-- An instruction whose frame bytes end at the limit does not get lost.
theorem uniform_frameEnd_ne {limit : Nat} (h : limit ≠ 0) :
    Uniform fun instruction => instruction.frameEnd ≠ limit :=
  ⟨fun _ => Iff.rfl, fun _ _ => h.symm⟩

section Signs

variable {literals : Pool} {scopes outer : Scopes} {kind : Token.Kind} {taken : List Piece}
  {operand : Operand}

theorem loads_endsWithin {limit : Nat} (h : scopes.Stored literals limit) :
    Loads (EndsWithin limit) scopes := by
  intro scope hscope entry hentry position
  have hstored := h scope hscope entry hentry
  obtain ⟨name, ty, storage⟩ := entry
  cases storage with
  | stack offset => exact hstored
  | _ => exact Nat.zero_le _

-- The frame grows up to the end of what an instruction of its own writes. Only a slot has an end.
theorem Makes.frameSize_eq (h : Makes scopes kind taken operand outer)
    (hroomy : operand.segment.last.Roomy) (htyped : ∀ piece ∈ taken, piece.Typed Ty.Contained)
    (hscopes : scopes.Typed Ty.Contained) :
    outer.frameSize.toNat =
      if kind.isBracket then scopes.frameSize.toNat
      else max scopes.frameSize.toNat operand.segment.last.frameEnd := by
  cases h with
  | @assign right ty segment name place size declared position hright hsize hdeclare =>
      have hty : ty.close.isWellFormed = true := by
        have hcontained := ((htyped right (by simp)).settle hscopes hright).1
        exact Ty.kept_isWellFormed.close hcontained.1.isWellFormed
      exact Scopes.frameSize_declare_allocate hty hsize (hroomy.copy rfl) hdeclare
  | arithmetic op position hop hleft hright hnumeric hsame =>
      cases kind <;> cases hop <;> exact (Nat.max_zero _).symm
  | group ty segment => rfl
  | groupName text position => rfl
  | array hsettle helements => rfl
  | blockEnd hsettle hleave => rw [Scopes.frameSize_leave hleave]; rfl
  | _ => exact (Nat.max_zero _).symm

theorem Makes.endsWithin (h : Makes scopes kind taken operand outer)
    (hroomy : operand.segment.last.Roomy) (htyped : ∀ piece ∈ taken, piece.Typed Ty.Contained)
    (hscopes : scopes.Typed Ty.Contained)
    (hstored : scopes.Stored literals scopes.frameSize.toNat)
    (htaken : ∀ piece ∈ taken, ∀ instruction ∈ piece.code,
      EndsWithin scopes.frameSize.toNat instruction) :
    scopes.frameSize.toNat ≤ outer.frameSize.toNat ∧
      operand.segment.All (EndsWithin outer.frameSize.toNat) := by
  have hframe := h.frameSize_eq hroomy htyped hscopes
  have hgrows : scopes.frameSize.toNat ≤ outer.frameSize.toNat := by
    rw [hframe]
    split
    · exact Nat.le_refl _
    · exact Nat.le_max_left ..
  refine ⟨hgrows, h.forall_made (uniform_endsWithin _) (loads_endsWithin (hstored.mono hgrows))
    ?_ ?_ ?_⟩
  · intro piece hpiece instruction hmem
    exact Nat.le_trans (htaken piece hpiece instruction hmem) hgrows
  · intro text position ty _
    exact Nat.zero_le _
  · intro hkind
    rw [EndsWithin, hframe, hkind]
    exact Nat.le_max_right ..

-- A frame that has grown ends with the slot of the sign.
theorem Makes.reaches (h : Makes scopes kind taken operand outer)
    (hroomy : operand.segment.last.Roomy) (htyped : ∀ piece ∈ taken, piece.Typed Ty.Contained)
    (hscopes : scopes.Typed Ty.Contained) :
    outer.frameSize.toNat = scopes.frameSize.toNat ∨
      outer.frameSize.toNat = operand.segment.last.frameEnd := by
  rw [h.frameSize_eq hroomy htyped hscopes]
  split
  · exact .inl rfl
  · exact max_choice _ _

-- A comma makes a type that fits as long as its tuple does.
theorem Makes.contained (h : Makes scopes kind taken operand outer)
    (hroomy : operand.segment.All Instruction.Roomy)
    (htyped : ∀ piece ∈ taken, piece.Typed Ty.Contained) (hscopes : scopes.Typed Ty.Contained) :
    operand.Typed Ty.Contained ∧ outer.Typed Ty.Contained := by
  have hindexable : operand.segment.All Instruction.Indexable :=
    ⟨fun instruction hmem => (hroomy.1 instruction hmem).indexable, hroomy.2.indexable⟩
  refine h.carried Ty.carried_contained hindexable ?_ htyped hscopes
  rintro rfl
  cases h with
  | arithmetic op position hop hleft hright hnumeric hsame => contradiction
  | @tuple left right leftTy rightTy whole leftSegment rightSegment position hleft hright happend =>
      have hleftTy := ((htyped left (by simp)).settle hscopes hleft).1
      have hrightTy := ((htyped right (by simp)).settle hscopes hright).1
      exact ⟨Ty.kept_slim.append hleftTy.1 hrightTy.1 happend, hroomy.2.tuple rfl⟩

end Signs

-- All types fit into words, and the frame ends where the last of the slots ends.
structure Plan.Contained (literals : Pool) (plan : Plan) : Prop where
  written : plan.Written Ty.Contained
  stored : plan.scopes.Stored literals plan.scopes.frameSize.toNat
  inside : ∀ instruction ∈ plan.code, EndsWithin plan.scopes.frameSize.toNat instruction
  reached : plan.scopes.frameSize.toNat ≠ 0 →
    ∃ instruction ∈ plan.code, instruction.frameEnd = plan.scopes.frameSize.toNat

-- The ends of slots stay in the code, whatever becomes of it.
theorem Plan.Step.reaches {plan next : Plan} (h : plan.Step next) {limit : Nat} (hlimit : limit ≠ 0)
    (hplan : ∃ instruction ∈ plan.code, instruction.frameEnd = limit) :
    ∃ instruction ∈ next.code, instruction.frameEnd = limit := by
  by_contra hnext
  obtain ⟨instruction, hmem, hend⟩ := hplan
  refine h.forall_code (uniform_frameEnd_ne hlimit) ?_ instruction hmem hend
  intro found hfound hfoundEnd
  exact hnext ⟨found, hfound, hfoundEnd⟩

section Steps

variable {literals : Pool}

-- The slots of what a sign takes stay inside of the frame, and its own may become the last of them.
theorem Plan.Contained.made {scopes outer : Scopes} {kind : Token.Kind} {taken rest : List Piece}
    {operand : Operand} (hplan : Plan.Contained literals ⟨taken ++ rest, scopes⟩)
    (h : Makes scopes kind taken operand outer) (hroomy : operand.segment.last.Roomy)
    (hwritten : Plan.Written Ty.Contained ⟨.single operand :: rest, outer⟩) :
    Plan.Contained literals ⟨.single operand :: rest, outer⟩ := by
  have hinside : ∀ piece ∈ taken ++ rest, ∀ instruction ∈ piece.code,
      EndsWithin scopes.frameSize.toNat instruction := by
    intro piece hpiece instruction hmem
    exact hplan.inside instruction (mem_codeOf.mpr ⟨piece, hpiece, hmem⟩)
  obtain ⟨htaken, hrest⟩ := List.forall_mem_append.mp hinside
  have htyped : ∀ piece ∈ taken, piece.Typed Ty.Contained := by
    intro piece hpiece
    exact (hplan.written.pieces piece (List.mem_append_left _ hpiece)).typed
  have hscopes : scopes.Typed Ty.Contained := hplan.written.scopes
  obtain ⟨hgrows, hoperand⟩ := h.endsWithin hroomy htyped hscopes hplan.stored htaken
  have hlast : operand.segment.last.frameEnd < UInt32.size :=
    Nat.lt_of_le_of_lt hoperand.2 (UInt32.toNat_lt_size _)
  have hstored := h.stored hlast
    (fun piece hpiece => (htyped piece hpiece).mono fun hty => hty.1.isWellFormed)
    (fun scope hscope entry hentry => (hscopes scope hscope entry hentry).1.isWellFormed)
    hplan.stored
  refine ⟨hwritten, hstored.2, ?_, ?_⟩
  · intro instruction hmem
    obtain ⟨piece, hpiece, hmem⟩ := mem_codeOf.mp hmem
    rcases List.mem_cons.mp hpiece with rfl | hpiece
    · exact ((uniform_endsWithin _).code_iff operand.segment 0).mpr hoperand instruction hmem
    · exact Nat.le_trans (hrest piece hpiece instruction hmem) hgrows
  · intro hlimit
    rcases h.reaches hroomy htyped hscopes with hsame | hslot
    · rw [hsame] at hlimit ⊢
      exact (Plan.Step.made h).reaches hlimit (hplan.reached hlimit)
    · refine ⟨operand.segment.last.placed 0, ?_, hslot.symm⟩
      simp [Plan.code, codeOf, Piece.code, Operand.code, Segment.code]

theorem Plan.Contained.step {plan next : Plan} (h : plan.Step next)
    (hall : ∀ instruction ∈ next.code, instruction.Roomy) (hplan : plan.Contained literals) :
    next.Contained literals := by
  have hwritten : next.Written Ty.Contained := by
    refine hplan.written.advance Ty.carried_contained Ty.contained_undecided h ?_
    rintro kind taken rest scopes outer operand rfl hmakes htaken hscopes
    simp only [Plan.code, codeOf, List.forall_mem_append, Piece.code, Operand.code,
      uniform_roomy.code_iff] at hall
    exact hmakes.contained hall.2 htaken hscopes
  have hreached := fun hlimit => h.reaches hlimit (hplan.reached hlimit)
  have hinside := hplan.inside
  cases h with
  | name text position pieces scopes =>
      refine ⟨hwritten, hplan.stored, ?_, hreached⟩
      refine List.forall_mem_append.mpr ⟨hinside, List.forall_mem_singleton.mpr ?_⟩
      exact Nat.zero_le _
  | enter pieces scopes => exact ⟨hwritten, hplan.stored.enter, hinside, hreached⟩
  | @pipe value callee rest scopes ty segment size hvalue hsize =>
      refine ⟨hwritten, hplan.stored, ?_, hreached⟩
      simp only [Plan.code, codeOf, List.forall_mem_append] at hinside
      obtain ⟨⟨hrest, hvalueCode⟩, hcallee⟩ := hinside
      have huniform := uniform_endsWithin scopes.frameSize.toNat
      have hsegment := Piece.forall_settle huniform (loads_endsWithin hplan.stored) hvalueCode hvalue
      simp only [Piece.code, Operand.code, huniform.code_iff] at hcallee
      simp only [Plan.code, codeOf, List.forall_mem_append, Piece.code, Operand.code,
        huniform.code_iff]
      exact ⟨hrest, hsegment, hcallee⟩
  | @made kind taken rest scopes outer operand hmakes =>
      simp only [Plan.code, codeOf, List.forall_mem_append, Piece.code, Operand.code,
        uniform_roomy.code_iff] at hall
      exact hplan.made hmakes hall.2.2 hwritten

end Steps

private theorem contained_ofLibrary {library : Library} {scopes : Scopes} {literals : Pool}
    (hlibrary : library.Slim) (h : Scopes.ofLibrary library = .ok (scopes, literals)) :
    Plan.Contained literals ⟨[], scopes⟩ := by
  have htyped : scopes.Typed Ty.Contained := by
    refine Scopes.typed_ofLibrary (fun native hmem => ?_)
      (fun constant hmem => (hlibrary.constant constant hmem).contained) h
    obtain ⟨hslim, hfunc⟩ := hlibrary.native native hmem
    refine ⟨hslim, ?_⟩
    rw [Ty.extent_of_isFunc hslim.isWellFormed hfunc]
    decide
  have hstored : scopes.Stored literals 0 := by
    refine Scopes.stored_ofLibrary (fun native hmem => ?_) (fun constant hmem => ?_) h
    · exact ⟨(hlibrary.native native hmem).1.isWellFormed, (hlibrary.native native hmem).2⟩
    · exact (hlibrary.constant constant hmem).slim.isWellFormed
  have hframe : scopes.frameSize.toNat = 0 := by
    obtain ⟨rows, rfl, -⟩ := Scopes.ofLibrary_eq_ok h
    rfl
  exact ⟨⟨by simp, htyped⟩, hstored.mono (Nat.zero_le _), by simp [Plan.code, codeOf],
    fun hlimit => absurd hframe hlimit⟩

end Analysis

-- Every size and every offset of a program is the exact one, and so is its frame: it ends with the
-- last byte that an instruction reads or writes there.
structure Program.Exact (program : Program) : Prop where
  types : ∀ instruction ∈ program.instructions, instruction.Typed Ty.Exact
  inside : ∀ instruction ∈ program.instructions,
    instruction.frameEnd ≤ program.frameSize.toNat
  reached : program.frameSize.toNat ≠ 0 →
    ∃ instruction ∈ program.instructions, instruction.frameEnd = program.frameSize.toNat

namespace Analysis

private theorem exact_compile {library : Library} {tokens : List Token} {program : Program}
    (hlibrary : library.Slim) (hcompile : (compile library tokens).2 = .ok program)
    (hroomy : ∀ instruction ∈ program.instructions, instruction.Roomy) : program.Exact := by
  obtain ⟨scopes, literals, final, piece, ty, segment, position, hroot, hsteps, hpieces, hsettle,
    rfl⟩ := compile_eq_ok hcompile
  simp only [List.mem_toArray, List.forall_mem_append, uniform_roomy.code_iff] at hroomy
  have hcode := forall_code_of_settle uniform_roomy hpieces hsettle hroomy.1
  have hfinal : final.Contained literals :=
    Plan.keeps uniform_roomy (fun hstep hcode hplan => hplan.step hstep hcode) hsteps hcode
      (contained_ofLibrary hlibrary hroot)
  have hpiece := hfinal.written.pieces piece (by simp [hpieces])
  obtain ⟨hty, htypes⟩ := hpiece.settle Ty.contained_undecided hfinal.written.scopes hsettle
  have hexact : ∀ {ty : Ty}, ty.Contained → ty.Exact :=
    fun h => Ty.exact_of_extent_lt h.1.isWellFormed h.2
  have hinside : segment.All (EndsWithin final.scopes.frameSize.toNat) := by
    refine Piece.forall_settle (uniform_endsWithin _) (loads_endsWithin hfinal.stored) ?_ hsettle
    intro instruction hmem
    exact hfinal.inside instruction (mem_codeOf.mpr ⟨piece, by simp [hpieces], hmem⟩)
  constructor
  case types =>
    simp only [List.mem_toArray, List.forall_mem_append, List.forall_mem_singleton]
    refine ⟨fun instruction hmem found hfound => ?_, ?_⟩
    · exact hexact (((uniform_typed Ty.contained_undecided).code_iff segment 0).mpr htypes instruction hmem
        found hfound)
    · exact List.forall_mem_cons.mpr ⟨hexact hty, List.forall_mem_singleton.mpr (hexact hty)⟩
  case inside =>
    simp only [List.mem_toArray, List.forall_mem_append, List.forall_mem_singleton]
    exact ⟨((uniform_endsWithin _).code_iff segment 0).mpr hinside, Nat.zero_le _⟩
  case reached =>
    intro hlimit
    by_contra hnone
    obtain ⟨instruction, hmem, hend⟩ := hfinal.reached hlimit
    have huniform := uniform_frameEnd_ne hlimit
    refine forall_code_of_settle huniform hpieces hsettle ?_ instruction hmem hend
    refine (huniform.code_iff segment 0).mp fun found hfound hfoundEnd => hnone ?_
    exact ⟨found, by simp [hfound], hfoundEnd⟩

end Analysis

-- A program of the standard library is exact as long as its tuples and its slots end within a word,
-- and only then. Its pipes always have room.
theorem compile_exact_iff (source : Bytes) (program : Program)
    (hcompile : Source.compile .standard source = .ok program)
    (hindexable : ∀ instruction ∈ program.instructions, instruction.Indexable) :
    Analysis.Placed program.instructions.toList ∧
      (program.Exact ↔ ∀ instruction ∈ program.instructions,
        (instruction.op = .tuple → instruction.result.extent < UInt32.size) ∧
        (instruction.op = .copy → instruction.frameEnd < UInt32.size)) := by
  obtain ⟨tokens, htokens⟩ := Source.compile_eq_ok hcompile
  refine ⟨Analysis.placed_compile Library.slim_standard htokens hindexable, ?_, ?_⟩
  · intro h instruction hmem
    refine ⟨fun _ => ?_, fun _ => ?_⟩
    · exact (h.types instruction hmem instruction.result (List.mem_cons_self ..)).extent_lt
    · exact Nat.lt_of_le_of_lt (h.inside instruction hmem) (UInt32.toNat_lt_size _)
  · intro h
    refine Analysis.exact_compile Library.slim_standard htokens fun instruction hmem => ?_
    exact ⟨hindexable instruction hmem, (h instruction hmem).1, (h instruction hmem).2⟩

-- A pair in a slot, and a member of it that goes through a pipe.
def Source.measured : Bytes := "x := (pi, e); x._1 |> abs".toUTF8.toList

theorem compile_exact_measured :
    ∃ program, Source.compile .standard Source.measured = .ok program ∧
      (∀ instruction ∈ program.instructions, instruction.Indexable) ∧
      Analysis.Placed program.instructions.toList ∧ program.Exact := by
  have hany : (Source.compile .standard Source.measured).toOption.any (fun program => decide
      (∀ instruction ∈ program.instructions, instruction.Indexable ∧
        (instruction.op = .tuple → instruction.result.extent < UInt32.size) ∧
        (instruction.op = .copy → instruction.frameEnd < UInt32.size))) = true := by
    decide +kernel
  obtain ⟨program, hcompile, htest⟩ := exists_ok_of_any hany
  have hall := of_decide_eq_true htest
  have hindexable : ∀ instruction ∈ program.instructions, instruction.Indexable :=
    fun instruction hmem => (hall instruction hmem).1
  obtain ⟨hplaced, hiff⟩ := compile_exact_iff Source.measured program hcompile hindexable
  exact ⟨program, hcompile, hindexable, hplaced,
    hiff.mpr fun instruction hmem => (hall instruction hmem).2⟩

-- Fourteen times four of the last, and then two of them.
def Source.vast : Bytes :=
  "a:=[e,e,e,e];b:=[a,a,a,a];c:=[b,b,b,b];d:=[c,c,c,c];f:=[d,d,d,d];".toUTF8.toList ++
    "g:=[f,f,f,f];h:=[g,g,g,g];i:=[h,h,h,h];j:=[i,i,i,i];k:=[j,j,j,j];".toUTF8.toList ++
    "l:=[k,k,k,k];m:=[l,l,l,l];n:=[m,m,m,m];o:=[n,n,n,n];o,o".toUTF8.toList

-- Two gigabytes twice are none.
theorem compile_vast_tuple :
    ∃ program, Source.compile .standard Source.vast = .ok program ∧
      ∃ instruction ∈ program.instructions, instruction.op = .tuple ∧
        instruction.result.extent = UInt32.size ∧ instruction.result.size? = some 0 := by
  have hany : (Source.compile .standard Source.vast).toOption.any (fun program => decide
      (∃ instruction ∈ program.instructions, instruction.op = .tuple ∧
        instruction.result.extent = UInt32.size ∧ instruction.result.size? = some 0)) = true := by
    decide +kernel
  obtain ⟨program, hcompile, htest⟩ := exists_ok_of_any hany
  exact ⟨program, hcompile, of_decide_eq_true htest⟩

end Sluice

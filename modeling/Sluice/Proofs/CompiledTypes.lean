import Mathlib
import Sluice.Proofs.Refinement
import Sluice.Proofs.Root

namespace Sluice

-- A property of all types of an instruction.
def Instruction.Typed (P : Ty → Prop) (instruction : Instruction) : Prop :=
  ∀ ty ∈ instruction.result :: instruction.operands, P ty

namespace Analysis

variable {P : Ty → Prop}

theorem uniform_typed (hP : P .undecided) : Uniform (Instruction.Typed P) :=
  ⟨fun _ => Iff.rfl, fun _ _ => List.forall_mem_singleton.mpr hP⟩

-- The type of a piece and the types in its code.
structure Piece.Written (P : Ty → Prop) (piece : Piece) : Prop where
  typed : piece.Typed P
  code : ∀ instruction ∈ piece.code, instruction.Typed P

section Preservation

variable {scopes outer : Scopes} {ty : Ty} {segment : Segment}

theorem loads_typed (hscopes : scopes.Typed P) : Loads (Instruction.Typed P) scopes :=
  fun scope hscope entry hentry _ => List.forall_mem_singleton.mpr (hscopes scope hscope entry hentry)

theorem Piece.Written.settle (hP : P .undecided) {piece : Piece} (hpiece : piece.Written P)
    (hscopes : scopes.Typed P) (h : piece.settle scopes = .ok (ty, segment)) :
    P ty ∧ segment.All (Instruction.Typed P) :=
  ⟨(hpiece.typed.settle hscopes h).1,
    Piece.forall_settle (uniform_typed hP) (loads_typed hscopes) hpiece.code h⟩

-- The types that the last instruction of a sign names, by what the sign has taken.
private theorem Makes.typed_last (hP : Ty.Carried P) {kind : Token.Kind} {taken : List Piece}
    {operand : Operand} (h : Makes scopes kind taken operand outer)
    (htaken : ∀ piece ∈ taken, piece.Typed P) (hscopes : scopes.Typed P)
    (hmade : operand.Typed P) (hkind : kind.isBracket = false) : operand.segment.last.Typed P := by
  have hsettle : ∀ {piece : Piece} {ty : Ty} {segment : Segment}, piece ∈ taken →
      piece.settle scopes = .ok (ty, segment) → P ty :=
    fun hmem hsettled => ((htaken _ hmem).settle hscopes hsettled).1
  have hone : ∀ {ty : Ty}, P ty → ∀ found ∈ [ty], P found :=
    fun hty => List.forall_mem_singleton.mpr hty
  have htwo : ∀ {left right : Ty}, P left → P right → ∀ found ∈ [left, right], P found :=
    fun hleft hright => List.forall_mem_cons.mpr ⟨hleft, hone hright⟩
  cases h with
  | int position hleast hgreatest => exact hone hmade.1
  | float bits position => exact hone hmade.1
  | assign position hright hsize hdeclare => exact htwo hmade.1 hmade.1
  | arithmetic op position hop hleft hright hnumeric hsame =>
      have hoperands := htwo (hsettle (by simp) hleft) (hsettle (by simp) hright)
      exact List.forall_mem_cons.mpr ⟨hmade.1, hoperands⟩
  | negate position hsettled hnumeric => exact htwo hmade.1 hmade.1
  | tuple position hleft hright happend =>
      have hoperands := htwo (hsettle (by simp) hleft) (hsettle (by simp) hright)
      exact List.forall_mem_cons.mpr ⟨hmade.1, hoperands⟩
  | sequence position hleft hright =>
      have hoperands := htwo (hsettle (by simp) hleft) (hsettle (by simp) hright)
      exact List.forall_mem_cons.mpr ⟨hmade.1, hoperands⟩
  | @call callee argument _ _ _ _ _ position hargument hcallee hresult =>
      have hsingle : callee.Typed P := htaken (.single callee) (by simp)
      have hcalleeTy := (hsingle.settleCallee hscopes hcallee).1
      exact List.forall_mem_cons.mpr ⟨hmade.1, htwo hcalleeTy (hsettle (by simp) hargument)⟩
  | @callPiped callee argument _ valueTy _ _ _ value _ _ position hargument happend hcallee
      hresult =>
      have hpiped : (Piece.piped valueTy value callee).Typed P := htaken _ (by simp)
      have hcalleeTy := (hpiped.2.settleCallee hscopes hcallee).1
      have hwhole := hP.applied hpiped.1.1 (hsettle (by simp) hargument) hcalleeTy happend
        (Operand.matches_of_settleCallee hcallee)
      exact List.forall_mem_cons.mpr ⟨hmade.1, htwo hcalleeTy hwhole⟩
  | @completed callee ty _ _ value _ position hcallee hresult =>
      have hpiped : (Piece.piped ty value callee).Typed P := htaken _ (by simp)
      have hcalleeTy := (hpiped.2.settleCallee hscopes hcallee).1
      exact List.forall_mem_cons.mpr ⟨hmade.1, htwo hcalleeTy hpiped.1.1⟩
  | member position hsubject htuple hrow hinner =>
      exact htwo hmade.1 (hsettle (by simp) hsubject)
  | group ty segment => cases hkind
  | groupName text position => cases hkind
  | array hsettled helements => cases hkind
  | blockEnd hsettled hleave => cases hkind

-- What a sign writes, once the type of its value is known.
private theorem Makes.typed_code (hP : Ty.Carried P) (hundecided : P .undecided) {kind : Token.Kind}
    {taken : List Piece} {operand : Operand} (h : Makes scopes kind taken operand outer)
    (htaken : ∀ piece ∈ taken, piece.Written P) (hscopes : scopes.Typed P)
    (hmade : operand.Typed P) : operand.segment.All (Instruction.Typed P) := by
  have htyped : ∀ piece ∈ taken, piece.Typed P := fun piece hmem => (htaken piece hmem).typed
  have hlast := h.typed_last hP htyped hscopes hmade
  refine h.forall_made (uniform_typed hundecided) (loads_typed hscopes)
    (fun piece hmem => (htaken piece hmem).code) ?_ hlast
  rintro text position ty (rfl | ⟨rfl, rfl⟩)
  · exact List.forall_mem_singleton.mpr hundecided
  · have hresult := hlast rfl _ (List.mem_cons_self ..)
    exact List.forall_mem_singleton.mpr hresult

structure Plan.Written (P : Ty → Prop) (plan : Plan) : Prop where
  pieces : ∀ piece ∈ plan.pieces, piece.Written P
  scopes : plan.scopes.Typed P

-- A step is left to show for the values that signs make.
theorem Plan.Written.advance (hP : Ty.Carried P) (hundecided : P .undecided) {plan next : Plan}
    (h : plan.Step next) (hplan : plan.Written P)
    (hmade : ∀ {kind : Token.Kind} {taken rest : List Piece} {scopes outer : Scopes}
      {operand : Operand}, next = ⟨.single operand :: rest, outer⟩ →
      Makes scopes kind taken operand outer → (∀ piece ∈ taken, piece.Typed P) → scopes.Typed P →
      operand.Typed P ∧ outer.Typed P) :
    next.Written P := by
  have huniform := uniform_typed hundecided
  have hcodeOf : ∀ {segment : Segment} {placement : Int32}, segment.All (Instruction.Typed P) →
      ∀ instruction ∈ segment.code placement, instruction.Typed P :=
    fun {segment placement} hsegment => (huniform.code_iff segment placement).mpr hsegment
  cases h with
  | name text position pieces scopes =>
      refine ⟨List.forall_mem_cons.mpr ⟨⟨trivial, ?_⟩, hplan.pieces⟩, hplan.scopes⟩
      exact hcodeOf ⟨by simp [Operand.segment], huniform.placeholder text position⟩
  | enter pieces scopes => exact ⟨hplan.pieces, hplan.scopes.enter⟩
  | @pipe value callee rest scopes ty segment size hvalue hsize =>
      have hpieces := hplan.pieces
      simp only [List.forall_mem_cons] at hpieces
      obtain ⟨hcallee, hwritten, hrest⟩ := hpieces
      obtain ⟨-, hcode⟩ := hwritten.settle hundecided hplan.scopes hvalue
      have hshows := hwritten.typed.settle hplan.scopes hvalue
      refine ⟨List.forall_mem_cons.mpr ⟨⟨⟨hshows, hcallee.typed⟩, ?_⟩, hrest⟩, hplan.scopes⟩
      refine List.forall_mem_append.mpr ⟨hcodeOf hcode, ?_⟩
      exact hcodeOf ((huniform.code_iff _ 0).mp hcallee.code)
  | @made kind taken rest scopes outer operand hmakes =>
      obtain ⟨htaken, hrest⟩ := List.forall_mem_append.mp hplan.pieces
      obtain ⟨hoperand, houter⟩ :=
        hmade rfl hmakes (fun piece hmem => (htaken piece hmem).typed) hplan.scopes
      have hcode := hmakes.typed_code hP hundecided htaken hplan.scopes hoperand
      exact ⟨List.forall_mem_cons.mpr ⟨⟨hoperand, hcodeOf hcode⟩, hrest⟩, houter⟩

theorem Plan.Written.step (hP : Ty.Kept P) (hundecided : P .undecided) {plan next : Plan}
    (h : plan.Step next) (hall : ∀ instruction ∈ next.code, instruction.Indexable)
    (hplan : plan.Written P) : next.Written P := by
  refine hplan.advance (carried_of_kept hP) hundecided h ?_
  rintro kind taken rest scopes outer operand rfl hmakes htaken hscopes
  simp only [Plan.code, codeOf, List.forall_mem_append, Piece.code, Operand.code,
    uniform_indexable.code_iff] at hall
  exact hmakes.typed hP hall.2 htaken hscopes

theorem Plan.Written.steps (hP : Ty.Kept P) (hundecided : P .undecided) {plan next : Plan}
    (h : Relation.ReflTransGen Plan.Step plan next)
    (hall : ∀ instruction ∈ next.code, instruction.Indexable) (hplan : plan.Written P) :
    next.Written P :=
  Plan.keeps uniform_indexable (fun hstep hcode hplan => hplan.step hP hundecided hstep hcode) h
    hall hplan

end Preservation

-- A program is the code of the last piece and an instruction that ends it.
theorem compile_eq_ok {library : Library} {tokens : List Token} {program : Program}
    (h : (compile library tokens).2 = .ok program) :
    ∃ scopes literals final piece ty segment position,
      Scopes.ofLibrary library = .ok (scopes, literals) ∧
      Relation.ReflTransGen Plan.Step ⟨[], scopes⟩ final ∧ final.pieces = [piece] ∧
      piece.settle final.scopes = .ok (ty, segment) ∧
      program = ⟨(segment.code 0 ++ [(⟨.finish, ty, [ty], .none, 0, position⟩ : Instruction)]).toArray,
        literals, final.scopes.frameSize⟩ := by
  rw [compile_eq_assemble] at h
  obtain ⟨⟨scopes, literals⟩, hroot, hassemble⟩ := bind_eq_ok.mp h
  obtain ⟨final, token, hsteps, hfinish⟩ := Plan.assemble_eq_ok hassemble
  obtain ⟨piece, ty, segment, hpieces, hsettle, -, rfl⟩ := Plan.finish_eq_ok hfinish
  exact ⟨scopes, literals, final, piece, ty, segment, token.position, hroot, hsteps, hpieces,
    hsettle, rfl⟩

-- What holds of the code of the last piece held of the code of the last plan.
theorem forall_code_of_settle {P : Instruction → Prop} (hP : Uniform P) {plan : Plan}
    {piece : Piece} {ty : Ty} {segment : Segment} (hpieces : plan.pieces = [piece])
    (hsettle : piece.settle plan.scopes = .ok (ty, segment)) (h : segment.All P) :
    ∀ instruction ∈ plan.code, P instruction := by
  have hpiece := hP.piece_of_settle hsettle h
  simpa [Plan.code, hpieces, codeOf] using hpiece

end Analysis

-- Every type of a program has the property if those of the library have it.
theorem Analysis.typed_compile {P : Ty → Prop} (hP : Ty.Kept P) (hundecided : P .undecided)
    {library : Library} {tokens : List Token} {program : Program}
    (hnative : ∀ native ∈ library.natives, P native.ty)
    (hconstant : ∀ constant ∈ library.constants, P constant.ty)
    (hcompile : (Analysis.compile library tokens).2 = .ok program)
    (hall : ∀ instruction ∈ program.instructions, instruction.Indexable) :
    ∀ instruction ∈ program.instructions, instruction.Typed P := by
  obtain ⟨scopes, literals, final, piece, ty, segment, position, hroot, hsteps, hpieces, hsettle,
    rfl⟩ := Analysis.compile_eq_ok hcompile
  have huniform := Analysis.uniform_typed hundecided
  simp only [List.mem_toArray, List.forall_mem_append, List.forall_mem_singleton,
    Analysis.uniform_indexable.code_iff, huniform.code_iff] at hall ⊢
  have hcode := Analysis.forall_code_of_settle Analysis.uniform_indexable hpieces hsettle hall.1
  have hwritten := Analysis.Plan.Written.steps hP hundecided hsteps hcode
    ⟨by simp, Scopes.typed_ofLibrary hnative hconstant hroot⟩
  obtain ⟨hty, hsegment⟩ := (hwritten.pieces piece (by simp [hpieces])).settle
    hundecided hwritten.scopes hsettle
  exact ⟨hsegment, List.forall_mem_cons.mpr ⟨hty, List.forall_mem_singleton.mpr hty⟩⟩

end Sluice

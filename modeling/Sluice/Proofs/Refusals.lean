import Mathlib
import Sluice.Proofs.StackLayout

namespace Sluice

theorem Tree.isDecided_of_mem {elements : List Tree} {tree : Tree}
    (h : (Tree.tuple elements).isDecided = true) (hmem : tree ∈ elements) :
    tree.isDecided = true := by
  rw [Tree.isDecided] at h
  induction elements with
  | nil => contradiction
  | cons first rest ih =>
      obtain ⟨hfirst, hrest⟩ := Bool.and_eq_true_iff.mp h
      rcases List.mem_cons.mp hmem with rfl | hmem
      · exact hfirst
      · exact ih hrest hmem

namespace Ty

-- Nothing of the type is left open.
def Decided (ty : Ty) : Prop := ∃ tree, ty.Describes tree ∧ tree.isDecided = true

theorem decided_of_not_mem {ty : Ty} (h : ty.isWellFormed = true)
    (hatoms : .prim .undecided ∉ ty.atoms) : ty.Decided := by
  obtain ⟨tree, htree⟩ := isWellFormed_iff.mp h
  exact ⟨tree, htree, (Tree.isDecided_iff tree).mpr (htree.atoms ▸ hatoms)⟩

theorem kept_decided : Kept Decided := by
  apply kept_of_trees
  · intro primitive hnumeric
    rw [Tree.isDecided, decide_eq_true_eq]
    rintro rfl
    contradiction
  · exact fun _ hdecided => hdecided
  · intro left right isOpen hleft hright
    exact isDecided_joined hleft hright
  · intro result argument hdecided
    exact (Bool.and_eq_true_iff.mp hdecided).1
  · intro elements tree hdecided hmem
    exact Tree.isDecided_of_mem hdecided hmem

-- The pattern of a call has the argument of the callee in it, up to the member names.
theorem size?_argument? {argument callee : Ty} (hargument : argument.Decided)
    (hcallee : callee.Decided) (h : (func .undecided argument).matches? callee = some true) :
    callee.argument?.bind size? = argument.size? := by
  obtain ⟨tree, htree, hdecided⟩ := hargument
  obtain ⟨found, hfound, -⟩ := hcallee
  have hpattern := describes_func (describes_ofPrimitive .undecided) htree
  have hfits := Option.some.inj ((hpattern.matches? hfound).symm.trans h)
  obtain ⟨result, rfl⟩ := (Tree.func_fits_iff hdecided found).mp hfits
  rw [hfound.argument?, Option.bind_some, size?, size?, htree.atoms]
  rfl

end Ty

-- A call whose callee takes what it is called with and gives what the call results in.
def Instruction.Suited (instruction : Instruction) : Prop :=
  instruction.op = .call → ∃ callee argument, instruction.operands = [callee, argument] ∧
    callee.argument?.bind Ty.size? = argument.size? ∧ callee.result? = some instruction.result

-- Types of a library without open parts.
structure Library.Decided (library : Library) : Prop where
  native : ∀ native ∈ library.natives, .prim .undecided ∉ native.ty.atoms
  constant : ∀ constant ∈ library.constants, .prim .undecided ∉ constant.ty.atoms

namespace Analysis

theorem uniform_suited : Uniform Instruction.Suited :=
  ⟨fun _ => Iff.rfl, fun _ _ => nofun⟩

section Suited

variable {scopes outer : Scopes} {plan next : Plan}

theorem loads_suited : Loads Instruction.Suited scopes := by
  intro scope hscope entry hentry position hop
  cases hstorage : entry.2.storage <;> simp [Operand.loading, loadOf, hstorage] at hop

theorem Operand.suits_of_settleCallee {callee : Operand} {argument ty : Ty} {segment : Segment}
    {position : Position} (hcallee : callee.Typed Ty.Decided) (hscopes : scopes.Typed Ty.Decided)
    (hargument : argument.Decided)
    (h : callee.settleCallee scopes argument position = .ok (ty, segment)) :
    ty.argument?.bind Ty.size? = argument.size? :=
  Ty.size?_argument? hargument (hcallee.settleCallee hscopes h).1
    (Operand.matches_of_settleCallee h)

-- A call is made for the type that its callee was settled for.
private theorem Makes.suited {kind : Token.Kind} {taken : List Piece} {operand : Operand}
    (h : Makes scopes kind taken operand outer) (htaken : ∀ piece ∈ taken, piece.Typed Ty.Decided)
    (hscopes : scopes.Typed Ty.Decided)
    (hcode : ∀ piece ∈ taken, ∀ instruction ∈ piece.code, instruction.Suited) :
    operand.segment.All Instruction.Suited := by
  refine h.forall_made uniform_suited loads_suited hcode (fun _ _ _ _ => nofun) fun hkind hop => ?_
  cases h with
  | @call callee argument ty _ _ _ _ position hargument hcallee hresult =>
      have htyped : callee.Typed Ty.Decided := htaken (.single callee) (by simp)
      have hty := ((htaken argument (by simp)).settle hscopes hargument).1
      exact ⟨_, _, rfl, Operand.suits_of_settleCallee htyped hscopes hty hcallee, hresult⟩
  | @callPiped callee argument ty valueTy _ _ _ value _ _ position hargument happend hcallee
      hresult =>
      have hpiped : (Piece.piped valueTy value callee).Typed Ty.Decided := htaken _ (by simp)
      have hty := ((htaken argument (by simp)).settle hscopes hargument).1
      have hwhole := Ty.kept_decided.append hpiped.1.1 hty happend
      exact ⟨_, _, rfl, Operand.suits_of_settleCallee hpiped.2 hscopes hwhole hcallee, hresult⟩
  | @completed callee ty _ _ value _ position hcallee hresult =>
      have hpiped : (Piece.piped ty value callee).Typed Ty.Decided := htaken _ (by simp)
      exact ⟨_, _, rfl, Operand.suits_of_settleCallee hpiped.2 hscopes hpiped.1.1 hcallee, hresult⟩
  | @arithmetic _ _ _ _ _ _ _ kind op position hop hleft hright hnumeric hsame =>
      cases kind <;> cases hop <;> contradiction
  | group ty segment => cases hkind
  | groupName text position => cases hkind
  | array hsettle helements => cases hkind
  | blockEnd hsettle hleave => cases hkind
  | _ => contradiction

structure Plan.Suited (plan : Plan) : Prop where
  typed : plan.Typed Ty.Decided
  code : ∀ instruction ∈ plan.code, instruction.Suited

theorem Plan.Suited.step (h : plan.Step next)
    (hall : ∀ instruction ∈ next.code, instruction.Indexable) (hplan : plan.Suited) :
    next.Suited := by
  refine ⟨hplan.typed.step Ty.kept_decided h hall, ?_⟩
  refine h.forall_next uniform_suited loads_suited hplan.code ?_
  rintro kind taken rest scopes outer operand rfl hmakes
  refine hmakes.suited (fun piece hmem => ?_) hplan.typed.scopes
    fun piece hmem instruction hfound => ?_
  · exact hplan.typed.pieces piece (List.mem_append_left _ hmem)
  · exact hplan.code instruction (mem_codeOf.mpr ⟨piece, List.mem_append_left _ hmem, hfound⟩)

end Suited

theorem suited_compile {library : Library} {tokens : List Token} {program : Program}
    (hlibrary : library.Sound) (hdecided : library.Decided)
    (hcompile : (compile library tokens).2 = .ok program)
    (hall : ∀ instruction ∈ program.instructions, instruction.Indexable) :
    ∀ instruction ∈ program.instructions, instruction.Suited := by
  obtain ⟨scopes, literals, final, piece, ty, segment, position, hroot, hsteps, hpieces, hsettle,
    rfl⟩ := compile_eq_ok hcompile
  simp only [List.mem_toArray, List.forall_mem_append, List.forall_mem_singleton,
    uniform_indexable.code_iff, uniform_suited.code_iff] at hall ⊢
  have hcode := forall_code_of_settle uniform_indexable hpieces hsettle hall.1
  have hroot : Plan.Suited ⟨[], scopes⟩ := by
    refine ⟨⟨by simp, Scopes.typed_ofLibrary (fun native hmem => ?_) (fun constant hmem => ?_) hroot⟩,
      by simp [Plan.code, codeOf]⟩
    · exact Ty.decided_of_not_mem (hlibrary.native native hmem).1 (hdecided.native native hmem)
    · exact Ty.decided_of_not_mem (hlibrary.constant constant hmem)
        (hdecided.constant constant hmem)
  have hfinal := Plan.keeps uniform_indexable (fun hstep hcode hplan => hplan.step hstep hcode) hsteps
    hcode hroot
  refine ⟨Piece.forall_settle uniform_suited loads_suited ?_ hsettle, ?_⟩
  · intro instruction hmem
    exact hfinal.code instruction (mem_codeOf.mpr ⟨piece, by simp [hpieces], hmem⟩)
  · intro hop
    contradiction

end Analysis

namespace Machine

-- A call that is refused. The handle that it pops is that of no function, or of one whose type is not
-- the type that the call is made for.
inductive Refuses (library : Library) (store : Store) (instruction : Instruction) : Failure → Prop
  | unknown {handle argument : Bytes} {rest : Store} (hop : instruction.op = .call)
      (hpop : popPair store instruction = .ok (handle, argument, rest))
      (hnative : (NativeId.ofBytes? handle).bind library.native? = none) :
      Refuses library store instruction (.plain (.unknownHandle handle))
  | mismatch {handle argument : Bytes} {rest : Store} {native : Native} {called : Ty}
      (hop : instruction.op = .call)
      (hpop : popPair store instruction = .ok (handle, argument, rest))
      (hnative : (NativeId.ofBytes? handle).bind library.native? = some native)
      (hcalled : instruction.operands.head? = some called)
      (hty : called.same native.ty = false) :
      Refuses library store instruction
        (.plain (.nativeMismatch native.name native.ty (some called) argument.length))

section Calls

variable {literals : Pool} {library : Library} {store rest : Store} {instruction : Instruction}
variable {handle argument : Bytes}

private theorem length_of_popPair {callee argumentTy : Ty}
    (hoperands : instruction.operands = [callee, argumentTy])
    (h : popPair store instruction = .ok (handle, argument, rest)) :
    argumentTy.size?.map UInt32.toNat = some argument.length := by
  obtain ⟨size, hsize, h⟩ := bind_eq_ok.mp h
  obtain ⟨⟨found, middle⟩, hpop, h⟩ := bind_eq_ok.mp h
  obtain ⟨width, -, h⟩ := bind_eq_ok.mp h
  obtain ⟨⟨other, last⟩, -, h⟩ := bind_eq_ok.mp h
  cases h
  simp only [operandSize, hoperands] at hsize
  rw [inRange_eq_ok.mp hsize, Option.map_some, (Store.pop_eq_ok hpop).2]

-- A call of a function under its own type goes through.
private theorem fits_of_same {native : Native} {callee : Ty} {size : UInt32}
    (hsuited : instruction.Suited) (hop : instruction.op = .call)
    (hpop : popPair store instruction = .ok (handle, argument, rest))
    (hsize : instruction.result.size? = some size)
    (hcallee : instruction.operands.head? = some callee) (hsame : callee.same native.ty = true) :
    fits native instruction argument size = true := by
  obtain ⟨found, argumentTy, hoperands, hargument, hresult⟩ := hsuited hop
  have hfound : found = callee := by
    rw [hoperands] at hcallee
    exact Option.some.inj hcallee
  subst hfound
  have hatoms : found.atoms = native.ty.atoms := of_decide_eq_true hsame
  have hargument? : native.ty.argument? = found.argument? := by
    rw [Ty.argument?, Ty.argument?, Ty.isFunc, Ty.isFunc, hatoms]
  have hresult? : native.ty.result? = found.result? := by
    rw [Ty.result?, Ty.result?, Ty.isFunc, Ty.isFunc, hatoms]
  refine fits_iff.mpr ⟨⟨found, hcallee, hsame⟩, ?_, ?_⟩
  · rw [hargument?, hargument, length_of_popPair hoperands hpop]
  · rw [hresult?, hresult, Option.bind_some, hsize]

-- A step that a handle fails is a call that is refused.
private theorem refuses_of_step {failure : Failure}
    (htyped : instruction.Typed fun ty => ty.isWellFormed = true) (hstore : store.Framed)
    (hsuited : instruction.Suited)
    (h : step literals library store instruction = .error failure)
    (hhandle : failure.FromHandle) : Refuses library store instruction failure := by
  have hop := op_eq_call_of_fromHandle hstore htyped h hhandle
  obtain ⟨size, hsize⟩ := Ty.exists_size? (htyped _ (List.mem_cons_self ..))
  obtain ⟨callee, argumentTy, hoperands, -⟩ := hsuited hop
  have hcallee : instruction.operands.head? = some callee := by rw [hoperands, List.head?_cons]
  -- what is checked otherwise never fails because of the handle
  have hchecked : ∀ {α : Type} {outcome : Except Failure α}, FailsAs Failure.Checked outcome →
      outcome ≠ .error failure :=
    fun hfails heq => hfails.of_checked failure heq hhandle
  have hcall : call library store instruction size = .error failure := by
    simp only [step, hsize, inRange, ok_bind, hop] at h
    cases hcalled : call library store instruction size with
    | ok after => simp [hcalled, Functor.map, Except.map] at h
    | error found => simpa [hcalled, Functor.map, Except.map] using h
  unfold call at hcall
  cases hpop : popPair store instruction with
  | error found =>
      rw [hpop, error_bind] at hcall
      cases hcall
      exact absurd hpop (hchecked (checked_popPair htyped hstore))
  | ok popped =>
      obtain ⟨handle, argument, rest⟩ := popped
      rw [hpop, ok_bind] at hcall
      cases hnative : (NativeId.ofBytes? handle).bind library.native? with
      | none =>
          simp only [hnative] at hcall
          cases hcall
          exact .unknown hop hpop hnative
      | some native =>
          simp only [hnative] at hcall
          split at hcall
          · cases hrun : native.run argument size.toNat with
            | none =>
                simp only [hrun, inRange, error_bind] at hcall
                cases hcall
                exact absurd hhandle Failure.not_fromHandle_outOfRange
            | some result =>
                simp only [hrun, inRange, ok_bind] at hcall
                have hwidth : result.length < UInt32.size := native.length_run hrun ▸ size.toNat_lt
                exact absurd hcall
                  (hchecked (Store.checked_push (popPair_eq_ok hstore hpop).1 hwidth))
          · rename_i hfits
            rw [hcallee] at hcall
            cases hcall
            refine .mismatch hop hpop hnative hcallee ?_
            rw [← Bool.not_eq_true]
            exact fun hsame => hfits (fits_of_same hsuited hop hpop hsize hcallee hsame)

end Calls

end Machine

-- Programs that come out of tokens, whether the tokens are those of a source or not. A run of such a
-- program ends with a value of its last type, with as many bytes as that type has, or at a call that
-- is refused because of its handle.
theorem run_compiled_tokens (library : Library) (tokens : List Token) (program : Program)
    (hlibrary : library.Sound) (hdecided : library.Decided)
    (hcompile : (Analysis.compile library tokens).2 = .ok program)
    (hfits : ∀ instruction ∈ program.instructions, instruction.Fits) :
    ∃ last, program.instructions.back? = some last ∧ last.op = .finish ∧
      ((∃ bytes, program.run library = .ok ⟨last.result, bytes⟩ ∧
        last.result.size?.map UInt32.toNat = some bytes.length) ∨
      ∃ before call after reached failure,
        program.instructions.toList = before ++ call :: after ∧
        Machine.exec program.literals library (.ofFrameSize program.frameSize) before =
          .ok reached ∧
        Machine.Refuses library reached call failure ∧ program.run library = .error failure) := by
  have hindexable : ∀ instruction ∈ program.instructions, instruction.Indexable :=
    fun instruction hmem => (hfits instruction hmem).indexable
  have htyped := Analysis.typed_compile Ty.kept_isWellFormed rfl
    (fun native hmem => (hlibrary.native native hmem).1) hlibrary.constant hcompile hindexable
  have hsuited := Analysis.suited_compile hlibrary hdecided hcompile hindexable
  obtain ⟨last, hlast, hop, hvalue | ⟨failure, hrun, hhandle⟩⟩ :=
    Analysis.run_compile hlibrary hcompile hfits
  · exact ⟨last, hlast, hop, .inl hvalue⟩
  · refine ⟨last, hlast, hop, .inr ?_⟩
    have hended : failure ≠ .plain .endedWithoutFinish := by
      rintro rfl
      rcases hhandle with ⟨_, h⟩ | ⟨_, _, _, _, h⟩ <;> cases h
    obtain ⟨before, call, after, reached, hcode, hexec, hstep⟩ :=
      (Machine.run_eq_error_iff hended).mp hrun
    have hmem : call ∈ program.instructions := by
      rw [← Array.mem_toList_iff, hcode]
      simp
    have hframed := Machine.framed_of_exec (Store.framed_ofFrameSize _) hexec
    exact ⟨before, call, after, reached, failure, hcode, hexec,
      Machine.refuses_of_step (htyped call hmem) hframed (hsuited call hmem) hstep hhandle, hrun⟩

-- Another constant, with the bytes of a handle that no function has, and the tokens of
-- `seven |> wild`.
def Library.misled : Library :=
  ⟨Library.echoing.natives, Library.echoing.constants ++
    [⟨"wild", .func (.ofPrimitive .i32) (.ofPrimitive .i32), [1, 0, 0, 0, 0, 0, 0, 0]⟩]⟩

def Token.misled : List Token :=
  [⟨.name, .nullary, "seven", .start⟩, ⟨.name, .nullary, "wild", .start⟩,
    ⟨.pipe, .binary, "|>", .start⟩, ⟨.call, .leftUnary, "", .start⟩,
    ⟨.finish, .leftUnary, "", .start⟩]

def Program.misled : Program :=
  ⟨#[⟨.loadL, .ofPrimitive .i32, [], .literal 0, 8, .start⟩,
    ⟨.loadL, .func (.ofPrimitive .i32) (.ofPrimitive .i32), [], .literal 8, -12, .start⟩,
    ⟨.call, .ofPrimitive .i32,
      [.func (.ofPrimitive .i32) (.ofPrimitive .i32), .ofPrimitive .i32], .none, 0, .start⟩,
    ⟨.finish, .ofPrimitive .i32, [.ofPrimitive .i32], .none, 0, .start⟩],
    ⟨[7, 0, 0, 0, 0, 0, 0, 0, 1, 0, 0, 0, 0, 0, 0, 0]⟩, 0⟩

theorem Library.sound_echo {constants : List Constant}
    (h : ∀ constant ∈ constants, constant.ty.isWellFormed = true) :
    (⟨Library.echoing.natives, constants⟩ : Library).Sound := by
  refine ⟨?_, h, ?_⟩
  · intro native hmem
    cases List.mem_singleton.mp hmem
    exact ⟨by decide +kernel, by decide +kernel⟩
  · intro native hmem argument size hargument hsize
    cases List.mem_singleton.mp hmem
    have hwidth : ((Ty.func (.ofPrimitive .i32) (.ofPrimitive .i32)).argument?.bind
        Ty.size?).map UInt32.toNat = some 4 := by decide +kernel
    have hresult : (Ty.func (.ofPrimitive .i32) (.ofPrimitive .i32)).result?.bind Ty.size? =
        some 4 := by decide +kernel
    cases hresult.symm.trans hsize
    have hlength : argument.length = 4 := Option.some.inj (hargument.symm.trans hwidth)
    simp [Native.ofFunction, Native.fill, hlength]

-- The first program returns the seven. The second one stops at its call.
theorem run_compiled_piping :
    (Library.echoing.Sound ∧ Library.echoing.Decided ∧
      (Analysis.compile .echoing Token.piping).2 = .ok .piped ∧
      (∀ instruction ∈ Program.piped.instructions, instruction.Fits) ∧
      ∃ last, Program.piped.instructions.back? = some last ∧ last.op = .finish ∧
        Program.piped.run .echoing = .ok ⟨last.result, [7, 0, 0, 0]⟩ ∧
        last.result.size?.map UInt32.toNat = some 4) ∧
    Library.misled.Sound ∧ Library.misled.Decided ∧
      (Analysis.compile .misled Token.misled).2 = .ok .misled ∧
      (∀ instruction ∈ Program.misled.instructions, instruction.Fits) ∧
      ∃ before call after reached, Program.misled.instructions.toList = before ++ call :: after ∧
        Machine.exec Program.misled.literals .misled (.ofFrameSize 0) before = .ok reached ∧
        Machine.Refuses .misled reached call
          (.plain (.unknownHandle [1, 0, 0, 0, 0, 0, 0, 0])) := by
  have hsound : Library.echoing.Sound := Library.sound_echo (by decide +kernel)
  have hdecided : Library.echoing.Decided := ⟨by decide +kernel, by decide +kernel⟩
  have hcompile : (Analysis.compile .echoing Token.piping).2 = .ok .piped := by decide +kernel
  have hfits : ∀ instruction ∈ Program.piped.instructions, instruction.Fits := by decide +kernel
  have hrun : Program.piped.run .echoing = .ok ⟨.ofPrimitive .i32, [7, 0, 0, 0]⟩ := by
    decide +kernel
  have hmisled : Library.misled.Sound := Library.sound_echo (by decide +kernel)
  have hclosed : Library.misled.Decided := ⟨by decide +kernel, by decide +kernel⟩
  have hwild : (Analysis.compile .misled Token.misled).2 = .ok .misled := by decide +kernel
  have hsmall : ∀ instruction ∈ Program.misled.instructions, instruction.Fits := by decide +kernel
  have hstops : Program.misled.run .misled =
      .error (.plain (.unknownHandle [1, 0, 0, 0, 0, 0, 0, 0])) := by decide +kernel
  refine ⟨⟨hsound, hdecided, hcompile, hfits, ?_⟩, hmisled, hclosed, hwild, hsmall, ?_⟩
  · obtain ⟨last, hlast, hop, ⟨bytes, hvalue, hsize⟩ | ⟨_, _, _, _, _, -, -, -, hfails⟩⟩ :=
      run_compiled_tokens _ _ _ hsound hdecided hcompile hfits
    · have hbytes : bytes = [7, 0, 0, 0] :=
        (congrArg Value.bytes (Except.ok.inj (hrun.symm.trans hvalue))).symm
      subst hbytes
      exact ⟨last, hlast, hop, hvalue, hsize⟩
    · cases hrun.symm.trans hfails
  · obtain ⟨last, -, -, ⟨bytes, hvalue, -⟩ |
      ⟨before, call, after, reached, failure, hcode, hexec, hrefuses, hfails⟩⟩ :=
      run_compiled_tokens _ _ _ hmisled hclosed hwild hsmall
    · cases hstops.symm.trans hvalue
    · cases hstops.symm.trans hfails
      exact ⟨before, call, after, reached, hcode, hexec, hrefuses⟩

end Sluice

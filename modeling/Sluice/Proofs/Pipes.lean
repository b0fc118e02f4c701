import Mathlib
import Sluice.Proofs.CompiledTypes
import Sluice.Proofs.Floors
import Sluice.Proofs.Mistakes
import Sluice.Proofs.Phrases
import Sluice.Proofs.StackLayout
import Sluice.Proofs.Unlocated

namespace Sluice

-- Types are small enough for a handle next to any value, and the frame does not wrap around.
structure Instruction.Sized (instruction : Instruction) : Prop where
  indexable : instruction.Indexable
  sizes : ∀ ty ∈ instruction.result :: instruction.operands, ty.extent < 2147483640
  frame : instruction.frameEnd < UInt32.size

instance (instruction : Instruction) : Decidable instruction.Sized :=
  decidable_of_iff
    (instruction.Indexable ∧
      (∀ ty ∈ instruction.result :: instruction.operands, ty.extent < 2147483640) ∧
      instruction.frameEnd < UInt32.size)
    ⟨fun h => ⟨h.1, h.2.1, h.2.2⟩, fun h => ⟨h.indexable, h.sizes, h.frame⟩⟩

namespace Instruction.Sized

variable {instruction : Instruction}

theorem result (h : instruction.Sized) : instruction.result.extent < 2147483640 :=
  h.sizes _ (List.mem_cons_self ..)

theorem measured (h : instruction.Sized) : instruction.Measured := by
  have hwidth : handleWidth = 8 := rfl
  have hoperand : ∀ ty ∈ instruction.operands, ty.extent < 2147483640 :=
    fun ty hty => h.sizes ty (List.mem_cons_of_mem _ hty)
  refine ⟨h.indexable, Nat.lt_trans h.result (by decide), fun ty hty => ?_, ?_, h.frame⟩
  · exact Nat.lt_trans (hoperand ty hty) (by decide)
  · intro callee argument _ hoperands hcallee
    have hargument := hoperand argument (by simp [hoperands])
    omega

-- A slot of a well-formed type ends where its exact size says.
theorem writesInFrame (h : instruction.Sized)
    (htyped : instruction.Typed fun ty => ty.isWellFormed = true) : instruction.WritesInFrame := by
  intro hop finish hfinish
  have hty := htyped _ (List.mem_cons_self ..)
  have hframe := h.frame
  have hextent := Ty.toNat_size (Nat.lt_trans h.result (by decide))
  unfold slotEnd? at hfinish
  split at hfinish
  · rename_i offset hpayload
    rw [Ty.size?_eq_extent hty] at hfinish
    cases hfinish
    simp only [frameEnd, hop, hpayload] at hframe
    dsimp only
    rwa [hextent]
  · contradiction

end Instruction.Sized

namespace Analysis

theorem uniform_sized : Uniform Instruction.Sized := by
  constructor
  · intro instruction placement
    exact ⟨fun h => ⟨h.indexable, h.sizes, h.frame⟩, fun h => ⟨h.indexable, h.sizes, h.frame⟩⟩
  · intro text position
    have hfits := uniform_fits.placeholder text position
    refine ⟨hfits.indexable, List.forall_mem_singleton.mpr ?_, hfits.frame⟩
    simp [Instruction.placeholder, Ty.undecided, Ty.extent_ofPrimitive, Primitive.width]

theorem faithful_sized : Faithful Instruction.Sized := by
  refine ⟨fun placement h => (uniform_sized.placed placement).mpr h, fun h => ?_, fun h hcopy => ?_⟩
  · exact ⟨faithful_indexable.spent h.indexable, h.sizes, by simp [Instruction.frameEnd]⟩
  · refine ⟨faithful_indexable.bound h.indexable hcopy.indexable, ?_,
      by simp [Instruction.frameEnd]⟩
    intro ty hty
    rcases List.mem_cons.mp hty with rfl | hty
    · exact hcopy.result
    · exact h.sizes ty (List.mem_cons_of_mem _ hty)

section Meanings

variable {setting : Setting} {segment : Segment} {width : Nat} {meaning : Meaning}

theorem Yields.congr {other : Meaning} (h : Yields setting segment width meaning)
    (hsame : ∀ frame : Bytes, frame.length = setting.limit → other frame = meaning frame) :
    Yields setting segment width other := by
  refine ⟨h.small, ⟨fun hframe hother => ?_, fun hframe hother => ?_⟩,
    fun frame stack placement hframe => ?_⟩
  · exact h.bounded.width hframe (hsame _ hframe ▸ hother)
  · exact h.bounded.failure hframe (hsame _ hframe ▸ hother)
  · rw [hsame frame hframe]
    exact h.exec frame stack placement hframe

theorem Meaning.andThen_congr {first second : Meaning} {frame : Bytes}
    (h : first frame = second frame) (action : Bytes → Meaning) :
    first.andThen action frame = second.andThen action frame := by
  rw [Meaning.andThen, Meaning.andThen, h]

theorem Meaning.pair_assoc (first second third : Meaning) (frame : Bytes) :
    (first.pair ((second.pair third).andThen .give)) frame =
      ((first.pair second).pair third) frame := by
  simp only [Meaning.pair, Meaning.andThen, Meaning.give]
  cases first frame with
  | error failure => rfl
  | ok outcome =>
      simp only [ok_bind]
      cases second outcome.2 with
      | error failure => rfl
      | ok outcome =>
          simp only [ok_bind]
          cases third outcome.2 with
          | error failure => rfl
          | ok outcome => simp only [ok_bind, List.append_assoc]

-- What a name stands for, as a meaning.
def Meaning.fetch (literals : Pool) (binding : Binding) : Meaning := fun frame =>
  (inRange (binding.fetch? literals frame)).map fun bytes => (bytes, frame)

variable {binding : Binding}

private theorem exists_fetch {frame : Bytes} (hsize : binding.ty.extent < 2147483648)
    (hstored : binding.Stored setting.literals setting.limit)
    (hframe : frame.length = setting.limit) :
    ∃ bytes, Meaning.fetch setting.literals binding frame = .ok (bytes, frame) := by
  have hbounded := @bounded_fetch ⟨setting.literals, setting.library, setting.limit, fun _ => False⟩
    binding hsize hstored
  cases hfetch : binding.fetch? setting.literals frame with
  | none => exact (hbounded.failure hframe (by rw [hfetch]; rfl)).elim
  | some bytes => exact ⟨bytes, by rw [Meaning.fetch, hfetch]; rfl⟩

-- Code that writes above a slot leaves the name as it was.
private theorem fetch_of_yields {bound : Nat} {frame after value : Bytes}
    (hyields : Yields setting segment width meaning) (hframe : frame.length = setting.limit)
    (hmeaning : meaning frame = .ok (value, after))
    (habove : ∀ instruction ∈ segment.code 0, instruction.Above bound)
    (hbelow : binding.Below bound) (hty : binding.ty.isWellFormed = true)
    (hsize : binding.ty.extent < 2147483648) :
    binding.fetch? setting.literals after = binding.fetch? setting.literals frame := by
  have hexec := hyields.prepares.exec frame [] hframe
  rw [hmeaning] at hexec
  obtain ⟨ty, storage⟩ := binding
  cases storage with
  | stack offset =>
      have hslice : (Store.laid after ([] ++ value)).frame.slice? offset.toNat ty.extent =
          (Store.laid frame []).frame.slice? offset.toNat ty.extent := by
        refine Machine.slice?_of_exec (Store.framed_laid frame []) hexec
          fun copy hcopy hop byte htouches hinside => ?_
        have hslot : ty.Slot offset byte :=
          ⟨_, Ty.size?_eq_extent hty, hinside.1, by rw [Ty.toNat_size hsize]; exact hinside.2⟩
        have hlow := hbelow offset byte rfl hslot
        have hhigh := habove copy hcopy hop byte htouches
        omega
      rw [Store.frame_laid, Store.frame_laid] at hslice
      exact hslice
  | _ => rfl

-- The order of a name and a value does not matter if the value leaves the name alone.
theorem fetch_pair {bound : Nat} (hyields : Yields setting segment width meaning)
    (habove : ∀ instruction ∈ segment.code 0, instruction.Above bound)
    (hbelow : binding.Below bound) (hty : binding.ty.isWellFormed = true)
    (hsize : binding.ty.extent < 2147483648)
    (hstored : binding.Stored setting.literals setting.limit) {frame : Bytes}
    (hframe : frame.length = setting.limit) :
    (meaning.andThen fun value => (Meaning.fetch setting.literals binding).andThen fun handle =>
        .give (handle ++ value)) frame =
      ((Meaning.fetch setting.literals binding).pair meaning) frame := by
  obtain ⟨handle, hhandle⟩ := exists_fetch hsize hstored hframe
  simp only [Meaning.andThen, Meaning.pair, hhandle, ok_bind]
  cases hmeaning : meaning frame with
  | error failure => rfl
  | ok outcome =>
      obtain ⟨value, after⟩ := outcome
      have hsame := fetch_of_yields hyields hframe hmeaning habove hbelow hty hsize
      have hbehind : Meaning.fetch setting.literals binding after = .ok (handle, after) := by
        rw [Meaning.fetch] at hhandle ⊢
        rw [hsame]
        obtain ⟨bytes, hbytes, heq⟩ := map_eq_ok.mp hhandle
        cases heq
        rw [hbytes]
        rfl
      simp only [ok_bind, hbehind]

end Meanings

-- Any failure but that of a program without an end.
def Setting.ofLimit (literals : Pool) (library : Library) (limit : Nat) : Setting :=
  ⟨literals, library, limit, (· ≠ .plain .endedWithoutFinish)⟩

theorem lenient_ofLimit (literals : Pool) (library : Library) (limit : Nat) :
    (Setting.ofLimit literals library limit).Lenient :=
  ⟨fun _ => nofun, fun _ _ _ _ => nofun, fun _ _ _ _ _ _ _ => nofun⟩

theorem Plan.reaches {tokens : List Token} {plan next : Plan} (h : plan.steps tokens = .ok next) :
    Relation.ReflTransGen Plan.Step plan next := by
  induction tokens generalizing plan with
  | nil =>
      cases h
      exact .refl
  | cons token rest ih =>
      rw [Plan.steps_cons] at h
      obtain ⟨middle, hstep, h⟩ := bind_eq_ok.mp h
      exact .head (Plan.Step.of_step hstep) (ih h)

-- Slots are only added. Those of a block are not given back to the frame.
theorem Plan.grows {tokens : List Token} {plan next : Plan} (h : plan.steps tokens = .ok next) :
    plan.scopes.frameSize.toNat ≤ next.scopes.frameSize.toNat := by
  have hstep : ∀ {plan next : Plan}, plan.Step next →
      plan.scopes.frameSize.toNat ≤ next.scopes.frameSize.toNat := by
    intro plan next hstep
    cases hstep with
    | made h =>
        cases h with
        | assign position hright hsize hdeclare =>
            exact Scopes.frameSize_le_declare hdeclare
        | blockEnd hsettle hleave => exact Nat.le_of_eq (by rw [Scopes.frameSize_leave hleave])
        | _ => exact Nat.le_refl _
    | _ => exact Nat.le_refl _
  have hreaches := Plan.reaches h
  clear h
  induction hreaches with
  | refl => exact Nat.le_refl _
  | tail _ hlast ih => exact Nat.le_trans ih (hstep hlast)

-- A plan all of whose code is small enough to run.
structure Plan.Steady (literals : Pool) (library : Library) (plan : Plan) : Prop where
  written : plan.Written fun ty => ty.isWellFormed = true
  runs : plan.Runs literals library (· ≠ .plain .endedWithoutFinish)
  code : ∀ instruction ∈ plan.code, instruction.Sized

namespace Plan.Steady

variable {literals : Pool} {library : Library} {plan next : Plan} {operand : Operand}

theorem typed (h : plan.Steady literals library) : plan.Typed fun ty => ty.isWellFormed = true :=
  ⟨fun piece hpiece => (h.written.pieces piece hpiece).typed, h.written.scopes⟩

theorem steps {tokens : List Token} (h : plan.Steady literals library)
    (hsees : plan.Sees Instruction.Sized tokens) (hsteps : plan.steps tokens = .ok next) :
    next.Steady literals library := by
  have hcode := hsees.last hsteps
  refine ⟨h.written.steps Ty.kept_isWellFormed rfl (Plan.reaches hsteps)
    fun instruction hmem => (hcode instruction hmem).indexable, ?_, hcode⟩
  exact (Plan.Runs.lasts (lenient_ofLimit literals library) (Plan.reaches hsteps)
    (fun instruction hmem => (hcode instruction hmem).measured) h.typed h.runs).2

theorem settle {ty : Ty} {segment : Segment} (h : plan.Steady literals library)
    (hmem : .single operand ∈ plan.pieces)
    (hsettle : operand.settle plan.scopes = .ok (ty, segment))
    (hsized : segment.All Instruction.Sized) {limit : Nat}
    (hlimit : plan.scopes.frameSize.toNat ≤ limit) :
    ∃ meaning, Yields (.ofLimit literals library limit) segment ty.extent meaning :=
  (h.runs.pieces limit hlimit _ hmem).yields h.written.scopes (h.runs.scopes.mono hlimit) hsettle
    ⟨fun instruction hmem => (hsized.1 instruction hmem).measured, hsized.2.measured⟩

theorem isWellFormed {ty : Ty} {segment : Segment} (h : plan.Steady literals library)
    (hmem : .single operand ∈ plan.pieces)
    (hsettle : operand.settle plan.scopes = .ok (ty, segment)) : ty.isWellFormed = true :=
  ((h.typed.pieces _ hmem).settle h.written.scopes hsettle).1

theorem writesInFrame (h : plan.Steady literals library) (hmem : .single operand ∈ plan.pieces) :
    operand.segment.All Instruction.WritesInFrame := by
  refine (uniform_writesInFrame.code_iff _ 0).mp fun instruction hinstruction => ?_
  refine (h.code instruction (mem_codeOf.mpr ⟨_, hmem, hinstruction⟩)).writesInFrame ?_
  exact (h.written.pieces _ hmem).code instruction hinstruction

end Plan.Steady

-- Two signs that fail alike, or leave code that gives the same value everywhere.
inductive Alike (literals : Pool) (library : Library) (fails : Failure → Failure → Prop) :
    Joined → Joined → Prop
  | failed {first second : Failure} (h : fails first second) :
      Alike literals library fails (.error first) (.error second)
  | built {ty : Ty} {first second : Segment} {scopes : Scopes} (hty : ty.isWellFormed = true)
      (hsize : ty.extent < 2147483640)
      (hyields : ∀ limit, scopes.frameSize.toNat ≤ limit → ∃ meaning,
        Yields (.ofLimit literals library limit) first ty.extent meaning ∧
        Yields (.ofLimit literals library limit) second ty.extent meaning) :
      Alike literals library fails (.ok (.value ty first, scopes)) (.ok (.value ty second, scopes))

section Calls

variable {literals : Pool} {library : Library} {scopes : Scopes} {name : String}
  {place position : Position} {bound : Nat}

-- The names of the scopes, as the machine finds them.
structure Known (literals : Pool) (scopes : Scopes) (bound : Nat) (binding : Binding) : Prop where
  isWellFormed : binding.ty.isWellFormed = true
  stored : binding.Stored literals scopes.frameSize.toNat
  below : binding.Below bound

private theorem Plan.Steady.known {pieces : List Piece} {binding : Binding}
    (hplan : Plan.Steady literals library ⟨pieces, scopes⟩)
    (hbelow : ∀ scope ∈ scopes.chain, ∀ entry ∈ scope.bindings, entry.2.Below bound)
    (h : ∃ scope ∈ scopes.chain, (name, binding) ∈ scope.bindings) :
    Known literals scopes bound binding := by
  obtain ⟨scope, hscope, hmem⟩ := h
  exact ⟨hplan.written.scopes scope hscope _ hmem, hplan.runs.scopes scope hscope _ hmem,
    hbelow scope hscope _ hmem⟩

-- A name in front of its argument, and the piped argument in front of the name.
private theorem yields_call_piped (place : Position) {binding : Binding} {ty result : Ty}
    {segment : Segment} {limit : Nat} {meaning : Meaning}
    (hknown : Known literals scopes bound binding)
    (hlimit : scopes.frameSize.toNat ≤ limit) (hty : ty.isWellFormed = true)
    (hresult : binding.ty.result? = some result)
    (hcall : Instruction.Sized ⟨.call, result, [binding.ty, ty], .none, 0, position⟩)
    (habove : ∀ instruction ∈ segment.code 0, instruction.Above bound)
    (hyields : Yields (.ofLimit literals library limit) segment ty.extent meaning) :
    ∃ whole,
      Yields (.ofLimit literals library limit)
        ⟨(Operand.loading binding place).code 0 ++ segment.code 0,
          ⟨.call, result, [binding.ty, ty], .none, 0, position⟩⟩ result.extent whole ∧
      Yields (.ofLimit literals library limit)
        ⟨segment.code gap ++ (Operand.loading binding place).code (backward ty),
          ⟨.call, result, [binding.ty, ty], .none, 0, position⟩⟩ result.extent whole := by
  have hmeasured := hcall.measured
  have hhandle := Ty.extent_of_isFunc hknown.isWellFormed (Ty.isFunc_of_result? hresult)
  have hsizes := hmeasured.call rfl rfl hhandle
  have hsize := hmeasured.operands binding.ty (by simp)
  have hstored := hknown.stored.mono hlimit
  have hacts := @acts_call (.ofLimit literals library limit) position
    (lenient_ofLimit literals library limit) binding.ty ty result hknown.isWellFormed hty
    (Ty.kept_isWellFormed.result hknown.isWellFormed hresult) hsizes hmeasured.result
  have hloading := @yields_loading (.ofLimit literals library limit) binding place
    hknown.isWellFormed hsize hstored
  refine ⟨_, (hloading.prepares.append hyields.prepares).yields hacts, ?_⟩
  rw [hhandle] at hloading hacts hsizes
  have hpiped := (hyields.piped hloading (toInt_backward hty (by omega))).yields hacts
  refine hpiped.congr fun frame hframe => ?_
  have hsame := fetch_pair hyields habove hknown.below hknown.isWellFormed hsize hstored hframe
  rw [hhandle]
  exact Meaning.andThen_congr hsame.symm _

-- Two calls of a name with arguments of one type. They fail together, or find the same function.
theorem alike_named {fails : Failure → Failure → Prop} {pieces : List Piece}
    (hplan : Plan.Steady literals library ⟨pieces, scopes⟩)
    (hbelow : ∀ scope ∈ scopes.chain, ∀ entry ∈ scope.bindings, entry.2.Below bound)
    {before behind otherBefore otherBehind : List Instruction} {placement otherPlacement : Int32}
    {argument other : Ty} (hother : Ty.func .undecided other = Ty.func .undecided argument)
    (hrefl : ∀ failure, fails failure failure)
    (hproblem : fails (.located place (calleeProblem scopes name argument))
      (.located place (calleeProblem scopes name other)))
    (hbuilt : ∀ {binding : Binding} {result : Ty}, Known literals scopes bound binding →
      binding.ty.result? = some result →
      Piece.call before behind placement argument position (.name name place) scopes =
        join scopes (before ++ (Operand.loading binding place).code placement ++ behind) .call
          result [binding.ty, argument] .none position →
      Alike literals library fails
        (join scopes (before ++ (Operand.loading binding place).code placement ++ behind) .call
          result [binding.ty, argument] .none position)
        (join scopes (otherBefore ++ (Operand.loading binding place).code otherPlacement ++
          otherBehind) .call result [binding.ty, other] .none position)) :
    Alike literals library fails
      (Piece.call before behind placement argument position (.name name place) scopes)
      (Piece.call otherBefore otherBehind otherPlacement other position (.name name place)
        scopes) := by
  simp only [Piece.call, Operand.settleCallee, hother] at hbuilt ⊢
  cases hlookup : scopes.lookupMatching name (.func .undecided argument) with
  | none => exact .failed hproblem
  | some binding =>
      obtain ⟨scope, hscope, hmem, -⟩ := Scopes.mem_of_lookupMatching hlookup
      have hknown := hplan.known hbelow ⟨scope, hscope, hmem⟩
      simp only [hlookup, ok_bind] at hbuilt ⊢
      cases hresult : binding.ty.result? with
      | none => exact .failed (hrefl _)
      | some result => exact hbuilt hknown hresult (by simp only [hresult])

theorem alike_call {pieces : List Piece} {argument : Operand}
    (hplan : Plan.Steady literals library ⟨pieces, scopes⟩) (hmem : .single argument ∈ pieces)
    (habove : ∀ instruction ∈ argument.code 0, instruction.Above bound)
    (hbelow : ∀ scope ∈ scopes.chain, ∀ entry ∈ scope.bindings, entry.2.Below bound)
    (hsized : ∀ operand outer, Piece.applied position (.single (.name name place))
      (.single argument) scopes = .ok (operand, outer) → operand.segment.All Instruction.Sized) :
    Alike literals library Eq
      (Piece.applied position (.single (.name name place)) (.single argument) scopes)
      (argument.piping (.name name place) scopes >>= fun piped =>
        Piece.completed position piped scopes) := by
  cases hsettle : argument.settle scopes with
  | error failure =>
      simp only [Piece.applied, Piece.settle, Operand.piping, hsettle, error_bind]
      exact .failed rfl
  | ok found =>
      obtain ⟨ty, segment⟩ := found
      have hty := hplan.isWellFormed hmem hsettle
      have hsegment := @Piece.above_settle bound _ _ _ (.single argument) hsettle habove 0
      simp only [Piece.applied, Piece.settle, Operand.piping, hsettle, ok_bind, inRange,
        Ty.size?_eq_extent hty, Piece.completed] at hsized ⊢
      refine alike_named hplan hbelow rfl (fun _ => rfl) rfl fun hknown hresult hcall => ?_
      have hall := hsized _ _ hcall
      simp only [Operand.made, Operand.segment, Segment.All, List.nil_append,
        List.forall_mem_append, uniform_sized.code_iff] at hall
      refine .built (Ty.kept_isWellFormed.result hknown.isWellFormed hresult) hall.2.result
        fun limit hlimit => ?_
      obtain ⟨meaning, hmeaning⟩ := hplan.settle hmem hsettle hall.1.2 hlimit
      have hboth := yields_call_piped place hknown hlimit hty hresult hall.2 hsegment hmeaning
      simpa only [List.nil_append, List.append_nil] using hboth

-- The same with a pair of arguments. The pipe leaves the second one where a call has it.
private theorem yields_call_pipedWith (place comma : Position) {binding : Binding}
    {firstTy secondTy whole result : Ty} {first second : Segment} {limit : Nat}
    {left right : Meaning} (hknown : Known literals scopes bound binding)
    (hlimit : scopes.frameSize.toNat ≤ limit) (hfirstTy : firstTy.isWellFormed = true)
    (hsecondTy : secondTy.isWellFormed = true) (happend : firstTy.append? secondTy = some whole)
    (hresult : binding.ty.result? = some result)
    (hcall : Instruction.Sized ⟨.call, result, [binding.ty, whole.close], .none, 0, position⟩)
    (habove : ∀ instruction ∈ first.code 0, instruction.Above bound)
    (hfirst : Yields (.ofLimit literals library limit) first firstTy.extent left)
    (hsecond : Yields (.ofLimit literals library limit) second secondTy.extent right) :
    ∃ meaning,
      Yields (.ofLimit literals library limit)
        ⟨(Operand.loading binding place).code 0 ++
            (⟨first.code 0 ++ second.code 0,
              ⟨.tuple, whole, [firstTy, secondTy], .none, 0, comma⟩⟩ : Segment).code 0,
          ⟨.call, result, [binding.ty, whole.close], .none, 0, position⟩⟩ result.extent meaning ∧
      Yields (.ofLimit literals library limit)
        ⟨first.code gap ++ (Operand.loading binding place).code (backward firstTy) ++ second.code 0,
          ⟨.call, result, [binding.ty, whole], .none, 0, position⟩⟩ result.extent meaning := by
  have hmeasured := hcall.measured
  have hhandle := Ty.extent_of_isFunc hknown.isWellFormed (Ty.isFunc_of_result? hresult)
  have hclose : whole.close.extent = whole.extent := rfl
  have hsizes := hmeasured.call rfl rfl hhandle
  rw [hclose] at hsizes
  have hsize := hmeasured.operands binding.ty (by simp)
  have hstored := hknown.stored.mono hlimit
  have hwhole := Ty.kept_isWellFormed.append hfirstTy hsecondTy happend
  have hextent := Ty.extent_append? hfirstTy hsecondTy happend
  have hloading := @yields_loading (.ofLimit literals library limit) binding place
    hknown.isWellFormed hsize hstored
  have htuple := (hfirst.prepares.append hsecond.prepares).yields
    (@acts_tuple (.ofLimit literals library limit) comma firstTy secondTy whole hwhole (by omega)
      hextent)
  have hacts := fun argument hargument harguments =>
    @acts_call (.ofLimit literals library limit) position (lenient_ofLimit literals library limit)
      binding.ty argument result hknown.isWellFormed hargument
      (Ty.kept_isWellFormed.result hknown.isWellFormed hresult) harguments hmeasured.result
  refine ⟨_, (hloading.prepares.append htuple.prepares).yields
    (hacts whole.close (Ty.kept_isWellFormed.close hwhole) hsizes), ?_⟩
  have hcallActs := hacts whole hwhole hsizes
  rw [hhandle, hextent, ← Nat.add_assoc] at hcallActs
  rw [hhandle] at hloading hsizes
  have hpiped := ((hfirst.piped hloading (toInt_backward hfirstTy (by omega))).append
    hsecond.prepares).yields hcallActs
  refine hpiped.congr fun frame hframe => ?_
  have hsame := fetch_pair hfirst habove hknown.below hknown.isWellFormed hsize hstored hframe
  rw [hhandle]
  refine Meaning.andThen_congr ?_ _
  rw [Meaning.pair_assoc]
  exact (Meaning.andThen_congr hsame _).symm

theorem alike_callPair {pieces : List Piece} {middle : Scopes} {first second : Operand}
    {comma : Position} (hplan : Plan.Steady literals library ⟨pieces, scopes⟩)
    (hfirst : .single first ∈ pieces) (hsecond : .single second ∈ pieces)
    (hchain : middle.chain = scopes.chain)
    (habove : ∀ instruction ∈ first.code 0, instruction.Above bound)
    (hbelow : ∀ scope ∈ scopes.chain, ∀ entry ∈ scope.bindings, entry.2.Below bound)
    (hsized : ∀ operand outer, (Piece.tuple comma (.single first) (.single second) scopes >>=
      fun found => Piece.group (.single found.1) found.2 >>= fun found =>
        Piece.applied position (.single (.name name place)) (.single found.1) found.2) =
          .ok (operand, outer) → operand.segment.All Instruction.Sized) :
    Alike literals library (fun _ _ => True)
      (Piece.tuple comma (.single first) (.single second) scopes >>=
        fun found => Piece.group (.single found.1) found.2 >>= fun found =>
          Piece.applied position (.single (.name name place)) (.single found.1) found.2)
      (first.piping (.name name place) middle >>= fun piped =>
        Piece.applied position piped (.single second) scopes) := by
  have hsettled := Operand.settle_congr hchain first
  cases hfirstSettle : first.settle scopes with
  | error failure =>
      simp only [Piece.tuple, Piece.settle, Operand.piping, hsettled, hfirstSettle, error_bind]
      exact .failed trivial
  | ok found =>
      obtain ⟨firstTy, firstSegment⟩ := found
      have hfirstTy := hplan.isWellFormed hfirst hfirstSettle
      have hsegment := @Piece.above_settle bound _ _ _ (.single first) hfirstSettle habove 0
      simp only [Piece.tuple, Piece.settle, Operand.piping, hsettled, hfirstSettle, ok_bind,
        inRange, Ty.size?_eq_extent hfirstTy, Piece.applied] at hsized ⊢
      cases hsecondSettle : second.settle scopes with
      | error failure =>
          simp only [error_bind]
          exact .failed trivial
      | ok found =>
          obtain ⟨secondTy, secondSegment⟩ := found
          have hsecondTy := hplan.isWellFormed hsecond hsecondSettle
          simp only [hsecondSettle, ok_bind] at hsized ⊢
          cases happend : firstTy.append? secondTy with
          | none =>
              simp only [error_bind]
              exact .failed trivial
          | some whole =>
              simp only [happend, ok_bind, join, Operand.made, Piece.group, Operand.settle]
                at hsized ⊢
              refine alike_named hplan hbelow rfl (fun _ => trivial) trivial
                fun hknown hresult hcall => ?_
              have hall := hsized _ _ hcall
              simp only [Operand.made, Operand.segment, Segment.All, List.nil_append,
                List.forall_mem_append, uniform_sized.code_iff] at hall
              obtain ⟨⟨-, ⟨hfirstSized, hsecondSized⟩, -⟩, hcallSized⟩ := hall
              refine .built (Ty.kept_isWellFormed.result hknown.isWellFormed hresult)
                hcallSized.result fun limit hlimit => ?_
              obtain ⟨left, hleft⟩ := hplan.settle hfirst hfirstSettle hfirstSized hlimit
              obtain ⟨right, hright⟩ := hplan.settle hsecond hsecondSettle hsecondSized hlimit
              exact yields_call_pipedWith place comma hknown hlimit hfirstTy hsecondTy happend
                hresult hcallSized hsegment hleft hright

theorem Alike.sequence {fails : Failure → Failure → Prop} (hrefl : ∀ failure, fails failure failure)
    {pieces : List Piece} {first left right : Operand}
    (hplan : Plan.Steady literals library ⟨pieces, scopes⟩) (hfirst : .single first ∈ pieces)
    (h : Alike literals library fails (.ok (left, scopes)) (.ok (right, scopes)))
    (hsized : ∀ operand outer, Piece.sequence position (.single first) (.single left) scopes =
      .ok (operand, outer) → operand.segment.All Instruction.Sized) :
    Alike literals library fails (Piece.sequence position (.single first) (.single left) scopes)
      (Piece.sequence position (.single first) (.single right) scopes) := by
  cases h with
  | @built ty leftSegment rightSegment _ hty hsize hyields =>
      have hvalue : ∀ segment, (Operand.value ty segment).settle scopes = .ok (ty, segment) :=
        fun _ => rfl
      simp only [Piece.sequence, Piece.settle, hvalue, ok_bind] at hsized ⊢
      cases hsettle : first.settle scopes with
      | error failure => exact .failed (hrefl failure)
      | ok found =>
          obtain ⟨firstTy, firstSegment⟩ := found
          have hfirstTy := hplan.isWellFormed hfirst hsettle
          simp only [hsettle, ok_bind] at hsized ⊢
          have hall := hsized _ _ rfl
          simp only [Operand.made, Operand.segment, Segment.All, List.forall_mem_append,
            uniform_sized.code_iff] at hall
          obtain ⟨⟨hfirstSized, -⟩, hseqSized⟩ := hall
          refine .built hty hsize fun limit hlimit => ?_
          obtain ⟨meaning, hleft, hright⟩ := hyields limit hlimit
          obtain ⟨before, hbefore⟩ := hplan.settle hfirst hsettle hfirstSized hlimit
          have hmeasured := hseqSized.measured
          have hacts := @acts_sequence (.ofLimit literals library limit) position firstTy ty
            hfirstTy hty (hmeasured.operands firstTy (by simp)) (hmeasured.operands ty (by simp))
          exact ⟨_, (hbefore.prepares.append hleft.prepares).yields hacts,
            (hbefore.prepares.append hright.prepares).yields hacts⟩

end Calls

end Analysis

namespace Expr

open Analysis

section Replacing

variable {literals : Pool} {library : Library} {fails : Failure → Failure → Prop}

-- Wherever the first expression may stand, the second one does as well.
def Replaces (literals : Pool) (library : Library) (fails : Failure → Failure → Prop)
    (first second : Expr) : Prop :=
  ∀ {pieces : List Piece} {scopes : Scopes}, Plan.Steady literals library ⟨pieces, scopes⟩ →
    scopes.Floored → Plan.Sees Instruction.Sized first.postfixTokens ⟨pieces, scopes⟩ →
    Alike literals library fails (first.build scopes) (second.build scopes)

theorem sized_of_build {expr : Expr} {pieces : List Piece} {scopes outer : Scopes}
    {operand : Operand}
    (hsees : Plan.Sees Instruction.Sized expr.postfixTokens ⟨pieces, scopes⟩)
    (h : expr.build scopes = .ok (operand, outer)) : operand.segment.All Instruction.Sized := by
  have hcode := hsees.last (steps_of_build h pieces)
  simp only [Plan.code, codeOf, List.forall_mem_append, Piece.code, Operand.code,
    uniform_sized.code_iff] at hcode
  exact hcode.2

-- An expression leaves a plan as steady as it was.
theorem steady_of_build {expr : Expr} {pieces : List Piece} {scopes outer : Scopes}
    {operand : Operand} (hplan : Plan.Steady literals library ⟨pieces, scopes⟩)
    (hfloored : scopes.Floored)
    (hsees : Plan.Sees Instruction.Sized expr.postfixTokens ⟨pieces, scopes⟩)
    (h : expr.build scopes = .ok (operand, outer)) :
    Plan.Steady literals library ⟨.single operand :: pieces, outer⟩ ∧
      Floors scopes operand outer := by
  have hnext := hplan.steps hsees (steps_of_build h pieces)
  exact ⟨hnext, floors_of_build h (hnext.writesInFrame (List.mem_cons_self ..)) hfloored⟩

theorem Replaces.behind (hrefl : ∀ failure, fails failure failure) {first second : Expr}
    (h : Replaces literals library fails first second) (before : Option Expr)
    (position : Position) :
    Replaces literals library fails (behind before first position)
      (behind before second position) := by
  cases before with
  | none => exact h
  | some statements =>
      intro pieces scopes hplan hfloored hsees
      have hoperands := hsees.front
      cases hstatements : statements.build scopes with
      | error failure =>
          simp only [Expr.behind, build, hstatements, error_bind]
          exact .failed (hrefl failure)
      | ok found =>
          obtain ⟨value, middle⟩ := found
          obtain ⟨hplan, hfloors⟩ := steady_of_build hplan hfloored hoperands.front hstatements
          have hsecond := hoperands.behind (steps_of_build hstatements pieces)
          have hjoined : ∀ expr : Expr, (Expr.behind (some statements) expr position).build scopes =
              (expr.build middle >>= fun found =>
                Piece.sequence position (.single value) (.single found.1) found.2) := by
            intro expr
            simp only [Expr.behind, build, hstatements, ok_bind]
            rfl
          have halike := h hplan hfloors.floored hsecond
          have hsized : ∀ operand outer, (Expr.behind (some statements) first position).build
              scopes = .ok (operand, outer) → operand.segment.All Instruction.Sized :=
            fun _ _ => sized_of_build hsees
          rw [hjoined] at hsized ⊢
          rw [hjoined]
          cases hfirst : first.build middle with
          | error failure =>
              rw [hfirst] at halike
              generalize hother : second.build middle = other at halike ⊢
              cases halike with
              | failed hfails => exact .failed hfails
          | ok found =>
              rw [hfirst] at halike hsized
              generalize hother : second.build middle = other at halike ⊢
              cases halike with
              | built hty hsize hyields =>
                  obtain ⟨hplan, -⟩ := steady_of_build hplan hfloors.floored hsecond hfirst
                  exact Alike.sequence hrefl hplan (by simp) (.built hty hsize hyields) hsized

section Named

variable {name : String} {place position : Position}

-- A name that is called or piped into waits for its argument.
theorem build_named_call (argument : Expr) (scopes : Scopes) :
    (Expr.binary .call (.name name place) argument position).build scopes =
      (argument.build scopes >>= fun found =>
        Piece.applied position (.single (.name name place)) (.single found.1) found.2) := rfl

theorem build_named_pipe (value : Expr) (scopes : Scopes) :
    (Expr.pipe value (.name name place) position).build scopes =
      (value.build scopes >>= fun found =>
        found.1.piping (.name name place) found.2 >>= fun piped =>
          Piece.completed position piped found.2) := rfl

theorem build_named_pipeWith (value argument : Expr) (scopes : Scopes) :
    (Expr.pipeWith value (.name name place) argument position).build scopes =
      (value.build scopes >>= fun first =>
        first.1.piping (.name name place) first.2 >>= fun piped =>
          argument.build first.2 >>= fun second =>
            Piece.applied position piped (.single second.1) second.2) := rfl

theorem build_pair (left right : Expr) (comma opened closed : Position) (scopes : Scopes) :
    (Expr.bracketed .round (.binary .comma left right comma) opened closed).build scopes =
      (left.build scopes >>= fun first => right.build first.2 >>= fun second =>
        Piece.tuple comma (.single first.1) (.single second.1) second.2 >>= fun found =>
          Piece.group (.single found.1) found.2) := by
  simp only [build, sign, bind_assoc]

theorem steady_behind_name {pieces : List Piece} {scopes : Scopes} {rest : List Token}
    (hplan : Plan.Steady literals library ⟨pieces, scopes⟩)
    (hsees : Plan.Sees Instruction.Sized ((Expr.name name place).postfixTokens ++ rest)
      ⟨pieces, scopes⟩) :
    Plan.Steady literals library ⟨.single (.name name place) :: pieces, scopes⟩ ∧
      Plan.Sees Instruction.Sized rest ⟨.single (.name name place) :: pieces, scopes⟩ := by
  have hname : (Expr.name name place).build scopes = .ok (.name name place, scopes) := rfl
  have hsteps := steps_of_build hname pieces
  exact ⟨hplan.steps hsees.front hsteps, hsees.behind hsteps⟩

theorem replaces_call {argument : Expr} (hbinds : argument.binds = false) :
    Replaces literals library Eq (.binary .call (.name name place) argument position)
      (.pipe argument (.name name place) position) := by
  intro pieces scopes hplan hfloored hsees
  obtain ⟨hnamed, hrest⟩ := steady_behind_name hplan hsees.front
  have hsized : ∀ operand outer, (Expr.binary .call (.name name place) argument position).build
      scopes = .ok (operand, outer) → operand.segment.All Instruction.Sized :=
    fun _ _ => sized_of_build hsees
  rw [build_named_call] at hsized ⊢
  rw [build_named_pipe]
  cases hargument : argument.build scopes with
  | error failure => exact .failed rfl
  | ok found =>
      obtain ⟨value, outer⟩ := found
      obtain ⟨hsteady, hfloors⟩ := steady_of_build hnamed hfloored hrest hargument
      have hchain := chain_of_build hbinds hargument
      rw [hargument] at hsized
      exact alike_call hsteady (by simp) hfloors.code (hchain ▸ hfloored) hsized

theorem replaces_callPair {left right : Expr} (hleft : left.binds = false)
    (hright : right.binds = false) (comma opened closed : Position) :
    Replaces literals library (fun _ _ => True)
      (.binary .call (.name name place)
        (.bracketed .round (.binary .comma left right comma) opened closed) position)
      (.pipeWith left (.name name place) right position) := by
  intro pieces scopes hplan hfloored hsees
  obtain ⟨hnamed, hrest⟩ := steady_behind_name hplan hsees.front
  have hoperands := hrest.front.front
  have hsized : ∀ operand outer, (Expr.binary .call (.name name place)
      (.bracketed .round (.binary .comma left right comma) opened closed) position).build scopes =
      .ok (operand, outer) → operand.segment.All Instruction.Sized :=
    fun _ _ => sized_of_build hsees
  rw [build_named_call, build_pair] at hsized ⊢
  rw [build_named_pipeWith]
  cases hfirst : left.build scopes with
  | error failure => exact .failed trivial
  | ok found =>
      obtain ⟨first, middle⟩ := found
      obtain ⟨hplan, hfloors⟩ := steady_of_build hnamed hfloored hoperands.front hfirst
      have hbehind := hoperands.behind (steps_of_build hfirst _)
      simp only [hfirst, ok_bind] at hsized ⊢
      cases hsecond : right.build middle with
      | error failure =>
          cases first.piping (.name name place) middle <;> exact .failed trivial
      | ok found =>
          obtain ⟨second, outer⟩ := found
          obtain ⟨hplan, -⟩ := steady_of_build hplan hfloors.floored hbehind hsecond
          have hchain := chain_of_build hright hsecond
          have hsame : outer.chain = scopes.chain := hchain.trans (chain_of_build hleft hfirst)
          simp only [hsecond, ok_bind, bind_assoc] at hsized ⊢
          exact alike_callPair hplan (by simp) (by simp) hchain.symm hfloors.code
            (hsame ▸ hfloored) hsized

end Named

end Replacing

end Expr

theorem Library.Registered.steady {library : Library} {scopes : Scopes} {literals : Pool}
    (h : library.Registered) (hroot : Scopes.ofLibrary library = .ok (scopes, literals))
    (other : Library) : Analysis.Plan.Steady literals other ⟨[], scopes⟩ := by
  have hnative : ∀ native ∈ library.natives, native.ty.isWellFormed = true :=
    fun native hmem => (h.checked.native native hmem).wellFormed
  have hconstant : ∀ constant ∈ library.constants, constant.ty.isWellFormed = true :=
    fun constant hmem => (h.checked.constant constant hmem).wellFormed
  have hstored := Scopes.stored_ofLibrary
    (fun native hmem => ⟨hnative native hmem, h.isFunc native hmem⟩) hconstant hroot
  exact ⟨⟨by simp, Scopes.typed_ofLibrary hnative hconstant hroot⟩,
    ⟨by simp, hstored.mono (Nat.zero_le _)⟩, by simp [Analysis.Plan.code, Analysis.codeOf]⟩

end Sluice

import Mathlib
import Sluice.Proofs.Failures
import Sluice.Proofs.Operations

namespace Sluice

theorem toNat_max (left right : UInt32) : (max left right).toNat = max left.toNat right.toNat := by
  have hmax : max left right = if left ≤ right then right else left := rfl
  rw [hmax]
  split
  · rename_i hle
    exact (Nat.max_eq_right (UInt32.le_iff_toNat_le.mp hle)).symm
  · rename_i hlt
    rw [UInt32.le_iff_toNat_le] at hlt
    omega

namespace Scopes

-- Every binding has its bytes inside of the pool or of the frame.
def Stored (literals : Pool) (limit : Nat) (scopes : Scopes) : Prop :=
  ∀ scope ∈ scopes.chain, ∀ entry ∈ scope.bindings, entry.2.Stored literals limit

end Scopes

theorem Binding.Stored.mono {literals : Pool} {limit larger : Nat} {binding : Binding}
    (h : binding.Stored literals limit) (hle : limit ≤ larger) :
    binding.Stored literals larger := by
  obtain ⟨ty, storage⟩ := binding
  cases storage with
  | stack offset => exact Nat.le_trans h hle
  | _ => exact h

namespace Scopes

variable {literals : Pool} {limit : Nat} {scopes : Scopes}

theorem Stored.mono {larger : Nat} (h : scopes.Stored literals limit) (hle : limit ≤ larger) :
    scopes.Stored literals larger :=
  fun scope hscope entry hentry => (h scope hscope entry hentry).mono hle

theorem Stored.enter (h : scopes.Stored literals limit) : scopes.enter.Stored literals limit := by
  intro scope hscope
  rcases List.mem_cons.mp hscope with rfl | hscope
  · simp [Scopes.enter]
  · exact h scope hscope

theorem Stored.leave {outer : Scopes} (h : scopes.Stored literals limit)
    (hleave : scopes.leave = .ok outer) : outer.Stored literals limit := by
  obtain ⟨current, around, frameSize⟩ := scopes
  cases around with
  | nil => contradiction
  | cons scope around =>
      cases hleave
      exact fun scope hscope => h scope (List.mem_cons_of_mem _ hscope)

theorem frameSize_leave {outer : Scopes} (hleave : scopes.leave = .ok outer) :
    outer.frameSize = scopes.frameSize := by
  obtain ⟨current, around, frameSize⟩ := scopes
  cases around with
  | nil => contradiction
  | cons scope around =>
      cases hleave
      rfl

theorem Stored.declare {name : String} {binding : Binding} {position : Position}
    {declared : Scopes} (h : scopes.Stored literals limit)
    (hbinding : binding.Stored literals limit)
    (hdeclare : scopes.declare name binding position = .ok declared) :
    declared.Stored literals limit := by
  obtain ⟨-, rfl⟩ := declare_eq_ok hdeclare
  intro scope hscope
  rcases List.mem_cons.mp hscope with rfl | hscope
  · intro entry hentry
    rcases List.mem_append.mp hentry with hentry | hentry
    · exact h scopes.current (List.mem_cons_self ..) entry hentry
    · cases List.mem_singleton.mp hentry
      exact hbinding
  · exact h scope (List.mem_cons_of_mem _ hscope)

-- The frame of a binding that is declared right after its bytes were allocated.
theorem frameSize_le_declare {size : UInt32} {name : String} {binding : Binding}
    {position : Position} {declared : Scopes}
    (h : (scopes.allocate size).2.declare name binding position = .ok declared) :
    scopes.frameSize.toNat ≤ declared.frameSize.toNat := by
  obtain ⟨-, rfl⟩ := declare_eq_ok h
  exact toNat_max scopes.frameSize (scopes.current.frame.offset + size) ▸ Nat.le_max_left ..

-- The same for bytes that do not run over the end of a word.
theorem frameSize_declare_allocate {ty : Ty} {size : UInt32} {name : String} {binding : Binding}
    {position : Position} {declared : Scopes} (hty : ty.isWellFormed = true)
    (hsize : ty.size? = some size)
    (hmeasured : (scopes.allocate size).1.toNat + ty.extent < UInt32.size)
    (h : (scopes.allocate size).2.declare name binding position = .ok declared) :
    declared.frameSize.toNat =
      max scopes.frameSize.toNat ((scopes.allocate size).1.toNat + ty.extent) := by
  cases hsize.symm.trans (Ty.size?_eq_extent hty)
  obtain ⟨-, rfl⟩ := declare_eq_ok h
  have hextent : (UInt32.ofNat ty.extent).toNat = ty.extent :=
    UInt32.toNat_ofNat_of_lt' (Nat.lt_of_le_of_lt (Nat.le_add_left ..) hmeasured)
  have hsum : (scopes.current.frame.offset + UInt32.ofNat ty.extent).toNat =
      scopes.current.frame.offset.toNat + ty.extent := by
    rw [UInt32.toNat_add, hextent]
    exact Nat.mod_eq_of_lt hmeasured
  have hmax := toNat_max scopes.frameSize (scopes.current.frame.offset + UInt32.ofNat ty.extent)
  rw [hsum] at hmax
  exact hmax

theorem allocate_le_frameSize {ty : Ty} {size : UInt32} {name : String} {binding : Binding}
    {position : Position} {declared : Scopes} (hty : ty.isWellFormed = true)
    (hsize : ty.size? = some size)
    (hmeasured : (scopes.allocate size).1.toNat + ty.extent < UInt32.size)
    (h : (scopes.allocate size).2.declare name binding position = .ok declared) :
    (scopes.allocate size).1.toNat + ty.extent ≤ declared.frameSize.toNat :=
  frameSize_declare_allocate hty hsize hmeasured h ▸ Nat.le_max_right ..

end Scopes

-- An array of elements has the size of the elements next to each other.
theorem Tree.size_array_of_replicate {inner : Tree} {count : Nat}
    (hsize : (Tree.tuple (List.replicate count inner)).size < 2147483648) :
    (Tree.array inner (UInt32.ofNat count)).size =
      (Tree.tuple (List.replicate count inner)).size := by
  rw [Tree.size, Tree.sizeAll_replicate] at hsize ⊢
  rw [Tree.size]
  -- elements without bytes may be more than a word can count
  rcases Nat.eq_zero_or_pos inner.size with hzero | hpos
  · rw [hzero, Nat.zero_mul, Nat.mul_zero]
  · have hcount : count ≤ count * inner.size := Nat.le_mul_of_pos_right count hpos
    have hword : (UInt32.ofNat count).toNat = count :=
      UInt32.toNat_ofNat_of_lt' (Nat.lt_trans (Nat.lt_of_le_of_lt hcount hsize) (by decide))
    rw [hword, Nat.mul_comm]

namespace Analysis

def Operand.Runs (setting : Setting) : Operand → Prop
  | .value ty segment => ∃ meaning, Yields setting segment ty.extent meaning
  | .name _ _ => True

def Piece.Runs (setting : Setting) : Piece → Prop
  | .single operand => operand.Runs setting
  | .piped ty segment callee =>
      (∃ meaning, Yields setting segment ty.extent meaning) ∧ callee.Runs setting

section Signs

variable {setting : Setting} {scopes outer : Scopes} {ty : Ty} {segment : Segment}

theorem Piece.Runs.yields {piece : Piece} (hpiece : piece.Runs setting)
    (htyped : scopes.Typed fun ty => ty.isWellFormed = true)
    (hstored : scopes.Stored setting.literals setting.limit)
    (h : piece.settle scopes = .ok (ty, segment)) (hmeasured : segment.All Instruction.Measured) :
    ∃ meaning, Yields setting segment ty.extent meaning := by
  match piece with
  | .single (.value _ _) =>
      cases h
      exact hpiece
  | .single (.name text position) =>
      simp only [Piece.settle, Operand.settle] at h
      split at h
      · contradiction
      · rename_i binding hlookup
        cases h
        obtain ⟨scope, hscope, hmem⟩ := Scopes.mem_of_lookup hlookup
        exact ⟨_, yields_loading (htyped.lookup hlookup) hmeasured.2.result
          (hstored scope hscope _ hmem)⟩
  | .piped _ _ _ => contradiction

theorem Operand.Runs.yieldsCallee {callee : Operand} {argument : Ty} {position : Position}
    (hcallee : callee.Runs setting) (htyped : scopes.Typed fun ty => ty.isWellFormed = true)
    (hstored : scopes.Stored setting.literals setting.limit)
    (h : callee.settleCallee scopes argument position = .ok (ty, segment))
    (hmeasured : segment.All Instruction.Measured) :
    ∃ meaning, Yields setting segment ty.extent meaning := by
  match callee with
  | .value _ _ =>
      obtain ⟨rfl, rfl, -, -⟩ := Operand.eq_of_settleCallee_value h
      exact hcallee
  | .name text place =>
      simp only [Operand.settleCallee] at h
      split at h
      · contradiction
      · rename_i binding hlookup
        cases h
        obtain ⟨scope, hscope, hmem, -⟩ := Scopes.mem_of_lookupMatching hlookup
        exact ⟨_, yields_loading (htyped.lookupMatching hlookup) hmeasured.2.result
          (hstored scope hscope _ hmem)⟩

-- Brackets around elements change the type of the bytes and not their number.
theorem extent_array {element : Ty} {count : Nat} {position : Position}
    (hty : ty.isWellFormed = true) (hshows : segment.Shows ty)
    (hmeasured : segment.last.Measured) (h : Piece.elementsOf ty position = .ok (element, count)) :
    (Ty.array element (UInt32.ofNat count)).extent = ty.extent := by
  obtain ⟨tree, htree⟩ := Ty.isWellFormed_iff.mp hty
  have hindexable : ty.isTuple = true → ty.Indexable := by
    intro htuple
    have hlast := hmeasured.indexable segment.last.result (List.mem_cons_self ..)
    rwa [Ty.Indexable, hshows.tuple htuple] at hlast
  obtain ⟨inner, hinner, ⟨hopen, rfl⟩ | ⟨-, rfl, rfl⟩⟩ := elementsOf_tree htree hindexable h
  · have hsize : ty.extent < 2147483648 := by
      have hlast := hmeasured.result
      rwa [Ty.extent, hshows.tuple (Bool.and_eq_true_iff.mp hopen).1] at hlast
    rw [htree.extent_eq] at hsize ⊢
    rw [(Ty.describes_array hinner _).extent_eq, Tree.size_array_of_replicate hsize]
  · rw [(Ty.describes_array hinner _).extent_eq, htree.extent_eq, Tree.size]
    exact Nat.mul_one _

-- What the operands of a sign bring along: the pieces and the names have their types, the pieces leave
-- their values, and the values of the names have been stored.
structure Supplies (setting : Setting) (scopes : Scopes) (taken : List Piece) : Prop where
  typed : ∀ piece ∈ taken, piece.Typed fun ty => ty.isWellFormed = true
  names : scopes.Typed fun ty => ty.isWellFormed = true
  runs : ∀ piece ∈ taken, piece.Runs setting
  stored : scopes.Stored setting.literals setting.limit

namespace Supplies

variable {taken : List Piece}

theorem one (h : Supplies setting scopes taken) {piece : Piece} (hmem : piece ∈ taken)
    (hsettle : piece.settle scopes = .ok (ty, segment))
    (hmeasured : segment.All Instruction.Measured) :
    (ty.isWellFormed = true ∧ segment.Shows ty) ∧
      ∃ meaning, Yields setting segment ty.extent meaning :=
  ⟨(h.typed piece hmem).settle h.names hsettle,
    (h.runs piece hmem).yields h.names h.stored hsettle hmeasured⟩

-- The values of two pieces lie next to each other.
theorem two (h : Supplies setting scopes taken) {left right : Piece} {leftTy rightTy : Ty}
    {leftSegment rightSegment : Segment} (hmemLeft : left ∈ taken)
    (hmemRight : right ∈ taken) (hleft : left.settle scopes = .ok (leftTy, leftSegment))
    (hright : right.settle scopes = .ok (rightTy, rightSegment))
    (hmeasured : ∀ instruction ∈ leftSegment.code 0 ++ rightSegment.code 0, instruction.Measured) :
    leftTy.isWellFormed = true ∧ rightTy.isWellFormed = true ∧
      ∃ meaning, Prepares setting (leftSegment.code 0 ++ rightSegment.code 0)
        (leftTy.extent + rightTy.extent) meaning := by
  simp only [List.forall_mem_append, uniform_measured.code_iff] at hmeasured
  obtain ⟨⟨hleftTy, -⟩, first, hfirst⟩ := h.one hmemLeft hleft hmeasured.1
  obtain ⟨⟨hrightTy, -⟩, second, hsecond⟩ := h.one hmemRight hright hmeasured.2
  exact ⟨hleftTy, hrightTy, _, hfirst.prepares.append hsecond.prepares⟩

-- A callee leaves a handle.
theorem callee (h : Supplies setting scopes taken) {callee : Operand} {argument result : Ty}
    {position : Position} (htyped : callee.Typed fun ty => ty.isWellFormed = true)
    (hruns : callee.Runs setting)
    (hcallee : callee.settleCallee scopes argument position = .ok (ty, segment))
    (hresult : ty.result? = some result) (hmeasured : segment.All Instruction.Measured) :
    ty.isWellFormed = true ∧ ty.extent = handleWidth ∧
      ∃ meaning, Yields setting segment handleWidth meaning := by
  have hty := (htyped.settleCallee h.names hcallee).1
  have hhandle := Ty.extent_of_isFunc hty (Ty.isFunc_of_result? hresult)
  obtain ⟨meaning, hmeaning⟩ := hruns.yieldsCallee h.names h.stored hcallee hmeasured
  rw [hhandle] at hmeaning
  exact ⟨hty, hhandle, meaning, hmeaning⟩

-- The handle of a piped call lies below the value, as long as a placement can reach it.
theorem piped (h : Supplies setting scopes taken) {callee : Operand} {argument valueTy result : Ty}
    {value : Segment} {position : Position} (hmem : .piped valueTy value callee ∈ taken)
    (hcallee : callee.settleCallee scopes argument position = .ok (ty, segment))
    (hresult : ty.result? = some result) (hmeasured : segment.All Instruction.Measured) :
    valueTy.isWellFormed = true ∧ ty.isWellFormed = true ∧ ty.extent = handleWidth ∧
      (handleWidth + valueTy.extent < 2147483648 →
        ∃ meaning, Prepares setting (value.code gap ++ segment.code (backward valueTy))
          (handleWidth + valueTy.extent) meaning) := by
  have htyped : (Piece.piped valueTy value callee).Typed _ := h.typed _ hmem
  have hruns : (Piece.piped valueTy value callee).Runs setting := h.runs _ hmem
  obtain ⟨first, hfirst⟩ := hruns.1
  obtain ⟨hty, hhandle, second, hsecond⟩ := h.callee htyped.2 hruns.2 hcallee hresult hmeasured
  refine ⟨htyped.1.1, hty, hhandle, fun hsize => ?_⟩
  exact ⟨_, hfirst.piped hsecond (toInt_backward htyped.1.1 hsize)⟩

end Supplies

-- The value of a sign, on top of whatever its operands have left.
theorem Makes.runs (hlenient : setting.Lenient) {kind : Token.Kind} {taken : List Piece}
    {operand : Operand} (h : Makes scopes kind taken operand outer)
    (hmeasured : operand.segment.All Instruction.Measured)
    (hsupplies : Supplies setting scopes taken)
    (hlimit : outer.frameSize.toNat ≤ setting.limit) : operand.Runs setting := by
  have hcode := fun segment placement => uniform_measured.code_iff segment placement
  have hkept := Ty.kept_isWellFormed
  have hlast := hmeasured.2
  have hinit := hmeasured.1
  cases h with
  | int position hleast hgreatest => exact ⟨_, prepares_nil.yields (acts_int _)⟩
  | float bits position => exact ⟨_, prepares_nil.yields (acts_float _)⟩
  | @assign right ty segment name place size declared position hright hsize hdeclare =>
      simp only [Operand.made, Operand.segment, List.forall_mem_cons, hcode] at hinit
      obtain ⟨⟨hty, -⟩, meaning, hmeaning⟩ := hsupplies.one (by simp) hright hinit.2
      have hty := hkept.close hty
      have hinside := Scopes.allocate_le_frameSize hty hsize hlast.frame hdeclare
      exact ⟨_, (hmeaning.prepares.spent_cons name place hsize).yields
        (acts_copy hty hlast.result (Nat.le_trans hinside hlimit))⟩
  | @arithmetic left right leftTy rightTy leftSegment rightSegment primitive kind op position hop
      hleft hright hnumeric hsame =>
      obtain ⟨hleftTy, hrightTy, meaning, hmeaning⟩ :=
        hsupplies.two (by simp) (by simp) hleft hright hinit
      obtain ⟨hatoms, hprimitive⟩ := Ty.numeric?_eq_some hnumeric
      have hatoms' : rightTy.atoms = [.prim primitive] := by
        rw [← hatoms]
        exact (of_decide_eq_true hsame).symm
      obtain ⟨operation, hoperation⟩ : ∃ operation, Arithmetic.Operation.ofOp? op = some operation := by
        cases kind <;> cases hop <;> exact ⟨_, rfl⟩
      exact ⟨_, hmeaning.yields
        (acts_arithmetic hoperation hprimitive hatoms hatoms' hleftTy hrightTy)⟩
  | @negate piece ty segment position hsettle hnumeric =>
      simp only [Operand.made, Operand.segment, hcode] at hinit
      obtain ⟨⟨hty, -⟩, meaning, hmeaning⟩ := hsupplies.one (by simp) hsettle hinit
      obtain ⟨primitive, hprimitive⟩ := Option.isSome_iff_exists.mp hnumeric
      obtain ⟨hatoms, hprimitive⟩ := Ty.numeric?_eq_some hprimitive
      exact ⟨_, hmeaning.prepares.yields (acts_negate hprimitive hatoms hty)⟩
  | tuple position hleft hright happend =>
      obtain ⟨hleftTy, hrightTy, meaning, hmeaning⟩ :=
        hsupplies.two (by simp) (by simp) hleft hright hinit
      exact ⟨_, hmeaning.yields (acts_tuple (hkept.append hleftTy hrightTy happend) hlast.result
        (Ty.extent_append? hleftTy hrightTy happend))⟩
  | @sequence left right leftTy rightTy leftSegment rightSegment position hleft hright =>
      obtain ⟨hleftTy, hrightTy, meaning, hmeaning⟩ :=
        hsupplies.two (by simp) (by simp) hleft hright hinit
      have hleftSize := hlast.operands leftTy (by simp [Operand.made, Operand.segment])
      have hrightSize := hlast.operands rightTy (by simp [Operand.made, Operand.segment])
      exact ⟨_, hmeaning.yields (acts_sequence hleftTy hrightTy hleftSize hrightSize)⟩
  | @call callee argument ty calleeTy result segment calleeSegment position hargument hcallee
      hresult =>
      simp only [Operand.made, Operand.segment, List.forall_mem_append, hcode] at hinit
      obtain ⟨hcalleeTy, hhandle, first, hfirst⟩ := hsupplies.callee
        (hsupplies.typed (.single callee) (by simp)) (hsupplies.runs (.single callee) (by simp))
        hcallee hresult hinit.1
      obtain ⟨⟨hty, -⟩, second, hsecond⟩ := hsupplies.one (by simp) hargument hinit.2
      rw [← hhandle] at hfirst
      exact ⟨_, (hfirst.prepares.append hsecond.prepares).yields
        (acts_call hlenient hcalleeTy hty (hkept.result hcalleeTy hresult)
          (hlast.call rfl rfl hhandle) hlast.result)⟩
  | @callPiped callee argument ty valueTy whole calleeTy result value segment calleeSegment position
      hargument happend hcallee hresult =>
      simp only [Operand.made, Operand.segment, List.forall_mem_append, hcode] at hinit
      obtain ⟨hvalueTy, hcalleeTy, hhandle, hpiped⟩ := hsupplies.piped
        (List.mem_cons_of_mem _ List.mem_cons_self) hcallee hresult hinit.1.2
      obtain ⟨⟨hty, -⟩, second, hsecond⟩ := hsupplies.one (by simp) hargument hinit.2
      have hextent := Ty.extent_append? hvalueTy hty happend
      have hsizes := hlast.call rfl rfl hhandle
      have hacts := @acts_call setting position hlenient calleeTy whole result hcalleeTy
        (hkept.append hvalueTy hty happend) (hkept.result hcalleeTy hresult) hsizes hlast.result
      obtain ⟨first, hfirst⟩ := hpiped (by omega)
      rw [hextent, hhandle, ← Nat.add_assoc] at hacts
      exact ⟨_, (hfirst.append hsecond.prepares).yields hacts⟩
  | @completed callee ty calleeTy result value calleeSegment position hcallee hresult =>
      simp only [Operand.made, Operand.segment, List.forall_mem_append, hcode] at hinit
      obtain ⟨hty, hcalleeTy, hhandle, hpiped⟩ :=
        hsupplies.piped List.mem_cons_self hcallee hresult hinit.2
      have hsizes := hlast.call rfl rfl hhandle
      have hacts := @acts_call setting position hlenient calleeTy ty result hcalleeTy hty
        (hkept.result hcalleeTy hresult) hsizes hlast.result
      obtain ⟨meaning, hmeaning⟩ := hpiped (by omega)
      rw [hhandle] at hacts
      exact ⟨_, hmeaning.yields hacts⟩
  | @member subject ty inner segment name place row position hsubject htuple hrow hinner =>
      simp only [Operand.made, Operand.segment, List.forall_mem_append, hcode] at hinit
      obtain ⟨⟨hty, -⟩, meaning, hmeaning⟩ := hsupplies.one (by simp) hsubject hinit.1
      have hindexable := hlast.indexable ty (by simp [Operand.made, Operand.segment])
      have hsize := hlast.operands ty (by simp [Operand.made, Operand.segment])
      have hinside := Ty.member_inside hty htuple hindexable hsize hrow hinner
      exact ⟨_, (hmeaning.prepares.append_spent name place rfl).yields
        (acts_member hty (hkept.member hty htuple hindexable hrow hinner) hsize hinside)⟩
  | group ty segment =>
      exact hsupplies.runs (.single (.value ty segment)) (List.mem_cons_self ..)
  | groupName text position => trivial
  | array hsettle helements =>
      obtain ⟨⟨hty, hshows⟩, meaning, hmeaning⟩ := hsupplies.one (by simp) hsettle hmeasured
      refine ⟨meaning, ?_⟩
      rw [extent_array hty hshows hlast helements]
      exact hmeaning
  | blockEnd hsettle hleave => exact (hsupplies.one (by simp) hsettle hmeasured).2

end Signs

section Plans

variable {literals : Pool} {library : Library} {allowed : Failure → Prop}

-- Bindings stay inside of the frame, which only grows.
theorem Makes.stored {scopes outer : Scopes} {kind : Token.Kind} {taken : List Piece}
    {operand : Operand} (h : Makes scopes kind taken operand outer)
    (hframe : operand.segment.last.frameEnd < UInt32.size)
    (htyped : ∀ piece ∈ taken, piece.Typed fun ty => ty.isWellFormed = true)
    (hscopes : scopes.Typed fun ty => ty.isWellFormed = true)
    (hstored : scopes.Stored literals scopes.frameSize.toNat) :
    scopes.frameSize.toNat ≤ outer.frameSize.toNat ∧
      outer.Stored literals outer.frameSize.toNat := by
  cases h with
  | @assign right ty segment name place size declared position hright hsize hdeclare =>
      have hty := Ty.kept_isWellFormed.close ((htyped right (by simp)).settle hscopes hright).1
      have hgrows := Scopes.frameSize_le_declare hdeclare
      have hinside : Binding.Stored literals outer.frameSize.toNat
          ⟨ty.close, .stack (scopes.allocate size).1⟩ :=
        Scopes.allocate_le_frameSize hty hsize hframe hdeclare
      refine ⟨hgrows, Scopes.Stored.declare ?_ hinside hdeclare⟩
      intro scope hscope
      rcases List.mem_cons.mp hscope with rfl | hscope
      · exact hstored.mono hgrows scopes.current (List.mem_cons_self ..)
      · exact hstored.mono hgrows scope (List.mem_cons_of_mem _ hscope)
  | blockEnd hsettle hleave =>
      rw [Scopes.frameSize_leave hleave]
      exact ⟨Nat.le_refl _, hstored.leave hleave⟩
  | _ => exact ⟨Nat.le_refl _, hstored⟩

-- Every piece runs in every frame that is large enough for the bindings so far.
structure Plan.Runs (literals : Pool) (library : Library) (allowed : Failure → Prop)
    (plan : Plan) : Prop where
  pieces : ∀ limit, plan.scopes.frameSize.toNat ≤ limit → ∀ piece ∈ plan.pieces,
    piece.Runs ⟨literals, library, limit, allowed⟩
  scopes : plan.scopes.Stored literals plan.scopes.frameSize.toNat

theorem Plan.Runs.step (hlenient : ∀ limit, Setting.Lenient ⟨literals, library, limit, allowed⟩)
    {plan next : Plan} (h : plan.Step next)
    (hmeasured : ∀ instruction ∈ next.code, instruction.Measured)
    (htyped : plan.Typed fun ty => ty.isWellFormed = true)
    (hplan : plan.Runs literals library allowed) : next.Runs literals library allowed := by
  cases h with
  | name text position pieces scopes =>
      exact ⟨fun limit hlimit => List.forall_mem_cons.mpr ⟨trivial, hplan.pieces limit hlimit⟩,
        hplan.scopes⟩
  | enter pieces scopes => exact ⟨hplan.pieces, hplan.scopes.enter⟩
  | @pipe value callee rest scopes ty segment size hvalue hsize =>
      simp only [Plan.code, codeOf, List.forall_mem_append, Piece.code, Operand.code,
        uniform_measured.code_iff] at hmeasured
      refine ⟨fun limit hlimit => ?_, hplan.scopes⟩
      have hpieces := hplan.pieces limit hlimit
      simp only [List.forall_mem_cons] at hpieces ⊢
      refine ⟨⟨?_, hpieces.1⟩, hpieces.2.2⟩
      exact hpieces.2.1.yields htyped.scopes (hplan.scopes.mono hlimit) hvalue hmeasured.2.1
  | @made kind taken rest scopes outer operand hmakes =>
      obtain ⟨htaken, -⟩ := List.forall_mem_append.mp htyped.pieces
      simp only [Plan.code, codeOf, List.forall_mem_append, Piece.code, Operand.code,
        uniform_measured.code_iff] at hmeasured
      obtain ⟨hgrows, hstored⟩ := hmakes.stored hmeasured.2.2.frame htaken htyped.scopes hplan.scopes
      refine ⟨fun limit hlimit => ?_, hstored⟩
      have hsmaller : scopes.frameSize.toNat ≤ limit := Nat.le_trans hgrows hlimit
      obtain ⟨hruns, hrest⟩ := List.forall_mem_append.mp (hplan.pieces limit hsmaller)
      refine List.forall_mem_cons.mpr ⟨?_, hrest⟩
      exact hmakes.runs (hlenient limit) hmeasured.2
        ⟨htaken, htyped.scopes, hruns, hplan.scopes.mono hsmaller⟩ hlimit

-- From the first plan to the last one. What holds of the last code held of all code.
theorem Plan.Runs.lasts
    (hlenient : ∀ limit, Setting.Lenient ⟨literals, library, limit, allowed⟩) {plan final : Plan}
    (h : Relation.ReflTransGen Plan.Step plan final)
    (hmeasured : ∀ instruction ∈ final.code, instruction.Measured)
    (htyped : plan.Typed fun ty => ty.isWellFormed = true)
    (hplan : plan.Runs literals library allowed) :
    (final.Typed fun ty => ty.isWellFormed = true) ∧ final.Runs literals library allowed := by
  induction h with
  | refl => exact ⟨htyped, hplan⟩
  | tail hsteps hstep ih =>
      obtain ⟨htyped, hplan⟩ := ih (hstep.forall_code uniform_measured hmeasured)
      refine ⟨htyped.step Ty.kept_isWellFormed hstep ?_, hplan.step hlenient hstep hmeasured htyped⟩
      exact fun instruction hmem => (hmeasured instruction hmem).indexable

-- The same for code that fits.
theorem Piece.Runs.settle {setting : Setting} {scopes : Scopes} {ty : Ty} {segment : Segment}
    {piece : Piece} (hpiece : piece.Runs setting)
    (htyped : scopes.Typed fun ty => ty.isWellFormed = true)
    (hstored : scopes.Stored setting.literals setting.limit)
    (h : piece.settle scopes = .ok (ty, segment)) (hfits : segment.All Instruction.Fits) :
    ∃ meaning, Yields setting segment ty.extent meaning :=
  hpiece.yields htyped hstored h
    ⟨fun instruction hmem => (hfits.1 instruction hmem).measured, hfits.2.measured⟩

theorem Plan.Runs.steps
    (hlenient : ∀ limit, Setting.Lenient ⟨literals, library, limit, allowed⟩) {plan final : Plan}
    (h : Relation.ReflTransGen Plan.Step plan final)
    (hfits : ∀ instruction ∈ final.code, instruction.Fits)
    (htyped : plan.Typed fun ty => ty.isWellFormed = true)
    (hplan : plan.Runs literals library allowed) :
    (final.Typed fun ty => ty.isWellFormed = true) ∧ final.Runs literals library allowed :=
  Plan.Runs.lasts hlenient h (fun instruction hmem => (hfits instruction hmem).measured) htyped hplan

end Plans

end Analysis

-- A native function gives a result for every argument of its type, and every type is well-formed.
structure Library.Sound (library : Library) : Prop where
  native : ∀ native ∈ library.natives, native.ty.isWellFormed = true ∧ native.ty.isFunc = true
  constant : ∀ constant ∈ library.constants, constant.ty.isWellFormed = true
  total : ∀ native ∈ library.natives, ∀ (argument : Bytes) (size : UInt32),
    (native.ty.argument?.bind Ty.size?).map UInt32.toNat = some argument.length →
    native.ty.result?.bind Ty.size? = some size → (native.run argument size.toNat).isSome = true

namespace Scopes

theorem stored_ofLibrary {library : Library} {scopes : Scopes} {literals : Pool}
    (hnative : ∀ native ∈ library.natives, native.ty.isWellFormed = true ∧ native.ty.isFunc = true)
    (hconstant : ∀ constant ∈ library.constants, constant.ty.isWellFormed = true)
    (h : ofLibrary library = .ok (scopes, literals)) : scopes.Stored literals 0 := by
  refine forall_ofLibrary (fun id native hmem => ?_) (fun constant row hmem hlies => ?_) h
  · exact Ty.extent_of_isFunc (hnative native hmem).1 (hnative native hmem).2
  · obtain ⟨front, back, hbytes, hstorage⟩ := hlies.storage
    have hsize := hlies.size
    have hoffset : (UInt32.ofNat front.length).toNat ≤ front.length := by
      rw [UInt32.toNat_ofNat']
      exact Nat.mod_le _ _
    rw [Ty.size?_eq_extent (hconstant constant hmem), Option.map_some, Option.some.injEq] at hsize
    simp only [Binding.Stored, hstorage, hlies.ty, hsize, hbytes, List.length_append]
    omega

end Scopes

namespace Analysis

private theorem lenient_fromHandle {library : Library} (hlibrary : library.Sound) (literals : Pool)
    (limit : Nat) : Setting.Lenient ⟨literals, library, limit, Failure.FromHandle⟩ := by
  constructor
  · exact fun handle => .inl ⟨handle, rfl⟩
  · exact fun name ty called count => .inr ⟨name, ty, called, count, rfl⟩
  · intro native hmem argument size hargument hsize hrun
    have htotal := hlibrary.total native hmem argument size hargument hsize
    rw [hrun] at htotal
    contradiction

-- The run of a segment that is followed by the last instruction.
theorem run_segment {setting : Setting} {segment : Segment} {ty : Ty} {meaning : Meaning}
    {position : Position} (hty : ty.isWellFormed = true) (hsize : ty.extent < 2147483648)
    (hallowed : ¬ setting.allowed (.plain .endedWithoutFinish))
    (hyields : Yields setting segment ty.extent meaning) {size : UInt32}
    (hlimit : size.toNat = setting.limit) :
    (Machine.run setting.literals setting.library 0 (.ofFrameSize size) (segment.code 0 ++
        [(⟨.finish, ty, [ty], .none, 0, position⟩ : Instruction)])).2 =
      (meaning (Bytes.zeros size.toNat)).map fun outcome => ⟨ty, outcome.1⟩ := by
  have hframe : (Bytes.zeros size.toNat).length = setting.limit :=
    (Bytes.length_zeros _).trans hlimit
  have hexec := hyields.prepares.exec _ [] hframe
  rw [← Store.ofFrameSize_eq] at hexec
  cases hmeaning : meaning (Bytes.zeros size.toNat) with
  | error failure =>
      rw [hmeaning] at hexec
      refine Machine.run_of_exec_error _ ?_ hexec
      rintro rfl
      exact hallowed (hyields.bounded.failure hframe hmeaning)
  | ok outcome =>
      obtain ⟨bytes, after⟩ := outcome
      rw [hmeaning] at hexec
      have hlength := (hyields.bounded.width hframe hmeaning).1
      have hpop := @Store.pop_append after [] bytes (UInt32.ofNat ty.extent)
        (by rw [Ty.toNat_size hsize, hlength])
      rw [Machine.run_of_exec_ok _ hexec]
      simp only [Machine.run, Machine.step, Ty.size?_eq_extent hty, inRange, ok_bind,
        Machine.finish, hpop, Store.height_laid]
      rfl

-- Programs that come out of tokens, well-formed or not, run to a value of the size of its type, or
-- up to a call whose handle is refused.
theorem run_compile {library : Library} {tokens : List Token} {program : Program}
    (hlibrary : library.Sound) (hcompile : (compile library tokens).2 = .ok program)
    (hfits : ∀ instruction ∈ program.instructions, instruction.Fits) :
    ∃ last, program.instructions.back? = some last ∧ last.op = .finish ∧
      ((∃ bytes, program.run library = .ok ⟨last.result, bytes⟩ ∧
        last.result.size?.map UInt32.toNat = some bytes.length) ∨
      ∃ failure, program.run library = .error failure ∧ failure.FromHandle) := by
  obtain ⟨scopes, literals, final, piece, ty, segment, position, hroot, hsteps, hpieces, hsettle,
    rfl⟩ := compile_eq_ok hcompile
  refine ⟨⟨.finish, ty, [ty], .none, 0, position⟩, by simp, rfl, ?_⟩
  simp only [List.mem_toArray, List.forall_mem_append, List.forall_mem_singleton,
    uniform_fits.code_iff] at hfits
  obtain ⟨hsegment, hlast⟩ := hfits
  have hcode := forall_code_of_settle uniform_fits hpieces hsettle hsegment
  have htyped : Plan.Typed (fun ty => ty.isWellFormed = true) ⟨[], scopes⟩ :=
    ⟨by simp, Scopes.typed_ofLibrary (fun native hmem => (hlibrary.native native hmem).1)
      hlibrary.constant hroot⟩
  have hruns : Plan.Runs literals library Failure.FromHandle ⟨[], scopes⟩ :=
    ⟨by simp, (Scopes.stored_ofLibrary hlibrary.native hlibrary.constant hroot).mono
      (Nat.zero_le _)⟩
  obtain ⟨htyped, hruns⟩ :=
    Plan.Runs.steps (lenient_fromHandle hlibrary literals) hsteps hcode htyped hruns
  have hmem : piece ∈ final.pieces := by simp [hpieces]
  have hty := ((htyped.pieces piece hmem).settle htyped.scopes hsettle).1
  obtain ⟨meaning, hyields⟩ := (hruns.pieces _ (Nat.le_refl _) piece hmem).settle htyped.scopes
    hruns.scopes hsettle hsegment
  have hframe := Bytes.length_zeros final.scopes.frameSize.toNat
  have hrun := @run_segment
    ⟨literals, library, final.scopes.frameSize.toNat, Failure.FromHandle⟩ segment ty meaning
    position hty hlast.result (by rintro (⟨_, h⟩ | ⟨_, _, _, _, h⟩) <;> cases h) hyields _ rfl
  cases hmeaning : meaning (Bytes.zeros final.scopes.frameSize.toNat) with
  | error failure =>
      rw [hmeaning] at hrun
      exact .inr ⟨failure, hrun, hyields.bounded.failure hframe hmeaning⟩
  | ok outcome =>
      rw [hmeaning] at hrun
      have hlength := (hyields.bounded.width hframe hmeaning).1
      refine .inl ⟨outcome.1, hrun, ?_⟩
      rw [Ty.size?_eq_extent hty, Option.map_some, Ty.toNat_size hlast.result, hlength]

end Analysis

-- A library with one function and one constant, and the tokens of `seven |> echo`.
def Library.echoing : Library :=
  ⟨[.ofFunction "echo" (.func (.ofPrimitive .i32) (.ofPrimitive .i32)) fun argument _ =>
      some argument],
    [⟨"seven", .ofPrimitive .i32, [7, 0, 0, 0]⟩]⟩

def Token.piping : List Token :=
  [⟨.name, .nullary, "seven", .start⟩, ⟨.name, .nullary, "echo", .start⟩,
    ⟨.pipe, .binary, "|>", .start⟩, ⟨.call, .leftUnary, "", .start⟩,
    ⟨.finish, .leftUnary, "", .start⟩]

def Program.piped : Program :=
  ⟨#[⟨.loadL, .ofPrimitive .i32, [], .literal 0, 8, .start⟩,
    ⟨.loadI, .func (.ofPrimitive .i32) (.ofPrimitive .i32), [], .native ⟨0⟩, -12, .start⟩,
    ⟨.call, .ofPrimitive .i32,
      [.func (.ofPrimitive .i32) (.ofPrimitive .i32), .ofPrimitive .i32], .none, 0, .start⟩,
    ⟨.finish, .ofPrimitive .i32, [.ofPrimitive .i32], .none, 0, .start⟩], ⟨[7, 0, 0, 0]⟩, 0⟩

end Sluice

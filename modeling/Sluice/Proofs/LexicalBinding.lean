import Mathlib
import Sluice.Proofs.Build
import Sluice.Proofs.Frames
import Sluice.Proofs.Occurrences
import Sluice.Proofs.Root
import Sluice.Proofs.StackLayout

namespace Sluice

namespace Instruction

-- The end of the frame bytes that an instruction reads or writes.
def slotEnd? (instruction : Instruction) : Option Nat :=
  match instruction.payload with
  | .stack offset => instruction.result.size?.map fun size => offset.toNat + size.toNat
  | _ => none

-- The frame does not wrap around at an instruction.
def InFrame (instruction : Instruction) : Prop :=
  ∀ finish ∈ instruction.slotEnd?, finish < UInt32.size

instance (instruction : Instruction) : Decidable instruction.InFrame :=
  inferInstanceAs (Decidable (∀ finish ∈ instruction.slotEnd?, finish < UInt32.size))

end Instruction

namespace Analysis

section Code

variable {code : List Instruction}

-- An instruction that has been emitted, and what is left of it at the end: a name has been resolved,
-- and anything else may only have been placed.
def Becomes (early final : Instruction) : Prop :=
  final.placed 0 = early.placed 0 ∨ early.op = .unresolved ∧ final.op ≠ .copy

-- A part of a program as it was at some time.
def Located (code : List Instruction) (start : Nat) (part : List Instruction) : Prop :=
  ∀ index early, part[index]? = some early →
    ∃ final, code[start + index]? = some final ∧ Becomes early final

theorem located_append {start : Nat} {first second : List Instruction} :
    Located code start (first ++ second) ↔
      Located code start first ∧ Located code (start + first.length) second := by
  constructor
  · intro h
    refine ⟨fun index early hearly => h index early ?_, fun index early hearly => ?_⟩
    · rw [List.getElem?_append_left (List.getElem?_eq_some_iff.mp hearly).1, hearly]
    · have hindex := h (first.length + index) early (by
        rw [List.getElem?_append_right (Nat.le_add_right ..), Nat.add_sub_cancel_left, hearly])
      rwa [← Nat.add_assoc] at hindex
  · rintro ⟨hfirst, hsecond⟩ index early hearly
    by_cases hindex : index < first.length
    · rw [List.getElem?_append_left hindex] at hearly
      exact hfirst index early hearly
    · rw [List.getElem?_append_right (Nat.le_of_not_lt hindex)] at hearly
      have hlocated := hsecond _ early hearly
      rwa [Nat.add_assoc, Nat.add_sub_of_le (Nat.le_of_not_lt hindex)] at hlocated

theorem located_singleton {start : Nat} {early : Instruction} :
    Located code start [early] ↔ ∃ final, code[start]? = some final ∧ Becomes early final := by
  constructor
  · intro h
    exact h 0 early rfl
  · rintro h (_ | index) other hother
    · cases hother
      exact h
    · simp at hother

-- The placement of a segment does not matter.
theorem located_code {start : Nat} {segment : Segment} (placement other : Int32) :
    Located code start (segment.code placement) ↔ Located code start (segment.code other) := by
  simp only [Segment.code, located_append, located_singleton, Becomes, Instruction.placed_placed,
    Instruction.placed_op]

theorem op_loadOf (storage : Storage) :
    (loadOf storage).1 ≠ .copy ∧ (loadOf storage).1 ≠ .unresolved := by
  cases storage <;> simp [loadOf]

end Code

end Analysis

namespace Scopes

-- What a name stands for in a role.
def select (scopes : Scopes) (role : Role) (name : String) : Option Binding :=
  match role with
  | .plain => scopes.lookup name
  | .callee argument => scopes.lookupMatching name (.func .undecided argument)

-- Both ways of looking a name up search the scopes from the inside out.
theorem select_eq (scopes : Scopes) (role : Role) (name : String) :
    scopes.select role name = (scopes.chain.findSome? fun scope => scope.bindings.find? fun entry =>
      entry.1 = name && role.accepts entry.2.ty).map Prod.snd := by
  rw [List.map_findSome?]
  cases role with
  | plain =>
      simp only [select, lookup, Scope.overloads, Role.accepts, Bool.and_true, List.head?_map,
        List.head?_filter]
      rfl
  | callee argument =>
      simp only [select, lookupMatching, Scope.overloads, Role.accepts, List.find?_map,
        List.find?_filter]
      congr 1
      funext scope
      congr 1
      congr 1
      funext entry
      simp [Function.comp]

end Scopes

namespace Analysis

-- An operand whose code is the segment when it is taken in a role.
def Operand.Settles (operand : Operand) (scopes : Scopes) (role : Role) (segment : Segment) : Prop :=
  match operand with
  | .value _ code => segment = code
  | .name text position =>
      ∃ binding, scopes.select role text = some binding ∧ segment = loading binding position

theorem Operand.settles_of_settle {operand : Operand} {scopes : Scopes} {ty : Ty} {segment : Segment}
    (h : operand.settle scopes = .ok (ty, segment)) : operand.Settles scopes .plain segment := by
  cases operand with
  | value valueTy code =>
      cases h
      rfl
  | name text position =>
      simp only [settle] at h
      split at h
      · contradiction
      · rename_i binding hlookup
        cases h
        exact ⟨binding, hlookup, rfl⟩

theorem Operand.settles_of_settleCallee {operand : Operand} {scopes : Scopes} {argument ty : Ty}
    {position : Position} {segment : Segment}
    (h : operand.settleCallee scopes argument position = .ok (ty, segment)) :
    operand.Settles scopes (.callee argument) segment := by
  cases operand with
  | value valueTy code => exact (eq_of_settleCallee_value h).2.1
  | name text place =>
      simp only [settleCallee] at h
      split at h
      · contradiction
      · rename_i binding hlookup
        cases h
        exact ⟨binding, hlookup, rfl⟩

-- A name that is taken was a placeholder in the same place.
theorem Located.of_settles {code : List Instruction} {start : Nat} {operand : Operand}
    {scopes : Scopes} {role : Role} {segment : Segment} {placement : Int32}
    (h : Located code start (segment.code placement)) (hsettles : operand.Settles scopes role segment) :
    Located code start (operand.code 0) ∧ (operand.code 0).length = (segment.code placement).length := by
  cases operand with
  | value ty valueCode =>
      cases hsettles
      exact ⟨(located_code placement 0).mp h, by simp [Operand.code, Operand.segment, Segment.code]⟩
  | name text position =>
      obtain ⟨binding, -, rfl⟩ := hsettles
      obtain ⟨final, hfinal, hbecomes⟩ := located_singleton.mp h
      refine ⟨located_singleton.mpr ⟨final, hfinal, .inr ⟨rfl, ?_⟩⟩, rfl⟩
      rcases hbecomes with hsame | ⟨-, hop⟩
      · have hop := congrArg Instruction.op hsame
        exact hop ▸ (op_loadOf binding.storage).1
      · exact hop

section Slots

variable (code : List Instruction)

-- An assignment wrote a value of the type into the slot.
def CopyAt (index : Nat) (offset : UInt32) (ty : Ty) : Prop :=
  ∃ copy, code[index]? = some copy ∧ copy.op = .copy ∧ copy.payload = .stack offset ∧
    copy.result = ty

-- Every COPY of a stretch of code stays out of some bytes.
def Spares (bytes : Nat → Prop) (start finish : Nat) : Prop :=
  ∀ index copy, start ≤ index → index < finish → code[index]? = some copy → copy.op = .copy →
    ∀ byte, copy.Touches byte → ¬ bytes byte

-- An origin and a binding are about the same value. The slot of the value lies below `bound`, and
-- nothing up to `limit` has been written into it since.
structure Tells (limit bound : Nat) (origin : Origin) (binding : Binding) : Prop where
  ty : origin.ty = binding.ty
  copied : ∀ index, origin.copy = some index → ∃ offset, binding.storage = .stack offset ∧
    index < limit ∧ CopyAt code index offset binding.ty ∧
    (∀ byte, binding.ty.Slot offset byte → byte < bound) ∧
    Spares code (binding.ty.Slot offset) (index + 1) limit
  offered : origin.copy = none → ∀ offset, binding.storage ≠ .stack offset

def Shows (limit : Nat) (names : List (String × Origin)) (scope : Scope) : Prop :=
  List.Forall₂ (fun entry bound => entry.1 = bound.1 ∧
    Tells code limit scope.frame.offset.toNat entry.2 bound.2) names scope.bindings

-- The names that can be seen at a place are those of the scopes. The slots of an inner scope lie
-- above those of the scopes around it.
structure Mirrors (place : Place) (scopes : Scopes) : Prop where
  chain : List.Forall₂ (Shows code place.index) place.chain scopes.chain
  frames : scopes.chain.Pairwise fun inner outer =>
    outer.frame.offset.toNat ≤ inner.frame.offset.toNat

end Slots

section Mirroring

variable {code : List Instruction} {place : Place} {scopes : Scopes}

theorem Spares.append {bytes : Nat → Prop} {start middle finish : Nat}
    (hfirst : Spares code bytes start middle) (hsecond : Spares code bytes middle finish) :
    Spares code bytes start finish := by
  intro index copy hstart hfinish
  by_cases hindex : index < middle
  · exact hfirst index copy hstart hindex
  · exact hsecond index copy (Nat.le_of_not_lt hindex) hfinish

theorem Spares.mono {bytes : Nat → Prop} {start finish first last : Nat}
    (h : Spares code bytes start finish) (hfirst : start ≤ first) (hlast : last ≤ finish) :
    Spares code bytes first last :=
  fun index copy hindex hbehind => h index copy (hfirst.trans hindex) (hbehind.trans_le hlast)

theorem Tells.advance {limit later bound : Nat} {origin : Origin} {binding : Binding}
    (h : Tells code limit bound origin binding) (hlimit : limit ≤ later)
    (hspares : Spares code (· < bound) limit later) : Tells code later bound origin binding := by
  refine ⟨h.ty, fun index hindex => ?_, h.offered⟩
  obtain ⟨offset, hstorage, hbelow, hcopy, hbound, hspared⟩ := h.copied index hindex
  refine ⟨offset, hstorage, hbelow.trans_le hlimit, hcopy, hbound, hspared.append ?_⟩
  intro other copy hstart hfinish hother hop byte htouches hslot
  exact hspares other copy hstart hfinish hother hop byte htouches (hbound byte hslot)

theorem Tells.widen {limit bound wider : Nat} {origin : Origin} {binding : Binding}
    (h : Tells code limit bound origin binding) (hbound : bound ≤ wider) :
    Tells code limit wider origin binding := by
  refine ⟨h.ty, fun index hindex => ?_, h.offered⟩
  obtain ⟨offset, hstorage, hbelow, hcopy, hslot, hspares⟩ := h.copied index hindex
  exact ⟨offset, hstorage, hbelow, hcopy, fun byte hbyte => (hslot byte hbyte).trans_le hbound,
    hspares⟩

-- More instructions, none of which writes below the end of the innermost frame.
theorem Mirrors.advance {later : Nat} (h : Mirrors code place scopes) (hlater : place.index ≤ later)
    (hspares : Spares code (· < scopes.current.frame.offset.toNat) place.index later) :
    Mirrors code { place with index := later } scopes := by
  refine ⟨?_, h.frames⟩
  have hbelow : ∀ scope ∈ scopes.chain,
      scope.frame.offset.toNat ≤ scopes.current.frame.offset.toNat := by
    intro scope hscope
    rcases List.mem_cons.mp hscope with rfl | hscope
    · exact Nat.le_refl _
    · exact (List.pairwise_cons.mp h.frames).1 scope hscope
  refine forall₂_imp_mem h.chain fun names scope hscope hshows => hshows.imp ?_
  rintro entry bound ⟨hname, htells⟩
  refine ⟨hname, htells.advance hlater fun index copy hstart hfinish hcopy hop byte htouches => ?_⟩
  have hspared := hspares index copy hstart hfinish hcopy hop byte htouches
  have hframe := hbelow scope hscope
  omega

theorem Mirrors.next (h : Mirrors code place scopes) {final : Instruction}
    (hfinal : code[place.index]? = some final) (hop : final.op ≠ .copy) :
    Mirrors code place.next scopes := by
  refine h.advance (Nat.le_succ _) fun index copy hstart hfinish hcopy hcopyOp => ?_
  have hindex : index = place.index := by omega
  rw [hindex, hfinal] at hcopy
  cases hcopy
  exact absurd hcopyOp hop

theorem Mirrors.enter (h : Mirrors code place scopes) : Mirrors code place.enter scopes.enter := by
  refine ⟨.cons .nil h.chain, List.pairwise_cons.mpr ⟨fun scope hscope => ?_, h.frames⟩⟩
  rcases List.mem_cons.mp hscope with rfl | hscope
  · exact Nat.le_refl _
  · exact (List.pairwise_cons.mp h.frames).1 scope hscope

theorem Mirrors.leave {outer : Scopes} (h : Mirrors code place scopes)
    (hleave : scopes.leave = .ok outer) : Mirrors code place.leave outer := by
  obtain ⟨current, around, frameSize⟩ := scopes
  obtain ⟨index, names, namesAround⟩ := place
  cases around with
  | nil => contradiction
  | cons scope around =>
      cases hleave
      have hchain := h.chain
      simp only [Place.chain, Scopes.chain] at hchain
      cases hchain with
      | cons hfirst hrest =>
          cases hrest with
          | cons hscope hrest =>
              exact ⟨.cons hscope hrest, (List.pairwise_cons.mp h.frames).2⟩

-- An assignment. Its slot begins where the innermost frame ends.
theorem Mirrors.bind {name : String} {ty : Ty} {size : UInt32} {position : Position}
    {declared : Scopes} (h : Mirrors code place scopes) (hsize : ty.size? = some size)
    (hcopy : CopyAt code place.index scopes.current.frame.offset ty)
    (hframe : scopes.current.frame.offset.toNat + size.toNat < UInt32.size)
    (hdeclare : (scopes.allocate size).2.declare name
      ⟨ty, .stack (scopes.allocate size).1⟩ position = .ok declared) :
    Mirrors code (place.bind name ty) declared := by
  obtain ⟨-, rfl⟩ := Scopes.declare_eq_ok hdeclare
  have hend : (scopes.current.frame.offset + size).toNat =
      scopes.current.frame.offset.toNat + size.toNat := by
    rw [UInt32.toNat_add, Nat.mod_eq_of_lt hframe]
  have hslot : ∀ byte, ty.Slot scopes.current.frame.offset byte →
      scopes.current.frame.offset.toNat ≤ byte ∧
        byte < scopes.current.frame.offset.toNat + size.toNat := by
    rintro byte ⟨found, hfound, hbyte⟩
    cases hsize.symm.trans hfound
    exact hbyte
  have hspares : Spares code (· < scopes.current.frame.offset.toNat) place.index
      (place.index + 1) := by
    rintro index copy hstart hfinish hother hop byte ⟨offset, hpayload, hbyte⟩ hlow
    have hindex : index = place.index := by omega
    obtain ⟨found, hfound, -, hstack, hresult⟩ := hcopy
    rw [hindex, hfound] at hother
    cases hother
    rw [hstack] at hpayload
    cases hpayload
    exact absurd hlow (Nat.not_lt.mpr (hslot byte (hresult ▸ hbyte)).1)
  have hadvance := h.advance (Nat.le_succ _) hspares
  have hchain := hadvance.chain
  simp only [Place.chain, Scopes.chain] at hchain
  cases hchain with
  | cons hfirst hrest =>
      constructor
      · refine .cons (List.rel_append (hfirst.imp ?_) (.cons ⟨rfl, rfl, ?_, by simp⟩ .nil)) hrest
        · rintro entry bound ⟨hname, htells⟩
          refine ⟨hname, htells.widen ?_⟩
          simp only [Scopes.allocate, Frame.allocate, hend]
          omega
        · rintro index hindex
          cases hindex
          refine ⟨_, rfl, Nat.lt_succ_self _, hcopy, fun byte hbyte => ?_, ?_⟩
          · simp only [Scopes.allocate, Frame.allocate, hend]
            exact (hslot byte hbyte).2
          · intro index copy hstart hfinish
            simp only [Place.bind] at hfinish
            omega
      · refine List.pairwise_cons.mpr ⟨fun scope hscope => ?_, (List.pairwise_cons.mp h.frames).2⟩
        have hbelow := (List.pairwise_cons.mp h.frames).1 scope hscope
        simp only [Scopes.allocate, Frame.allocate, hend]
        omega

-- A name that is looked up is found in the text, too.
theorem Mirrors.found (h : Mirrors code place scopes) {use : Use} {binding : Binding}
    (hselect : scopes.select use.role use.name = some binding) :
    ∃ origin bound, use.found place = some origin ∧ Tells code place.index bound origin binding := by
  have hscope : ∀ names scope, Shows code place.index names scope →
      Option.Rel (fun (entry : String × Origin) (bound : String × Binding) =>
          entry.1 = bound.1 ∧ ∃ height, Tells code place.index height entry.2 bound.2)
        (names.find? use.accepts) (scope.bindings.find? fun entry =>
          entry.1 = use.name && use.role.accepts entry.2.ty) := by
    intro names scope hshows
    refine rel_find? (hshows.imp fun entry bound hboth => ⟨hboth.1, _, hboth.2⟩) ?_
    rintro entry bound ⟨hname, height, htells⟩
    simp only [Use.accepts, hname, htells.ty]
  have hchain := rel_findSome? h.chain hscope
  rw [Scopes.select_eq] at hselect
  obtain ⟨bound, hbound, rfl⟩ := Option.map_eq_some_iff.mp hselect
  rw [hbound] at hchain
  cases hfound : place.chain.findSome? fun names => names.find? use.accepts with
  | none =>
      rw [hfound] at hchain
      cases hchain
  | some entry =>
      rw [hfound] at hchain
      cases hchain with
      | some htells =>
          obtain ⟨-, height, htells⟩ := htells
          exact ⟨entry.2, height, by rw [Use.found, hfound]; rfl, htells⟩

theorem Mirrors.tells (h : Mirrors code place scopes) {entry : String × Origin}
    (hsees : place.Sees entry) : ∃ binding bound, Tells code place.index bound entry.2 binding := by
  obtain ⟨names, hnames, hentry⟩ := hsees
  obtain ⟨scope, -, hshows⟩ := exists_of_mem_left h.chain hnames
  obtain ⟨bound, -, -, htells⟩ := exists_of_mem_left hshows hentry
  exact ⟨bound.2, _, htells⟩

-- What can be said of a LOAD: the use of its name, and the COPY that fills its slot. The COPY comes
-- first exactly if it is the one that is in force where the name is written.
structure Explains (code : List Instruction) (use : Use) (index : Nat) (load : Instruction) :
    Prop where
  written : use.before.index = index
  position : use.position = load.position
  copied : ∃ offset copy, load.payload = .stack offset ∧
    use.found use.after = some ⟨load.result, some copy⟩ ∧ CopyAt code copy offset load.result ∧
    (copy < index → use.found use.before = some ⟨load.result, some copy⟩ ∧
      Spares code (load.result.Slot offset) (copy + 1) index) ∧
    ∀ other, use.found use.before = some ⟨load.result, some other⟩ →
      CopyAt code other offset load.result → (∃ byte, load.result.Slot offset byte) →
      other = copy ∧ other < index

theorem CopyAt.unique {index : Nat} {offset other : UInt32} {ty otherTy : Ty}
    (h : CopyAt code index offset ty) (hother : CopyAt code index other otherTy) :
    offset = other ∧ ty = otherTy := by
  obtain ⟨copy, hcopy, -, hpayload, rfl⟩ := h
  obtain ⟨found, hfound, -, hpayload', rfl⟩ := hother
  cases hcopy.symm.trans hfound
  exact ⟨by simpa using hpayload.symm.trans hpayload', rfl⟩

-- A COPY of a slot is not spared by it.
theorem CopyAt.lt_of_spares {offset : UInt32} {ty : Ty} {index start limit byte : Nat}
    (h : CopyAt code index offset ty) (hslot : ty.Slot offset byte)
    (hspares : Spares code (ty.Slot offset) start limit) (hlimit : index < limit) :
    index < start := by
  by_contra hstart
  obtain ⟨copy, hcopy, hop, hpayload, hresult⟩ := h
  exact hspares index copy (Nat.le_of_not_lt hstart) hlimit hcopy hop byte
    ⟨offset, hpayload, hresult ▸ hslot⟩ hslot

-- A name that is taken when the scopes are those of a later place of the same block.
theorem Mirrors.explains {written : Scopes} {use : Use} {binding : Binding} {load : Instruction}
    (hbefore : Mirrors code use.before written) (hafter : Mirrors code use.after scopes)
    (hextends : use.before.Extends use.after)
    (hselect : scopes.select use.role use.name = some binding)
    (hload : load.placed 0 = (Operand.loading binding use.position).last.placed 0)
    (hop : load.op = .load) : Explains code use use.before.index load := by
  have hposition := congrArg Instruction.position hload
  have hresult : load.result = binding.ty := congrArg Instruction.result hload
  have hloadOp : load.op = (loadOf binding.storage).1 := congrArg Instruction.op hload
  have hpayload : load.payload = (loadOf binding.storage).2 := congrArg Instruction.payload hload
  obtain ⟨⟨ty, copy⟩, bound, hfound, htells⟩ := hafter.found hselect
  cases copy with
  | none =>
      have hstorage := htells.offered rfl
      cases hstore : binding.storage with
      | stack offset => exact absurd hstore (hstorage offset)
      | immediate value => simp [hloadOp, hstore, loadOf] at hop
      | pool offset => simp [hloadOp, hstore, loadOf] at hop
      | native id => simp [hloadOp, hstore, loadOf] at hop
  | some copy =>
      obtain ⟨offset, hstorage, hlimit, hcopy, -, hspares⟩ := htells.copied copy rfl
      obtain rfl : ty = binding.ty := htells.ty
      rw [hstorage] at hpayload
      rw [← hresult] at hcopy hspares hfound
      refine ⟨rfl, hposition.symm, offset, copy, hpayload, hfound, hcopy, fun hindex => ?_, ?_⟩
      · exact ⟨hextends.found_eq hfound hindex, hspares.mono (Nat.le_refl _) hextends.index⟩
      · rintro other hother hcopyOther ⟨byte, hbyte⟩
        obtain ⟨name, hsees⟩ := Place.sees_of_found hother
        obtain ⟨found, height, hwritten⟩ := hbefore.tells hsees
        obtain ⟨-, -, hindex, -⟩ := hwritten.copied other rfl
        obtain ⟨found, height, hlater⟩ := hafter.tells (hextends.sees hsees)
        obtain ⟨place, -, hbelow, hcopied, -, hspared⟩ := hlater.copied other rfl
        obtain ⟨rfl, hty⟩ := hcopied.unique hcopyOther
        rw [hty] at hspared
        have hfirst := hcopy.lt_of_spares hbyte hspared hlimit
        have hsecond := hcopyOther.lt_of_spares hbyte hspares hbelow
        exact ⟨by omega, hindex⟩

end Mirroring

section Walk

variable (code : List Instruction)

-- All LOADs of a stretch of code have one of the uses.
def Explained (uses : List Use) (start finish : Nat) : Prop :=
  ∀ index load, start ≤ index → index < finish → code[index]? = some load → load.op = .load →
    ∃ use ∈ uses, Explains code use index load

-- The name that an operand still is.
def Operand.name? : Operand → Option (String × Position)
  | .value _ _ => none
  | .name text position => some (text, position)

-- An expression that has been built where the text goes on from `place`.
structure Tracks (expr : Expr) (place : Place) (operand : Operand) (scopes : Scopes) : Prop where
  index : (expr.after code place).index = place.index + (operand.code 0).length
  mirrors : Mirrors code (expr.after code place) scopes
  bare : expr.bare? = operand.name?
  explained : expr.bare? = none →
    Explained code (expr.uses code place) place.index (expr.after code place).index

def Tracked (expr : Expr) : Prop :=
  ∀ {place : Place} {scopes outer : Scopes} {operand : Operand},
    expr.build scopes = .ok (operand, outer) → Mirrors code place scopes →
    Located code place.index (operand.code 0) → Tracks code expr place operand outer

variable {code}

theorem Explained.append {first second : List Use} {start middle finish : Nat}
    (hfirst : Explained code first start middle) (hsecond : Explained code second middle finish) :
    Explained code (first ++ second) start finish := by
  intro index load hstart hfinish hload hop
  by_cases hindex : index < middle
  · obtain ⟨use, hmem, huse⟩ := hfirst index load hstart hindex hload hop
    exact ⟨use, List.mem_append_left _ hmem, huse⟩
  · obtain ⟨use, hmem, huse⟩ := hsecond index load (Nat.le_of_not_lt hindex) hfinish hload hop
    exact ⟨use, List.mem_append_right _ hmem, huse⟩

theorem Explained.mono {first second : List Use} {start finish : Nat}
    (h : Explained code first start finish) (hsubset : first ⊆ second) :
    Explained code second start finish := by
  intro index load hstart hfinish hload hop
  obtain ⟨use, hmem, huse⟩ := h index load hstart hfinish hload hop
  exact ⟨use, hsubset hmem, huse⟩

theorem explained_single {index : Nat} {final : Instruction} (hfinal : code[index]? = some final)
    (hop : final.op ≠ .load) : Explained code [] index (index + 1) := by
  intro other load hstart hfinish hload hload'
  have hother : other = index := by omega
  rw [hother, hfinal] at hload
  cases hload
  exact absurd hload' hop

-- The sign that takes an operand explains the name, if the operand is one.
theorem Tracks.taken {expr : Expr} {place later : Place} {operand : Operand}
    {written built scopes : Scopes} {role : Role} {segment : Segment} {placement : Int32}
    (h : Tracks code expr place operand built) (hbefore : Mirrors code place written)
    (hafter : Mirrors code later scopes) (hextends : place.Extends later)
    (hsettles : operand.Settles scopes role segment)
    (hlocated : Located code place.index (segment.code placement)) :
    Explained code (expr.uses code place ++ expr.taken role place later) place.index
      (expr.after code place).index := by
  cases operand with
  | value ty valueCode =>
      exact (h.explained h.bare).mono (List.subset_append_left _ _)
  | name text position =>
      have hbare : expr.bare? = some (text, position) := h.bare
      obtain ⟨binding, hselect, rfl⟩ := hsettles
      obtain ⟨final, hfinal, hbecomes⟩ := located_singleton.mp hlocated
      have hlength : (expr.after code place).index = place.index + 1 := h.index
      intro index load hstart hfinish hload hop
      have hindex : index = place.index := by omega
      rw [hindex, hfinal] at hload
      cases hload
      have hloading : final.placed 0 = (Operand.loading binding position).last.placed 0 := by
        rcases hbecomes with hsame | ⟨hunresolved, -⟩
        · rw [hsame, Instruction.placed_placed]
        · exact absurd hunresolved (op_loadOf binding.storage).2
      refine ⟨⟨text, position, role, place, later⟩, ?_, ?_⟩
      · rw [Expr.taken, hbare]
        simp
      · rw [hindex]
        exact @Mirrors.explains code scopes written ⟨text, position, role, place, later⟩ binding
          final hbefore hafter hextends hselect hloading hop

-- Instructions that neither read nor write the frame.
def Quiet (op : Op) : Prop := op ≠ .load ∧ op ≠ .copy ∧ op ≠ .unresolved

-- The code of a sign that reads and writes no frame bytes.
theorem located_made {start : Nat} {before : List Instruction} {op : Op} {result : Ty}
    {operands : List Ty} {payload : Payload} {position : Position}
    (h : Located code start ((Operand.made before op result operands payload position).code 0))
    (hquiet : Quiet op) : Located code start before ∧
      ∃ final, code[start + before.length]? = some final ∧ final.operands = operands ∧
        Quiet final.op := by
  obtain ⟨hbefore, hlast⟩ := located_append.mp h
  obtain ⟨final, hfinal, hsame | ⟨hunresolved, -⟩⟩ := located_singleton.mp hlast
  · have hop : final.op = op := congrArg Instruction.op hsame
    have hoperands : final.operands = operands := congrArg Instruction.operands hsame
    exact ⟨hbefore, final, hfinal, hoperands, hop ▸ hquiet⟩
  · exact absurd hunresolved hquiet.2.2

-- Two operands that a sign takes.
theorem Tracked.pair {first second : Expr} {place : Place} {scopes middle built : Scopes}
    {left right : Operand} {leftRole rightRole : Role} {leftSegment rightSegment : Segment}
    {leftPlacement rightPlacement : Int32} (hfirst : Tracked code first)
    (hsecond : Tracked code second) (hplace : Mirrors code place scopes)
    (hleft : first.build scopes = .ok (left, middle))
    (hright : second.build middle = .ok (right, built))
    (hsettleLeft : left.Settles built leftRole leftSegment)
    (hsettleRight : right.Settles built rightRole rightSegment)
    (hlocated : Located code place.index
      (leftSegment.code leftPlacement ++ rightSegment.code rightPlacement)) :
    let later := second.after code (first.after code place)
    later.index = place.index +
        (leftSegment.code leftPlacement ++ rightSegment.code rightPlacement).length ∧
      Mirrors code later built ∧
      Explained code (first.uses code place ++ second.uses code (first.after code place) ++
        first.taken leftRole place later ++ second.taken rightRole (first.after code place) later)
        place.index later.index := by
  intro later
  obtain ⟨hlocatedLeft, hlocatedRight⟩ := located_append.mp hlocated
  obtain ⟨hpartLeft, hlengthLeft⟩ := hlocatedLeft.of_settles hsettleLeft
  have htracksLeft := hfirst hleft hplace hpartLeft
  have hmiddle := htracksLeft.index
  rw [hlengthLeft] at hmiddle
  rw [← hmiddle] at hlocatedRight
  obtain ⟨hpartRight, hlengthRight⟩ := hlocatedRight.of_settles hsettleRight
  have htracksRight := hsecond hright htracksLeft.mirrors hpartRight
  have hextends := second.extends_after code (first.after code place)
  refine ⟨?_, htracksRight.mirrors, ?_⟩
  · rw [htracksRight.index, hlengthRight, hmiddle, List.length_append, Nat.add_assoc]
  · have hexplainedLeft := htracksLeft.taken hplace htracksRight.mirrors
      ((first.extends_after code place).trans hextends) hsettleLeft hlocatedLeft
    have hexplainedRight := htracksRight.taken htracksLeft.mirrors htracksRight.mirrors hextends
      hsettleRight hlocatedRight
    refine (hexplainedLeft.append hexplainedRight).mono fun use hmem => ?_
    simp only [List.mem_append] at hmem ⊢
    tauto

-- A sign that only leaves a quiet instruction behind its operands.
theorem Tracks.of_last {expr : Expr} {place later : Place} {ty : Ty} {init : List Instruction}
    {last final : Instruction} {scopes : Scopes} {uses : List Use}
    (hindex : later.index = place.index + init.length) (hmirrors : Mirrors code later scopes)
    (hexplained : Explained code uses place.index later.index)
    (hfinal : code[later.index]? = some final) (hquiet : Quiet final.op)
    (hafter : expr.after code place = later.next) (hbare : expr.bare? = none)
    (huses : uses ⊆ expr.uses code place) : Tracks code expr place (.value ty ⟨init, last⟩) scopes := by
  refine ⟨?_, ?_, hbare, fun _ => ?_⟩
  · simp only [hafter, Place.next, hindex, Operand.code, Operand.segment, Segment.code,
      List.length_append, List.length_singleton, Nat.add_assoc]
  · rw [hafter]
    exact hmirrors.next hfinal hquiet.2.1
  · rw [hafter]
    have hlast := hexplained.append (explained_single hfinal hquiet.1)
    exact hlast.mono (by simpa using huses)

-- One operand that a sign takes.
theorem Tracked.one {expr : Expr} {place : Place} {scopes built : Scopes} {operand : Operand}
    {role : Role} {segment : Segment} {placement : Int32} (hexpr : Tracked code expr)
    (hplace : Mirrors code place scopes) (hbuild : expr.build scopes = .ok (operand, built))
    (hsettle : operand.Settles built role segment)
    (hlocated : Located code place.index (segment.code placement)) :
    (expr.after code place).index = place.index + (segment.code placement).length ∧
      Mirrors code (expr.after code place) built ∧
      Explained code (expr.uses code place ++ expr.taken role place (expr.after code place))
        place.index (expr.after code place).index := by
  obtain ⟨hpart, hlength⟩ := hlocated.of_settles hsettle
  have htracks := hexpr hbuild hplace hpart
  exact ⟨hlength ▸ htracks.index, htracks.mirrors, htracks.taken hplace htracks.mirrors
    (expr.extends_after code place) hsettle hlocated⟩

theorem tracked_number (text : String) (position : Position) :
    Tracked code (.number text position) := by
  intro place scopes outer operand hbuild hplace hlocated
  have hnone : Explained code [] place.index place.index := fun _ _ _ _ => by omega
  have hmakes := Makes.of_number hbuild
  cases hmakes with
  | int _ hleast hgreatest =>
      obtain ⟨-, final, hfinal, -, hquiet⟩ := located_made hlocated (by simp [Quiet])
      exact .of_last rfl hplace hnone hfinal hquiet rfl rfl (List.nil_subset _)
  | float bits _ =>
      obtain ⟨-, final, hfinal, -, hquiet⟩ := located_made hlocated (by simp [Quiet])
      exact .of_last rfl hplace hnone hfinal hquiet rfl rfl (List.nil_subset _)

theorem tracked_name (text : String) (position : Position) : Tracked code (.name text position) := by
  intro place scopes outer operand hbuild hplace hlocated
  cases hbuild
  obtain ⟨final, hfinal, hbecomes⟩ := located_singleton.mp hlocated
  have hop : final.op ≠ .copy := by
    rcases hbecomes with hsame | ⟨-, hop⟩
    · have hop := congrArg Instruction.op hsame
      simp only [Instruction.placed_op] at hop
      rw [hop]
      simp [Operand.segment, Instruction.placeholder]
    · exact hop
  exact ⟨rfl, hplace.next hfinal hop, rfl, fun hbare => by cases hbare⟩

theorem tracked_negate {operand : Expr} (position : Position) (hoperand : Tracked code operand) :
    Tracked code (.negate operand position) := by
  intro place scopes outer result hbuild hplace hlocated
  obtain ⟨built, middle, hbuilt, hnegate⟩ := Expr.build_negate hbuild
  have hmakes := Makes.of_negate hnegate
  cases hmakes with
  | negate _ hsettle hnumeric =>
      obtain ⟨hinit, final, hfinal, -, hquiet⟩ := located_made hlocated (by simp [Quiet])
      obtain ⟨hindex, hmirrors, hexplained⟩ :=
        hoperand.one hplace hbuilt (Operand.settles_of_settle hsettle) hinit
      rw [← hindex] at hfinal
      exact .of_last hindex hmirrors hexplained hfinal hquiet rfl rfl (List.Subset.refl _)

-- The name of an assignment or of a member stays as an instruction that does nothing.
theorem located_spent {start : Nat} {text : String} {position : Position} {ty : Ty}
    (h : Located code start [Piece.spent text position ty]) :
    ∃ final, code[start]? = some final ∧ final.op = .nop := by
  obtain ⟨final, hfinal, hsame | ⟨hunresolved, -⟩⟩ := located_singleton.mp h
  · exact ⟨final, hfinal, congrArg Instruction.op hsame⟩
  · cases hunresolved

theorem tracked_assign {left right : Expr} (position : Position)
    (hframe : ∀ instruction ∈ code, instruction.InFrame) (hleft : Tracked code left)
    (hright : Tracked code right) : Tracked code (.binary .assign left right position) := by
  intro place scopes outer operand hbuild hplace hlocated
  obtain ⟨target, middle, value, built, htarget, hvalue, hassign⟩ := Expr.build_binary hbuild
  have hmakes := Expr.makes_of_sign hassign
  cases hmakes with
  | arithmetic op _ hop => cases hop
  | @assign _ ty segment name written size declared _ hsettle hsize hdeclare =>
      obtain ⟨hinit, hlast⟩ := located_append.mp hlocated
      obtain ⟨hspent, hsegment⟩ := (@located_append code place.index [_] (segment.code 0)).mp hinit
      obtain ⟨unused, hunused, hnop⟩ := located_spent hspent
      have htracks := hleft htarget hplace
        (located_singleton.mpr ⟨unused, hunused, .inr ⟨rfl, by rw [hnop]; simp⟩⟩)
      have hmiddle : (left.after code place).index = place.index + 1 := htracks.index
      have hsettles := Operand.settles_of_settle hsettle
      rw [List.length_singleton, ← hmiddle] at hsegment
      obtain ⟨hindex, hmirrors, hexplained⟩ := hright.one htracks.mirrors hvalue hsettles hsegment
      have hlater : (right.after code (left.after code place)).index =
          place.index + (segment.code 0).length + 1 := by omega
      obtain ⟨final, hfinal, hsame | ⟨hunresolved, -⟩⟩ := located_singleton.mp hlast
      · have hop : final.op = .copy := congrArg Instruction.op hsame
        have hpayload : final.payload = .stack built.current.frame.offset :=
          congrArg Instruction.payload hsame
        have hresult : final.result = ty.close := congrArg Instruction.result hsame
        have hbare : left.bare? = some (name, written) := htracks.bare
        simp only [Operand.made, Operand.segment, List.length_cons] at hfinal
        rw [← Nat.add_assoc, ← hlater] at hfinal
        have hcopy : CopyAt code (right.after code (left.after code place)).index
            built.current.frame.offset ty.close := ⟨final, hfinal, hop, hpayload, hresult⟩
        have hend := hframe final (List.mem_of_getElem? hfinal)
          (built.current.frame.offset.toNat + size.toNat)
          (by simp [Instruction.slotEnd?, hpayload, hresult, hsize])
        have hafter : Expr.after code (.binary .assign left right position) place =
            (right.after code (left.after code place)).bind name ty.close := by
          simp [Expr.after, hbare, Expr.typeAt, hfinal, hresult]
        refine ⟨?_, ?_, rfl, fun _ => ?_⟩
        · simp only [hafter, Place.bind, hlater, Operand.made, Operand.code, Operand.segment,
            Segment.code, List.length_append, List.length_cons, List.length_nil]
          omega
        · rw [hafter]
          exact hmirrors.bind hsize hcopy hend hdeclare
        · rw [hafter]
          have hfront := explained_single hunused (by rw [hnop]; simp)
          rw [← hmiddle] at hfront
          have hlastLoad := explained_single hfinal (by rw [hop]; simp)
          refine ((hfront.append hexplained).append hlastLoad).mono fun use hmem => ?_
          simp only [List.mem_append, List.not_mem_nil, false_or, or_false] at hmem
          simp only [Expr.uses, Expr.takenLeft, List.mem_append]
          tauto
      · cases hunresolved

private theorem Makes.quiet_pair {scopes outer : Scopes} {kind : Token.Kind}
    {first second operand : Operand}
    (h : Makes scopes kind [.single second, .single first] operand outer)
    (hassign : kind ≠ .assign) (hcall : kind ≠ .call) (hmember : kind ≠ .member) :
    ∃ leftTy leftSegment rightTy rightSegment op result position,
      first.settle scopes = .ok (leftTy, leftSegment) ∧
      second.settle scopes = .ok (rightTy, rightSegment) ∧ outer = scopes ∧ Quiet op ∧
      operand = .made (leftSegment.code 0 ++ rightSegment.code 0) op result [leftTy, rightTy] .none
        position := by
  cases h with
  | @arithmetic _ _ _ _ _ _ _ kind op position hop hleft hright hnumeric hsame =>
      have hquiet : Quiet op := by cases kind <;> cases hop <;> simp [Quiet]
      exact ⟨_, _, _, _, _, _, _, hleft, hright, rfl, hquiet, rfl⟩
  | tuple position hleft hright happend =>
      exact ⟨_, _, _, _, _, _, _, hleft, hright, rfl, by simp [Quiet], rfl⟩
  | sequence position hleft hright =>
      exact ⟨_, _, _, _, _, _, _, hleft, hright, rfl, by simp [Quiet], rfl⟩
  | assign position hright hsize hdeclare => exact absurd rfl hassign
  | call position hargument hcallee hresult => exact absurd rfl hcall
  | member position hsubject htuple hrow hinner => exact absurd rfl hmember

theorem tracked_call {callee argument : Expr} (position : Position) (hcallee : Tracked code callee)
    (hargument : Tracked code argument) : Tracked code (.binary .call callee argument position) := by
  intro place scopes outer operand hbuild hplace hlocated
  obtain ⟨first, middle, second, built, hfirst, hsecond, hsign⟩ := Expr.build_binary hbuild
  have hmakes := Expr.makes_of_sign hsign
  cases hmakes with
  | arithmetic op _ hop => cases hop
  | @call _ _ ty calleeTy result segment calleeSegment _ hsettle hcalleeSettle hresult =>
      obtain ⟨hinit, final, hfinal, hoperands, hquiet⟩ := located_made hlocated (by simp [Quiet])
      obtain ⟨hindex, hmirrors, hexplained⟩ := hcallee.pair hargument hplace hfirst hsecond
        (Operand.settles_of_settleCallee hcalleeSettle) (Operand.settles_of_settle hsettle) hinit
      rw [← hindex] at hfinal
      have htaken : Expr.argumentAt code
          (argument.after code (callee.after code place)).index = ty := by
        simp [Expr.argumentAt, hfinal, hoperands]
      refine .of_last hindex hmirrors hexplained hfinal hquiet rfl rfl ?_
      simp only [Expr.uses, Expr.takenLeft, htaken]
      exact List.Subset.refl _

theorem tracked_binary {operator : Operator} {left right : Expr} (position : Position)
    (hassign : operator ≠ .assign) (hcall : operator ≠ .call) (hleft : Tracked code left)
    (hright : Tracked code right) : Tracked code (.binary operator left right position) := by
  intro place scopes outer operand hbuild hplace hlocated
  obtain ⟨first, middle, second, built, hfirst, hsecond, hsign⟩ := Expr.build_binary hbuild
  obtain ⟨leftTy, leftSegment, rightTy, rightSegment, op, result, place', hsettle, hsettle', rfl,
    hquiet, rfl⟩ := (Expr.makes_of_sign hsign).quiet_pair
      (by cases operator <;> simp_all [Expr.tokenKind])
      (by cases operator <;> simp_all [Expr.tokenKind])
      (by cases operator <;> simp [Expr.tokenKind])
  obtain ⟨hinit, final, hfinal, -, hquiet⟩ := located_made hlocated hquiet
  obtain ⟨hindex, hmirrors, hexplained⟩ := hleft.pair hright hplace hfirst hsecond
    (Operand.settles_of_settle hsettle) (Operand.settles_of_settle hsettle') hinit
  rw [← hindex] at hfinal
  have hafter : Expr.after code (.binary operator left right position) place =
      (right.after code (left.after code place)).next := by
    cases operator with
    | assign => exact absurd rfl hassign
    | _ => rfl
  have htaken : ∀ before after, Expr.takenLeft code operator left before after =
      left.taken .plain before after := by
    cases operator with
    | assign => exact absurd rfl hassign
    | call => exact absurd rfl hcall
    | _ => exact fun _ _ => rfl
  refine .of_last hindex hmirrors hexplained hfinal hquiet hafter rfl ?_
  simp only [Expr.uses, htaken]
  exact List.Subset.refl _

theorem tracked_pipe {value callee : Expr} (position : Position) (hvalue : Tracked code value)
    (hcallee : Tracked code callee) : Tracked code (.pipe value callee position) := by
  intro place scopes outer operand hbuild hplace hlocated
  obtain ⟨first, middle, second, built, piped, hfirst, hsecond, hpiped, hcompleted⟩ :=
    Expr.build_pipe hbuild
  obtain ⟨ty, segment, size, hsettle, -, rfl⟩ := Operand.piping_eq_ok hpiped
  have hmakes := Makes.of_completed hcompleted
  cases hmakes with
  | @completed _ _ calleeTy result _ calleeSegment _ hcalleeSettle hresult =>
      obtain ⟨hinit, final, hfinal, hoperands, hquiet⟩ := located_made hlocated (by simp [Quiet])
      obtain ⟨hindex, hmirrors, hexplained⟩ := hvalue.pair hcallee hplace hfirst hsecond
        (Operand.settles_of_settle hsettle) (Operand.settles_of_settleCallee hcalleeSettle) hinit
      rw [← hindex] at hfinal
      have htaken : Expr.argumentAt code (callee.after code (value.after code place)).index = ty := by
        simp [Expr.argumentAt, hfinal, hoperands]
      refine .of_last hindex hmirrors hexplained hfinal hquiet rfl rfl ?_
      simp only [Expr.uses, htaken]
      exact List.Subset.refl _

theorem tracked_pipeWith {value callee argument : Expr} (position : Position)
    (hvalue : Tracked code value) (hcallee : Tracked code callee)
    (hargument : Tracked code argument) :
    Tracked code (.pipeWith value callee argument position) := by
  intro place scopes outer operand hbuild hplace hlocated
  obtain ⟨first, middle, second, behind, piped, third, built, hfirst, hsecond, hpiped, hthird,
    happlied⟩ := Expr.build_pipeWith hbuild
  obtain ⟨valueTy, value', size, hsettle, -, rfl⟩ := Operand.piping_eq_ok hpiped
  have hmakes := Makes.of_applied happlied
  cases hmakes with
  | arithmetic op _ hop => cases hop
  | @callPiped _ _ ty _ whole calleeTy result _ segment calleeSegment _ hargumentSettle happend
      hcalleeSettle hresult =>
      obtain ⟨hinit, final, hfinal, hoperands, hquiet⟩ := located_made hlocated (by simp [Quiet])
      obtain ⟨hfront, hlocatedArgument⟩ := located_append.mp hinit
      obtain ⟨hlocatedValue, hlocatedCallee⟩ := located_append.mp hfront
      have hsettleValue := Operand.settles_of_settle hsettle
      have hsettleCallee := Operand.settles_of_settleCallee hcalleeSettle
      obtain ⟨hpartValue, hlengthValue⟩ := hlocatedValue.of_settles hsettleValue
      have htracksValue := hvalue hfirst hplace hpartValue
      have hmiddle := htracksValue.index
      rw [hlengthValue] at hmiddle
      rw [← hmiddle] at hlocatedCallee
      obtain ⟨hpartCallee, hlengthCallee⟩ := hlocatedCallee.of_settles hsettleCallee
      have htracksCallee := hcallee hsecond htracksValue.mirrors hpartCallee
      have hbehind := htracksCallee.index
      rw [hlengthCallee, hmiddle, Nat.add_assoc, ← List.length_append] at hbehind
      rw [← hbehind] at hlocatedArgument
      obtain ⟨hindex, hmirrors, hexplained⟩ := hargument.one htracksCallee.mirrors hthird
        (Operand.settles_of_settle hargumentSettle) hlocatedArgument
      have hextends := callee.extends_after code (value.after code place)
      have hexplainedValue := htracksValue.taken hplace htracksCallee.mirrors
        ((value.extends_after code place).trans hextends) hsettleValue hlocatedValue
      have hexplainedCallee := htracksCallee.taken htracksValue.mirrors hmirrors
        (hextends.trans (argument.extends_after code _)) hsettleCallee hlocatedCallee
      rw [hbehind, Nat.add_assoc, ← List.length_append] at hindex
      rw [← hindex] at hfinal
      have htaken : Expr.argumentAt code
          (argument.after code (callee.after code (value.after code place))).index = whole := by
        simp [Expr.argumentAt, hfinal, hoperands]
      refine .of_last hindex hmirrors ((hexplainedValue.append hexplainedCallee).append hexplained)
        hfinal hquiet rfl rfl fun use hmem => ?_
      simp only [Expr.uses, htaken, List.mem_append] at hmem ⊢
      tauto

theorem tracked_member {subject : Expr} {field : String} (position : Position)
    (hsubject : Tracked code subject) : Tracked code (.member subject field position) := by
  intro place scopes outer operand hbuild hplace hlocated
  obtain ⟨value, middle, hvalue, hmember⟩ := Expr.build_member hbuild
  have hmakes := Makes.of_member hmember
  cases hmakes with
  | arithmetic op _ hop => cases hop
  | @member _ ty inner segment _ _ row _ hsettle htuple hrow hinner =>
      obtain ⟨hinit, final, hfinal, -, hquiet⟩ := located_made hlocated (by simp [Quiet])
      obtain ⟨hsegment, hspent⟩ := located_append.mp hinit
      obtain ⟨hindex, hmirrors, hexplained⟩ :=
        hsubject.one hplace hvalue (Operand.settles_of_settle hsettle) hsegment
      rw [← hindex] at hspent
      obtain ⟨unused, hunused, hnop⟩ := located_spent hspent
      have hlater : (subject.after code place).next.index =
          place.index + (segment.code 0 ++ [Piece.spent field position .undecided]).length := by
        rw [List.length_append, ← Nat.add_assoc, ← hindex]
        rfl
      rw [← hlater] at hfinal
      refine .of_last hlater (hmirrors.next hunused (by rw [hnop]; simp))
        (hexplained.append (explained_single hunused (by rw [hnop]; simp))) hfinal hquiet rfl rfl ?_
      simp [Expr.uses]

theorem tracked_bracketed {bracket : Bracket} {inner : Expr} (opened closed : Position)
    (hinner : Tracked code inner) : Tracked code (.bracketed bracket inner opened closed) := by
  intro place scopes outer operand hbuild hplace hlocated
  cases bracket with
  | round =>
      obtain ⟨value, middle, hvalue, hgroup⟩ := Expr.build_round hbuild
      have hmakes := Makes.of_group hgroup
      cases hmakes with
      | group ty segment =>
          have htracks := hinner hvalue hplace hlocated
          exact ⟨htracks.index, htracks.mirrors, htracks.bare, htracks.explained⟩
      | groupName text position =>
          have htracks := hinner hvalue hplace hlocated
          exact ⟨htracks.index, htracks.mirrors, htracks.bare, htracks.explained⟩
  | square =>
      obtain ⟨value, middle, hvalue, harray⟩ := Expr.build_square hbuild
      have hmakes := Makes.of_array harray
      cases hmakes with
      | array hsettle helements =>
          obtain ⟨hindex, hmirrors, hexplained⟩ :=
            hinner.one hplace hvalue (Operand.settles_of_settle hsettle) hlocated
          exact ⟨hindex, hmirrors, rfl, fun _ => hexplained⟩
  | curly =>
      obtain ⟨value, middle, hvalue, hblock⟩ := Expr.build_curly hbuild
      have hmakes := Makes.of_blockEnd hblock
      cases hmakes with
      | blockEnd hsettle hleave =>
          obtain ⟨hindex, hmirrors, hexplained⟩ :=
            hinner.one hplace.enter hvalue (Operand.settles_of_settle hsettle) hlocated
          refine ⟨?_, hmirrors.leave hleave, rfl, fun _ => ?_⟩
          · simp only [Expr.after, Place.index_leave]
            exact hindex
          · simp only [Expr.after, Place.index_leave]
            exact hexplained

-- Along every expression whose frame does not wrap around.
theorem tracked (hframe : ∀ instruction ∈ code, instruction.InFrame) (expr : Expr) :
    Tracked code expr := by
  induction expr with
  | number text position => exact tracked_number text position
  | name text position => exact tracked_name text position
  | negate operand position ih => exact tracked_negate position ih
  | binary operator left right position ihleft ihright =>
      by_cases hassign : operator = .assign
      · exact hassign ▸ tracked_assign position hframe ihleft ihright
      · by_cases hcall : operator = .call
        · exact hcall ▸ tracked_call position ihleft ihright
        · exact tracked_binary position hassign hcall ihleft ihright
  | pipe value callee position ihvalue ihcallee => exact tracked_pipe position ihvalue ihcallee
  | pipeWith value callee argument position ihvalue ihcallee ihargument =>
      exact tracked_pipeWith position ihvalue ihcallee ihargument
  | member subject field position ih => exact tracked_member position ih
  | bracketed bracket inner opened closed ih => exact tracked_bracketed opened closed ih

end Walk

theorem mirrors_root {code : List Instruction} {library : Library} {scopes : Scopes}
    {literals : Pool} (h : Scopes.ofLibrary library = .ok (scopes, literals)) :
    Mirrors code (.root library) scopes := by
  obtain ⟨rows, rfl, hrows⟩ := Scopes.ofLibrary_eq_ok h
  refine ⟨.cons (List.rel_append ?_ ?_) .nil, List.pairwise_singleton _ _⟩
  · have hnatives : library.natives = library.natives.zipIdx.map Prod.fst := by simp
    rw [hnatives]
    simp only [Library.handles, List.map_map, List.forall₂_map_left_iff, List.forall₂_map_right_iff,
      List.forall₂_same]
    intro entry hentry
    exact ⟨rfl, rfl, by simp, by simp [Scopes.nativeRow]⟩
  · rw [List.forall₂_map_left_iff]
    refine hrows.imp fun constant row hlies => ?_
    obtain ⟨front, back, -, hstorage⟩ := hlies.storage
    exact ⟨hlies.name.symm, hlies.ty.symm, by simp, by simp [hstorage]⟩

end Analysis

namespace Program

-- A LOAD reads what its name is bound to where the name is written: the last COPY in front of it that
-- writes any of its bytes writes all of them, as a value of the same type, and is the COPY of that
-- binding.
def ReadsBinding (program : Program) (use : Use) (load : Instruction) : Prop :=
  ∃ index copy, index < use.before.index ∧ program.instructions[index]? = some copy ∧
    copy.op = .copy ∧ (∃ byte, copy.Touches byte ∧ load.Touches byte) ∧
    (∀ later other, index < later → later < use.before.index →
      program.instructions[later]? = some other → other.op = .copy →
      ∀ byte, other.Touches byte → ¬ load.Touches byte) ∧
    copy.payload = load.payload ∧ copy.result = load.result ∧
    use.found use.before = some ⟨load.result, some index⟩

-- A run that comes to the LOAD at `index` finds the bytes there that the COPY has taken from the
-- stack.
def Carries (program : Program) (library : Library) (copy index : Nat) (load : Instruction) : Prop :=
  ∀ store, Machine.exec program.literals library (.ofFrameSize program.frameSize)
      (program.instructions.toList.take index) = .ok store →
    ∃ offset size earlier bytes rest, load.payload = .stack offset ∧
      load.result.size? = some size ∧
      Machine.exec program.literals library (.ofFrameSize program.frameSize)
        (program.instructions.toList.take copy) = .ok earlier ∧
      earlier.pop size = .ok (bytes, rest) ∧ store.readFrame offset size = .ok bytes

end Program

namespace Analysis

-- Code up to a LOAD runs through its COPY and then spares the slot.
private theorem carries_of_spares {program : Program} {copy index : Nat} {load : Instruction}
    {offset : UInt32} (hpayload : load.payload = .stack offset)
    (hcopy : CopyAt program.instructions.toList copy offset load.result) (hindex : copy < index)
    (hspares : Spares program.instructions.toList (load.result.Slot offset) (copy + 1) index)
    (library : Library) : program.Carries library copy index load := by
  intro store hexec
  obtain ⟨instruction, hinstruction, hop, hstack, hresult⟩ := hcopy
  have hsplit : program.instructions.toList.take index =
      program.instructions.toList.take copy ++
        instruction :: (program.instructions.toList.take index).drop (copy + 1) := by
    have hat : (program.instructions.toList.take index)[copy]? = some instruction := by
      rw [List.getElem?_take_of_lt hindex, hinstruction]
    obtain ⟨hlength, hcopy⟩ := List.getElem?_eq_some_iff.mp hat
    rw [← hcopy, ← List.drop_eq_getElem_cons hlength, ← Nat.min_eq_left (Nat.le_of_lt hindex),
      ← List.take_take, Nat.min_eq_left (Nat.le_of_lt hindex), List.take_append_drop]
  rw [hsplit, Machine.exec_append] at hexec
  obtain ⟨earlier, hearlier, hexec⟩ := bind_eq_ok.mp hexec
  obtain ⟨written, hadvance, hexec⟩ := bind_eq_ok.mp hexec
  have hframed := Machine.framed_of_exec (Store.framed_ofFrameSize _) hearlier
  obtain ⟨hwritten, ⟨hother, -⟩ |
    ⟨-, found, size, bytes, rest, hfound, hsize, hpop, hinside, hframe⟩⟩ :=
    Machine.frame_of_advance hframed hadvance
  · exact absurd hop hother
  · cases hstack.symm.trans hfound
    rw [hresult] at hsize
    have hlength := (Store.pop_eq_ok hpop).2
    have hslice : store.frame.slice? offset.toNat size.toNat =
        written.frame.slice? offset.toNat size.toNat := by
      refine Machine.slice?_of_exec hwritten hexec fun other hmem hother byte htouches hbyte => ?_
      obtain ⟨later, hlater⟩ := List.mem_iff_getElem?.mp hmem
      rw [List.getElem?_drop, List.getElem?_take] at hlater
      split at hlater
      · rename_i hbelow
        exact hspares _ other (by omega) hbelow hlater hother byte htouches ⟨size, hsize, hbyte⟩
      · contradiction
    rw [hframe, ← hlength, Bytes.slice?_write_self hinside] at hslice
    refine ⟨offset, size, earlier, bytes, rest, hpayload, hsize, hearlier, hpop, ?_⟩
    rw [hlength] at hslice
    exact Store.readFrame_eq_ok (Machine.framed_of_exec hwritten hexec) hslice

-- Every LOAD of a source has a use.
private theorem explained_program {library : Library} {source : Bytes} {expr : Expr}
    {last : Position} {program : Program} (hexpr : Source.expr source = .ok (expr, last))
    (hcompile : Source.compile library source = .ok program)
    (hframe : ∀ instruction ∈ program.instructions, instruction.InFrame) :
    Explained program.instructions.toList (expr.programUses program.instructions.toList library) 0
      program.instructions.size := by
  rw [Source.compile_eq_build, hexpr, ok_bind] at hcompile
  obtain ⟨⟨scopes, literals⟩, hroot, hcompile⟩ := bind_eq_ok.mp hcompile
  obtain ⟨⟨operand, built⟩, hbuild, hfinish⟩ := bind_eq_ok.mp hcompile
  obtain ⟨piece, ty, segment, hpieces, hsettle, -, rfl⟩ := Plan.finish_eq_ok hfinish
  cases hpieces
  simp only [List.mem_toArray, List.size_toArray] at hframe ⊢
  have hfinal := @List.getElem?_concat_length _ (segment.code 0)
    (⟨.finish, ty, [ty], .none, 0, last⟩ : Instruction)
  have hlocated : Located (segment.code 0 ++
      [(⟨.finish, ty, [ty], .none, 0, last⟩ : Instruction)]) 0 (segment.code 0) := by
    intro index early hearly
    refine ⟨early, ?_, .inl rfl⟩
    rw [Nat.zero_add, List.getElem?_append_left (List.getElem?_eq_some_iff.mp hearly).1, hearly]
  have htracked : Tracked _ expr := tracked hframe expr
  obtain ⟨hindex, -, hexplained⟩ := htracked.one (mirrors_root hroot) hbuild
    (Operand.settles_of_settle hsettle) hlocated
  have hstart : (Place.root library).index = 0 := rfl
  rw [hindex, hstart, Nat.zero_add] at hexplained
  have hwhole := hexplained.append (explained_single hfinal (by simp))
  rw [List.append_nil] at hwhole
  simpa only [List.length_append, List.length_singleton, Expr.programUses] using hwhole

end Analysis

-- A LOAD reads the binding of its name if nothing between the name and its sign binds the name anew.
-- Otherwise it runs before the COPY that fills its slot, and reads whatever is there.
theorem load_reads_binding_iff (library : Library) (source : Bytes) (expr : Expr) (last : Position)
    (program : Program) (hexpr : Source.expr source = .ok (expr, last))
    (hcompile : Source.compile library source = .ok program)
    (hframe : ∀ instruction ∈ program.instructions, instruction.InFrame) (index : Nat)
    (load : Instruction) (hload : program.instructions[index]? = some load) (hop : load.op = .load)
    (hsize : ∃ byte, load.Touches byte) :
    ∃ use ∈ expr.programUses program.instructions.toList library,
      use.before.index = index ∧ use.position = load.position ∧
      ∃ copy, use.found use.after = some ⟨load.result, some copy⟩ ∧
        (program.ReadsBinding use load ↔ use.found use.before = use.found use.after) ∧
        (use.found use.before = use.found use.after →
          ∀ runLibrary, program.Carries runLibrary copy index load) ∧
        (use.found use.before ≠ use.found use.after → index < copy) := by
  have hlength := (Array.getElem?_eq_some_iff.mp hload).1
  rw [← Array.getElem?_toList] at hload
  obtain ⟨use, hmem, rfl, hposition, offset, copy, hpayload, hafter, hcopy, hfirst, hunique⟩ :=
    Analysis.explained_program hexpr hcompile hframe index load (Nat.zero_le _) hlength hload hop
  have hslot : ∃ byte, load.result.Slot offset byte := by
    obtain ⟨byte, found, hfound, hbyte⟩ := hsize
    cases hpayload.symm.trans hfound
    exact ⟨byte, hbyte⟩
  have hbefore : use.found use.before = use.found use.after ↔ copy < use.before.index := by
    rw [hafter]
    exact ⟨fun heq => (hunique copy heq hcopy hslot).2, fun hlt => (hfirst hlt).1⟩
  refine ⟨use, hmem, rfl, hposition, copy, hafter, ⟨?_, ?_⟩, ?_, ?_⟩
  · rintro ⟨other, found, -, hother, hotherOp, -, -, hotherPayload, hotherResult, hwritten⟩
    rw [← Array.getElem?_toList] at hother
    obtain ⟨rfl, -⟩ := hunique other hwritten
      ⟨found, hother, hotherOp, hotherPayload.trans hpayload, hotherResult⟩ hslot
    rw [hwritten, hafter]
  · intro heq
    obtain ⟨hwritten, hspares⟩ := hfirst (hbefore.mp heq)
    obtain ⟨found, hfound, hcopyOp, hstack, hresult⟩ := hcopy
    obtain ⟨byte, hbyte⟩ := hslot
    refine ⟨copy, found, hbefore.mp heq, Array.getElem?_toList ▸ hfound, hcopyOp,
      ⟨byte, ⟨offset, hstack, hresult ▸ hbyte⟩, offset, hpayload, hbyte⟩, ?_,
      hstack.trans hpayload.symm, hresult, hwritten⟩
    rintro later other hlater hindex hother hotherOp touched htouches ⟨place, hplace, htouched⟩
    cases hpayload.symm.trans hplace
    rw [← Array.getElem?_toList] at hother
    exact hspares later other hlater hindex hother hotherOp touched htouches htouched
  · intro heq runLibrary
    exact Analysis.carries_of_spares hpayload hcopy (hbefore.mp heq)
      (hfirst (hbefore.mp heq)).2 runLibrary
  · intro hne
    have hle := Nat.le_of_not_lt (mt hbefore.mpr hne)
    refine Nat.lt_of_le_of_ne hle fun heq => ?_
    obtain ⟨found, hfound, hcopyOp, -⟩ := hcopy
    rw [← heq, hload] at hfound
    cases hfound
    rw [hop] at hcopyOp
    cases hcopyOp

-- A name of an outer block behind a binding of the inner one.
def Source.nested : Bytes := "a := seven; \x7bb := a; b + a\x7d".toUTF8.toList

theorem load_reads_binding_nested :
    ∃ expr last program load, Source.expr Source.nested = .ok (expr, last) ∧
      Source.compile .echoing Source.nested = .ok program ∧
      (∀ instruction ∈ program.instructions, instruction.InFrame) ∧
      program.instructions[7]? = some load ∧ load.op = .load ∧ (∃ byte, load.Touches byte) ∧
      ∃ use ∈ expr.programUses program.instructions.toList .echoing,
        use.before.index = 7 ∧ program.ReadsBinding use load := by
  have hchecked : (Source.expr Source.nested).toOption.any (fun parsed =>
      (Source.compile .echoing Source.nested).toOption.any fun program =>
        program.instructions[7]?.any fun load =>
          load.op = .load ∧ load.payload = .stack 0 ∧ load.result.size? = some 4 ∧
          (∀ instruction ∈ program.instructions, instruction.InFrame) ∧
          ∀ use ∈ parsed.1.programUses program.instructions.toList .echoing,
            use.before.index = 7 → use.found use.before = use.found use.after) = true := by
    decide +kernel
  obtain ⟨⟨expr, last⟩, hexpr, hchecked⟩ := exists_ok_of_any hchecked
  obtain ⟨program, hcompile, hchecked⟩ := exists_ok_of_any hchecked
  obtain ⟨load, hload, hchecked⟩ := (Option.any_eq_true _ _).mp hchecked
  obtain ⟨hop, hpayload, hsize, hframe, hfound⟩ := of_decide_eq_true hchecked
  have htouches : ∃ byte, load.Touches byte := ⟨0, 0, hpayload, 4, hsize, by decide, by decide⟩
  obtain ⟨use, hmem, hindex, -, copy, -, hreads, -⟩ := load_reads_binding_iff .echoing Source.nested expr
    last program hexpr hcompile hframe 7 load hload hop htouches
  exact ⟨expr, last, program, load, hexpr, hcompile, hframe, hload, hop, htouches, use, hmem, hindex,
    hreads.mpr (hfound use hmem hindex)⟩

-- A block has ended, and its bytes are read as the value of a name that is bound behind.
def Source.stale : Bytes := "\x7bb := seven; b\x7d; a + (a := seven)".toUTF8.toList

theorem load_reads_ended_block :
    ∃ expr last program load, Source.expr Source.stale = .ok (expr, last) ∧
      Source.compile .echoing Source.stale = .ok program ∧ program.instructions[5]? = some load ∧
      load.op = .load ∧ (∃ byte, load.Touches byte) ∧
      (∀ use ∈ expr.programUses program.instructions.toList .echoing, use.before.index = 5 →
        ¬ program.ReadsBinding use load) ∧
      program.run .echoing = .ok ⟨.ofPrimitive .i32, [14, 0, 0, 0]⟩ := by
  have hchecked : (Source.expr Source.stale).toOption.any (fun parsed =>
      (Source.compile .echoing Source.stale).toOption.any fun program =>
        program.instructions[5]?.any fun load =>
          load.op = .load ∧ load.payload = .stack 0 ∧ load.result.size? = some 4 ∧
          (∀ use ∈ parsed.1.programUses program.instructions.toList .echoing,
            use.before.index = 5 → use.found use.before = none) ∧
          program.run .echoing = .ok ⟨.ofPrimitive .i32, [14, 0, 0, 0]⟩) = true := by
    decide +kernel
  obtain ⟨⟨expr, last⟩, hexpr, hchecked⟩ := exists_ok_of_any hchecked
  obtain ⟨program, hcompile, hchecked⟩ := exists_ok_of_any hchecked
  obtain ⟨load, hload, hchecked⟩ := (Option.any_eq_true _ _).mp hchecked
  obtain ⟨hop, hpayload, hsize, hfound, hrun⟩ := of_decide_eq_true hchecked
  refine ⟨expr, last, program, load, hexpr, hcompile, hload, hop,
    ⟨0, 0, hpayload, 4, hsize, by decide, by decide⟩, ?_, hrun⟩
  rintro use hmem hindex ⟨copy, found, -, -, -, -, -, -, -, hbound⟩
  rw [hfound use hmem hindex] at hbound
  cases hbound

end Sluice

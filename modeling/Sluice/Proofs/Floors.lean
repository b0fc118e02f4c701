import Mathlib
import Sluice.Proofs.Defects
import Sluice.Proofs.LexicalBinding

namespace Sluice

theorem Scopes.chain_leave {scopes outer : Scopes} (h : scopes.leave = .ok outer) :
    outer.chain = scopes.outer := by
  obtain ⟨current, around, frameSize⟩ := scopes
  cases around with
  | nil => contradiction
  | cons scope around =>
      cases h
      rfl

namespace Analysis

theorem Makes.scopes_eq {scopes outer : Scopes} {kind : Token.Kind} {taken : List Piece}
    {operand : Operand} (h : Makes scopes kind taken operand outer) (hassign : kind ≠ .assign)
    (hblock : kind ≠ .blockEnd) : outer = scopes := by
  cases h with
  | assign position hright hsize hdeclare => contradiction
  | blockEnd hsettle hleave => contradiction
  | _ => rfl

-- A name is looked up in the chain alone.
theorem Operand.settle_congr {scopes other : Scopes} (h : other.chain = scopes.chain)
    (operand : Operand) : operand.settle other = operand.settle scopes := by
  cases operand with
  | value ty segment => rfl
  | name text place => simp only [Operand.settle, Scopes.lookup, h]

end Analysis

namespace Expr

open Analysis

-- There is an assignment outside of all braces.
def binds : Expr → Bool
  | .number _ _ => false
  | .name _ _ => false
  | .negate operand _ => operand.binds
  | .binary operator left right _ => operator = .assign || left.binds || right.binds
  | .pipe value callee _ => value.binds || callee.binds
  | .pipeWith value callee argument _ => value.binds || callee.binds || argument.binds
  | .member subject _ _ => subject.binds
  | .bracketed .curly _ _ _ => false
  | .bracketed _ inner _ _ => inner.binds

theorem chain_of_build {expr : Expr} {scopes outer : Scopes} {operand : Operand}
    (hbinds : expr.binds = false) (h : expr.build scopes = .ok (operand, outer)) :
    outer.chain = scopes.chain := by
  induction expr generalizing scopes outer operand with
  | number text position => rw [(Makes.of_number h).scopes_eq (by decide) (by decide)]
  | name text position =>
      cases h
      rfl
  | negate inner position ih =>
      obtain ⟨value, middle, hinner, h⟩ := build_negate h
      rw [(Makes.of_negate h).scopes_eq (by decide) (by decide)]
      exact ih hbinds hinner
  | binary operator left right position ihleft ihright =>
      simp only [binds, Bool.or_eq_false_iff, decide_eq_false_iff_not] at hbinds
      obtain ⟨⟨hassign, hleft⟩, hright⟩ := hbinds
      obtain ⟨first, middle, second, built, hfirst, hsecond, h⟩ := build_binary h
      have hkind : tokenKind operator ≠ .assign ∧ tokenKind operator ≠ .blockEnd := by
        cases operator <;> simp_all [tokenKind]
      rw [(makes_of_sign h).scopes_eq hkind.1 hkind.2]
      exact (ihright hright hsecond).trans (ihleft hleft hfirst)
  | pipe value callee position ihvalue ihcallee =>
      simp only [binds, Bool.or_eq_false_iff] at hbinds
      obtain ⟨first, middle, second, built, piped, hfirst, hsecond, -, h⟩ := build_pipe h
      rw [(Makes.of_completed h).scopes_eq (by decide) (by decide)]
      exact (ihcallee hbinds.2 hsecond).trans (ihvalue hbinds.1 hfirst)
  | pipeWith value callee argument position ihvalue ihcallee ihargument =>
      simp only [binds, Bool.or_eq_false_iff] at hbinds
      obtain ⟨⟨hvalue, hcallee⟩, hargument⟩ := hbinds
      obtain ⟨first, middle, second, behind, piped, third, built, hfirst, hsecond, -, hthird, h⟩ :=
        build_pipeWith h
      rw [(Makes.of_applied h).scopes_eq (by decide) (by decide)]
      exact (ihargument hargument hthird).trans
        ((ihcallee hcallee hsecond).trans (ihvalue hvalue hfirst))
  | member subject field position ih =>
      obtain ⟨value, middle, hsubject, h⟩ := build_member h
      rw [(Makes.of_member h).scopes_eq (by decide) (by decide)]
      exact ih hbinds hsubject
  | bracketed bracket inner opened closed ih =>
      cases bracket with
      | round =>
          obtain ⟨value, middle, hinner, h⟩ := build_round h
          rw [(Makes.of_group h).scopes_eq (by decide) (by decide)]
          exact ih hbinds hinner
      | square =>
          obtain ⟨value, middle, hinner, h⟩ := build_square h
          rw [(Makes.of_array h).scopes_eq (by decide) (by decide)]
          exact ih hbinds hinner
      | curly =>
          -- a block may assign, but its names go with it
          obtain ⟨value, middle, hinner, h⟩ := build_curly h
          cases Makes.of_blockEnd h with
          | blockEnd hsettle hleave =>
              exact (Scopes.chain_leave hleave).trans (outer_of_build hinner)

end Expr

-- The frame does not wrap around at a COPY.
def Instruction.WritesInFrame (instruction : Instruction) : Prop :=
  instruction.op = .copy → instruction.InFrame

-- A COPY that leaves the bytes below the bound alone.
def Instruction.Above (bound : Nat) (instruction : Instruction) : Prop :=
  instruction.op = .copy → ∀ byte, instruction.Touches byte → bound ≤ byte

theorem Instruction.Above.mono {instruction : Instruction} {bound lower : Nat}
    (h : instruction.Above bound) (hlower : lower ≤ bound) : instruction.Above lower :=
  fun hop byte hbyte => Nat.le_trans hlower (h hop byte hbyte)

-- A slot that ends below the bound.
def Binding.Below (bound : Nat) (binding : Binding) : Prop :=
  ∀ offset byte, binding.storage = .stack offset → binding.ty.Slot offset byte → byte < bound

namespace Scopes

-- Where the next slot begins.
def floor (scopes : Scopes) : Nat := scopes.current.frame.offset.toNat

-- All slots lie below the next one.
def Floored (scopes : Scopes) : Prop :=
  ∀ scope ∈ scopes.chain, ∀ entry ∈ scope.bindings, entry.2.Below scopes.floor

theorem floored_ofLibrary {library : Library} {scopes : Scopes} {literals : Pool}
    (h : ofLibrary library = .ok (scopes, literals)) : scopes.Floored := by
  have hnone : ∀ scope ∈ scopes.chain, ∀ entry ∈ scope.bindings, ∀ bound, entry.2.Below bound := by
    refine @forall_ofLibrary (fun binding => ∀ bound, binding.Below bound) _ _ _
      (fun id native hmem bound offset byte => nofun) (fun constant row hmem hlies bound => ?_) h
    obtain ⟨front, back, -, hstorage⟩ := hlies.storage
    intro offset byte hstack
    rw [hstorage] at hstack
    contradiction
  exact fun scope hscope entry hentry => hnone scope hscope entry hentry scopes.floor

theorem Floored.congr {scopes other : Scopes} (h : scopes.Floored)
    (hchain : other.chain = scopes.chain) : other.Floored := by
  have hcurrent : other.current = scopes.current := (List.cons.inj hchain).1
  rw [Floored, floor, hchain, hcurrent]
  exact h

theorem Floored.enter {scopes : Scopes} (h : scopes.Floored) : scopes.enter.Floored := by
  intro scope hscope
  rcases List.mem_cons.mp hscope with rfl | hscope
  · simp [Scopes.enter]
  · exact h scope hscope

-- An assignment takes the bytes from the floor on, and the floor rises above them.
theorem Floored.declare {scopes declared : Scopes} {ty : Ty} {size : UInt32} {name : String}
    {position : Position} (h : scopes.Floored) (hsize : ty.size? = some size)
    (hframe : scopes.floor + size.toNat < UInt32.size)
    (hdeclare : (scopes.allocate size).2.declare name ⟨ty, .stack (scopes.allocate size).1⟩
      position = .ok declared) :
    declared.Floored ∧ scopes.floor ≤ declared.floor := by
  obtain ⟨-, rfl⟩ := declare_eq_ok hdeclare
  have hfloor : (scopes.current.frame.offset + size).toNat = scopes.floor + size.toNat := by
    rw [UInt32.toNat_add]
    exact Nat.mod_eq_of_lt hframe
  have hrises : scopes.floor ≤ (scopes.current.frame.offset + size).toNat := by omega
  have hold : ∀ scope ∈ scopes.chain, ∀ entry ∈ scope.bindings,
      entry.2.Below (scopes.current.frame.offset + size).toNat := by
    intro scope hscope entry hentry offset byte hstorage hbyte
    exact Nat.lt_of_lt_of_le (h scope hscope entry hentry offset byte hstorage hbyte) hrises
  refine ⟨fun scope hscope => ?_, hrises⟩
  rcases List.mem_cons.mp hscope with rfl | hscope
  · intro entry hentry
    rcases List.mem_append.mp hentry with hentry | hentry
    · exact hold scopes.current (List.mem_cons_self ..) entry hentry
    · cases List.mem_singleton.mp hentry
      rintro offset byte hstorage ⟨found, hfound, hstart, hend⟩
      cases hstorage
      cases hsize.symm.trans hfound
      exact Nat.lt_of_lt_of_eq hend hfloor.symm
  · exact hold scope (List.mem_cons_of_mem _ hscope)

end Scopes

namespace Analysis

theorem uniform_writesInFrame : Uniform Instruction.WritesInFrame :=
  ⟨fun _ => Iff.rfl, fun _ _ => nofun⟩

theorem uniform_above (bound : Nat) : Uniform (Instruction.Above bound) :=
  ⟨fun _ => Iff.rfl, fun _ _ => nofun⟩

section Forward

variable {bound : Nat} {scopes outer : Scopes} {ty : Ty} {segment : Segment}

theorem loads_above : Loads (Instruction.Above bound) scopes :=
  fun _ _ entry _ _ hop => absurd hop (op_loadOf entry.2.storage).1

theorem Piece.above_settle {piece : Piece} (h : piece.settle scopes = .ok (ty, segment))
    (hpiece : ∀ instruction ∈ piece.code, instruction.Above bound) (placement : Int32) :
    ∀ instruction ∈ segment.code placement, instruction.Above bound :=
  ((uniform_above bound).code_iff segment placement).mpr
    (Piece.forall_settle (uniform_above bound) loads_above hpiece h)

-- Signs write where their operands have written, and an assignment into the next slot.
theorem Makes.above {kind : Token.Kind} {taken : List Piece} {operand : Operand}
    (h : Makes scopes kind taken operand outer) (hbound : bound ≤ scopes.floor)
    (htaken : ∀ piece ∈ taken, ∀ instruction ∈ piece.code, instruction.Above bound) :
    operand.segment.All (Instruction.Above bound) := by
  refine h.forall_made (uniform_above bound) loads_above htaken ?_ ?_
  · rintro text position ty - ⟨⟩
  · intro hkind hcopy
    cases h with
    | @assign right _ _ name place size _ position hright hsize hdeclare =>
        rintro byte ⟨offset, hpayload, found, -, hstart, -⟩
        cases hpayload
        exact Nat.le_trans hbound hstart
    | @arithmetic _ _ _ _ _ _ _ kind op position hop hleft hright hnumeric hsame =>
        cases kind <;> cases hop <;> contradiction
    | group ty segment => cases hkind
    | groupName text position => cases hkind
    | array hsettle helements => cases hkind
    | blockEnd hsettle hleave => cases hkind
    | _ => contradiction

-- What is built in the scopes, and what it leaves of them.
structure Floors (scopes : Scopes) (operand : Operand) (outer : Scopes) : Prop where
  floored : outer.Floored
  rises : scopes.floor ≤ outer.floor
  code : ∀ instruction ∈ operand.code 0, instruction.Above scopes.floor

theorem Makes.floors {start : Scopes} {kind : Token.Kind} {taken : List Piece} {operand : Operand}
    (h : Makes scopes kind taken operand outer) (hkind : kind ≠ .blockEnd)
    (hframe : operand.segment.All Instruction.WritesInFrame) (hscopes : scopes.Floored)
    (hstart : start.floor ≤ scopes.floor)
    (htaken : ∀ piece ∈ taken, ∀ instruction ∈ piece.code, instruction.Above start.floor) :
    Floors start operand outer := by
  have habove := ((uniform_above start.floor).code_iff _ 0).mpr (h.above hstart htaken)
  by_cases hassign : kind = .assign
  · cases h with
    | assign position hright hsize hdeclare =>
        have hinside := hframe.2 rfl _ (by
          simp only [Operand.made, Operand.segment, Instruction.slotEnd?, hsize]
          rfl)
        obtain ⟨hfloored, hrises⟩ := hscopes.declare hsize hinside hdeclare
        exact ⟨hfloored, hstart.trans hrises, habove⟩
    | arithmetic op position hop hleft hright hnumeric hsame => subst hassign; contradiction
    | _ => contradiction
  · cases h.scopes_eq hassign hkind
    exact ⟨hscopes, hstart, habove⟩

theorem Makes.inFrame {kind : Token.Kind} {taken : List Piece} {operand value : Operand}
    (h : Makes scopes kind taken operand outer)
    (hframe : operand.segment.All Instruction.WritesInFrame) (hvalue : .single value ∈ taken) :
    value.segment.All Instruction.WritesInFrame :=
  (uniform_writesInFrame.code_iff _ 0).mp (h.forall_taken uniform_writesInFrame hframe _ hvalue)

-- A sign with one operand.
theorem Makes.floors_one {start : Scopes} {kind : Token.Kind} {operand value : Operand}
    (h : Makes scopes kind [.single value] operand outer) (hkind : kind ≠ .blockEnd)
    (hframe : operand.segment.All Instruction.WritesInFrame)
    (hvalue : value.segment.All Instruction.WritesInFrame → Floors start value scopes) :
    Floors start operand outer := by
  obtain ⟨hfloored, hrises, hcode⟩ := hvalue (h.inFrame hframe (List.mem_singleton_self _))
  refine h.floors hkind hframe hfloored hrises ?_
  simp only [List.forall_mem_singleton]
  exact hcode

-- A pipe only moves what it takes.
theorem Operand.piping_inFrame {value callee : Operand} {piped : Piece}
    (h : value.piping callee scopes = .ok piped)
    (hframe : ∀ instruction ∈ piped.code, instruction.WritesInFrame) :
    value.segment.All Instruction.WritesInFrame ∧ callee.segment.All Instruction.WritesInFrame := by
  obtain ⟨ty, segment, size, hsettle, -, rfl⟩ := Operand.piping_eq_ok h
  simp only [Piece.code, Operand.code, List.forall_mem_append,
    uniform_writesInFrame.code_iff] at hframe
  refine ⟨(uniform_writesInFrame.code_iff _ 0).mp ?_, hframe.2⟩
  exact @Uniform.piece_of_settle _ uniform_writesInFrame (.single value) _ _ _ hsettle hframe.1

private theorem Operand.piping_above {value callee : Operand} {piped : Piece}
    (h : value.piping callee scopes = .ok piped)
    (hvalue : ∀ instruction ∈ value.code 0, instruction.Above bound)
    (hcallee : ∀ instruction ∈ callee.code 0, instruction.Above bound) :
    ∀ instruction ∈ piped.code, instruction.Above bound := by
  obtain ⟨ty, segment, size, hsettle, -, rfl⟩ := Operand.piping_eq_ok h
  refine List.forall_mem_append.mpr ⟨?_, ?_⟩
  · exact @Piece.above_settle bound _ _ _ (.single value) hsettle hvalue gap
  · exact ((uniform_above bound).code_iff _ _).mpr (((uniform_above bound).code_iff _ 0).mp hcallee)

-- The second operand starts at the floor that the first one has left.
theorem Floors.behind {start middle : Scopes} {first second : Operand}
    (hfirst : Floors start first middle) (hsecond : Floors middle second outer) :
    Floors start second outer :=
  ⟨hsecond.floored, hfirst.rises.trans hsecond.rises,
    fun instruction hmem => (hsecond.code instruction hmem).mono hfirst.rises⟩

theorem Operand.piping_floors {start middle : Scopes} {value callee : Operand} {piped : Piece}
    (h : value.piping callee scopes = .ok piped)
    (hframe : ∀ instruction ∈ piped.code, instruction.WritesInFrame)
    (hvalue : value.segment.All Instruction.WritesInFrame → Floors start value middle)
    (hcallee : callee.segment.All Instruction.WritesInFrame → middle.Floored →
      Floors middle callee scopes) :
    Floors start callee scopes ∧ ∀ instruction ∈ piped.code, instruction.Above start.floor := by
  obtain ⟨hvalueFrame, hcalleeFrame⟩ := Operand.piping_inFrame h hframe
  have hfirst := hvalue hvalueFrame
  have hsecond := hfirst.behind (hcallee hcalleeFrame hfirst.floored)
  exact ⟨hsecond, Operand.piping_above h hfirst.code hsecond.code⟩

end Forward

end Analysis

namespace Expr

open Analysis

-- The induction follows the tree. The first operand leaves the floor of the second one.
theorem floors_of_build {expr : Expr} {scopes outer : Scopes} {operand : Operand}
    (h : expr.build scopes = .ok (operand, outer))
    (hframe : operand.segment.All Instruction.WritesInFrame) (hscopes : scopes.Floored) :
    Floors scopes operand outer := by
  induction expr generalizing scopes outer operand with
  | number text position =>
      exact (Makes.of_number h).floors (by decide) hframe hscopes (Nat.le_refl _) (by simp)
  | name text position =>
      cases h
      exact ⟨hscopes, Nat.le_refl _, ((uniform_above _).code_iff _ 0).mpr
        ⟨by simp [Operand.segment], (uniform_above _).placeholder text position⟩⟩
  | negate inner position ih =>
      obtain ⟨value, middle, hinner, h⟩ := build_negate h
      exact (Makes.of_negate h).floors_one (by decide) hframe fun hvalue => ih hinner hvalue hscopes
  | binary operator left right position ihleft ihright =>
      obtain ⟨first, middle, second, built, hleft, hright, h⟩ := build_binary h
      have hmakes := makes_of_sign h
      have hkind : tokenKind operator ≠ .blockEnd := by cases operator <;> decide
      have hfirst := ihleft hleft (hmakes.inFrame hframe (by simp)) hscopes
      have hsecond := hfirst.behind
        (ihright hright (hmakes.inFrame hframe (by simp)) hfirst.floored)
      refine hmakes.floors hkind hframe hsecond.floored hsecond.rises ?_
      simp only [List.forall_mem_cons, List.not_mem_nil, false_imp_iff, implies_true, and_true]
      exact ⟨hsecond.code, hfirst.code⟩
  | pipe value callee position ihvalue ihcallee =>
      obtain ⟨first, middle, second, built, piped, hvalue, hcallee, hpiped, h⟩ := build_pipe h
      have hmakes := Makes.of_completed h
      obtain ⟨hsecond, hcode⟩ := Operand.piping_floors hpiped
        (hmakes.forall_taken uniform_writesInFrame hframe piped (by simp))
        (fun hfirst => ihvalue hvalue hfirst hscopes) (ihcallee hcallee)
      refine hmakes.floors (by decide) hframe hsecond.floored hsecond.rises ?_
      simp only [List.forall_mem_singleton]
      exact hcode
  | pipeWith value callee argument position ihvalue ihcallee ihargument =>
      obtain ⟨first, middle, second, behind, piped, third, built, hvalue, hcallee, hpiped,
        hargument, h⟩ := build_pipeWith h
      have hmakes := Makes.of_applied h
      obtain ⟨hsecond, hcode⟩ := Operand.piping_floors hpiped
        (hmakes.forall_taken uniform_writesInFrame hframe piped (by simp))
        (fun hfirst => ihvalue hvalue hfirst hscopes) (ihcallee hcallee)
      have hthird := hsecond.behind
        (ihargument hargument (hmakes.inFrame hframe (by simp)) hsecond.floored)
      refine hmakes.floors (by decide) hframe hthird.floored hthird.rises ?_
      simp only [List.forall_mem_cons, List.not_mem_nil, false_imp_iff, implies_true, and_true]
      exact ⟨hthird.code, hcode⟩
  | member subject field position ih =>
      obtain ⟨value, middle, hsubject, h⟩ := build_member h
      have hmakes := Makes.of_member h
      have hvalue := ih hsubject (hmakes.inFrame hframe (by simp)) hscopes
      refine hmakes.floors (by decide) hframe hvalue.floored hvalue.rises ?_
      simp only [List.forall_mem_cons, List.not_mem_nil, false_imp_iff, implies_true, and_true]
      refine ⟨((uniform_above _).code_iff _ 0).mpr ⟨by simp [Operand.segment], ?_⟩, hvalue.code⟩
      exact (uniform_above _).placeholder field position
  | bracketed bracket inner opened closed ih =>
      cases bracket with
      | round =>
          obtain ⟨value, middle, hinner, h⟩ := build_round h
          exact (Makes.of_group h).floors_one (by decide) hframe fun hvalue => ih hinner hvalue hscopes
      | square =>
          obtain ⟨value, middle, hinner, h⟩ := build_square h
          exact (Makes.of_array h).floors_one (by decide) hframe fun hvalue => ih hinner hvalue hscopes
      | curly =>
          obtain ⟨value, middle, hinner, h⟩ := build_curly h
          have hmakes := Makes.of_blockEnd h
          have hvalue := ih hinner (hmakes.inFrame hframe (by simp)) hscopes.enter
          have hchain : outer.chain = scopes.chain := by
            cases hmakes with
            | blockEnd hsettle hleave =>
                exact (Scopes.chain_leave hleave).trans (outer_of_build hinner)
          have hcurrent : outer.current = scopes.current := (List.cons.inj hchain).1
          refine ⟨hscopes.congr hchain, by rw [Scopes.floor, Scopes.floor, hcurrent], ?_⟩
          refine ((uniform_above _).code_iff _ 0).mpr (hmakes.above hvalue.rises ?_)
          simp only [List.forall_mem_singleton]
          exact hvalue.code

end Expr

end Sluice

import Mathlib
import Sluice.Proofs.Pieces

namespace Sluice

namespace Analysis

-- A state before the end of the tokens.
abbrev stateOf (code : List Instruction) (pending : List Pending) (scopes : Scopes)
    (events : List Event) : State :=
  ⟨code.toArray, pending, scopes, false, events⟩

section Primitives

variable {pending : List Pending} {scopes : Scopes} {events : List Event}

@[simp] theorem run_ofExcept_ok {α : Type} (value : α) (state : State) :
    (ofExcept (.ok value)).run state = .ok value state := rfl

@[simp] theorem run_ofExcept_error {α : Type} (failure : Failure) (state : State) :
    (ofExcept (.error failure : Except Failure α)).run state = .error failure state := rfl

@[simp] theorem run_fail {α : Type} (position : Position) (problem : Problem) (state : State) :
    (fail position problem : Analysis α).run state = .error (.located position problem) state := rfl

@[simp] theorem run_pop_nil (code : List Instruction) :
    pop.run (stateOf code [] scopes events) =
      .error (.plain .missingOperands) (stateOf code [] scopes events) := rfl

@[simp] theorem run_pop_cons (code : List Instruction) (top : Pending) :
    pop.run (stateOf code (top :: pending) scopes events) =
      .ok top (stateOf code pending scopes events) := rfl

@[simp] theorem run_defect {α : Type} (problem : Problem) (state : State) :
    (defect problem : Analysis α).run state = .error (.plain problem) state := rfl

theorem run_produce (code : List Instruction) (op : Op) (result : Ty) (operands : List Ty)
    (payload : Payload) (position : Position) :
    (produce op result operands payload position).run (stateOf code pending scopes events) =
      .ok () (stateOf (code ++ [(⟨op, result, operands, payload, 0, position⟩ : Instruction)])
        (.resolved result code.length :: pending) scopes
        (.emitted code.length ⟨op, result, operands, payload, 0, position⟩ :: events)) := by
  simp [produce, emit, record, push]

-- The instruction between `below` and `above`.
theorem run_instructionAt (below above : List Instruction) (instruction : Instruction) :
    (instructionAt below.length).run
        (stateOf (below ++ instruction :: above) pending scopes events) =
      .ok instruction (stateOf (below ++ instruction :: above) pending scopes events) := by
  simp [instructionAt, inRange, ofExcept]

theorem run_replace (below above : List Instruction) (old new : Instruction) :
    (replace below.length new).run (stateOf (below ++ old :: above) pending scopes events) =
      .ok () (stateOf (below ++ new :: above) pending scopes events) := by
  simp [replace]

theorem run_placeholderAt (below above : List Instruction) (text : String) (position : Position)
    (placement : Int32) :
    (placeholderAt below.length).run (stateOf (below ++
        (Instruction.placeholder text position).placed placement :: above)
        pending scopes events) =
      .ok (text, position) (stateOf (below ++
        (Instruction.placeholder text position).placed placement :: above)
        pending scopes events) := by
  simp only [placeholderAt, EStateM.run_bind, run_instructionAt]
  rfl

theorem run_bind_placeholder (below above : List Instruction) (text : String)
    (position : Position) (placement : Int32) (binding : Binding) :
    (bind below.length binding).run (stateOf (below ++
        (Instruction.placeholder text position).placed placement :: above)
        pending scopes events) =
      .ok binding.ty (stateOf
        (below ++ (Operand.loading binding position).code placement ++ above) pending scopes
        (.resolved below.length
          ((Operand.loading binding position).last.placed placement) :: events)) := by
  simp only [bind, EStateM.run_bind, run_instructionAt]
  simp [Instruction.placeholder, Instruction.placed, run_replace, record, Operand.loading, Segment.code]

theorem run_place (below above : List Instruction) (instruction : Instruction)
    (placement : Int32) (h : instruction.placement = 0) :
    (place below.length placement).run
        (stateOf (below ++ instruction :: above) pending scopes events) =
      .ok () (stateOf (below ++ instruction.placed placement :: above) pending scopes
        (.placed below.length placement :: events)) := by
  simp only [place, EStateM.run_bind, run_instructionAt]
  simp [h, run_replace, record, Instruction.placed]

theorem run_place_twice (below above : List Instruction) (instruction : Instruction)
    (placement : Int32) (h : instruction.placement ≠ 0) :
    (place below.length placement).run
        (stateOf (below ++ instruction :: above) pending scopes events) =
      .error (.plain (.placedTwice below.length))
        (stateOf (below ++ instruction :: above) pending scopes events) := by
  simp only [place, EStateM.run_bind, run_instructionAt]
  simp [h]

end Primitives

theorem Piece.entry_name (text : String) (position : Position) (start : Nat) :
    (Piece.single (.name text position)).entry start = .unresolved start := rfl

theorem Operand.code_name (text : String) (position : Position) (placement : Int32) :
    (Operand.name text position).code placement =
      [(Instruction.placeholder text position).placed placement] := rfl

-- A name is one instruction before it is settled and one instruction afterwards.
private theorem Operand.length_init_settle {operand : Operand} {scopes : Scopes} {ty : Ty}
    {segment : Segment} (h : operand.settle scopes = .ok (ty, segment)) :
    segment.init.length = operand.segment.init.length := by
  cases operand with
  | value valueTy code => cases h; rfl
  | name text position =>
      simp only [Operand.settle] at h
      split at h
      · contradiction
      · cases h; rfl

theorem Piece.length_code_settle {piece : Piece} {scopes : Scopes} {ty : Ty} {segment : Segment}
    (h : piece.settle scopes = .ok (ty, segment)) :
    (segment.code 0).length = piece.code.length := by
  cases piece with
  | single operand =>
      have hlength := Operand.length_init_settle h
      simp [Segment.code, Piece.code, Operand.code, hlength]
  | piped valueTy value callee => contradiction

section Resolution

variable {pending : List Pending} {scopes : Scopes} {events : List Event}
  {below above : List Instruction} {start : Nat} {ty : Ty} {segment : Segment}

theorem run_resolve_ok {piece : Piece} (hstart : start = below.length)
    (h : piece.settle scopes = .ok (ty, segment)) :
    ∃ new, (resolve (piece.entry start)).run
        (stateOf (below ++ piece.code ++ above) pending scopes events) =
      .ok (ty, start + segment.init.length)
        (stateOf (below ++ segment.code 0 ++ above) pending scopes (new ++ events)) := by
  subst hstart
  cases piece with
  | piped valueTy value callee => contradiction
  | single operand =>
      cases operand with
      | value valueTy code =>
          cases h
          exact ⟨[], rfl⟩
      | name text position =>
          simp only [Piece.settle, Operand.settle] at h
          split at h
          · contradiction
          · rename_i binding hlookup
            cases h
            refine ⟨[.resolved below.length (Operand.loading binding position).last], ?_⟩
            rw [Piece.code, Operand.code_name, List.append_assoc, List.singleton_append]
            simp only [Piece.entry, Operand.entry, resolve, EStateM.run_bind, run_placeholderAt,
              EStateM.run_get, hlookup, run_bind_placeholder, EStateM.run_pure]
            rfl

theorem run_resolve_error {piece : Piece} {failure : Failure} (hstart : start = below.length)
    (h : piece.settle scopes = .error failure) :
    (resolve (piece.entry start)).run
        (stateOf (below ++ piece.code ++ above) pending scopes events) =
      .error failure (stateOf (below ++ piece.code ++ above) pending scopes events) := by
  subst hstart
  cases piece with
  | piped valueTy value callee =>
      cases h
      rfl
  | single operand =>
      cases operand with
      | value valueTy code => contradiction
      | name text position =>
          simp only [Piece.settle, Operand.settle] at h
          split at h
          · rename_i hlookup
            cases h
            rw [Piece.code, Operand.code_name, List.append_assoc, List.singleton_append]
            simp only [Piece.entry, Operand.entry, resolve, EStateM.run_bind, run_placeholderAt,
              EStateM.run_get, hlookup, run_fail]
          · contradiction

-- The four ways in which a value can be taken as a callee.
theorem run_resolveCallee_value (valueTy argument : Ty) (producer : Nat) (code : Segment)
    (position : Position) (state : State) :
    (resolveCallee (.resolved valueTy producer) argument position).run state =
      match (Operand.value valueTy code).settleCallee scopes argument position with
      | .ok (ty, _) => .ok ty state
      | .error failure => .error failure state := by
  by_cases hfunc : valueTy.isFunc = true
  · cases hmatch : (Ty.func .undecided argument).matches? valueTy with
    | none => simp [resolveCallee, Operand.settleCallee, hfunc, hmatch, inRange]
    | some isMatch =>
        cases isMatch <;>
          simp [resolveCallee, Operand.settleCallee, hfunc, hmatch, inRange]
  · simp [resolveCallee, Operand.settleCallee, hfunc]

theorem run_resolveCallee_ok {operand : Operand} {argument : Ty} {position : Position}
    {placement : Int32} (hstart : start = below.length)
    (h : operand.settleCallee scopes argument position = .ok (ty, segment)) :
    ∃ new, (resolveCallee (operand.entry start) argument position).run
        (stateOf (below ++ operand.code placement ++ above) pending scopes events) =
      .ok ty (stateOf (below ++ segment.code placement ++ above) pending scopes
        (new ++ events)) := by
  subst hstart
  cases operand with
  | value valueTy code =>
      refine ⟨[], ?_⟩
      rw [Operand.entry, run_resolveCallee_value valueTy argument _ code position, h]
      obtain ⟨-, rfl, -, -⟩ := Operand.eq_of_settleCallee_value h
      rfl
  | name text place =>
      simp only [Operand.settleCallee] at h
      split at h
      · contradiction
      · rename_i binding hlookup
        cases h
        refine ⟨[.resolved below.length
          ((Operand.loading binding place).last.placed placement)], ?_⟩
        rw [Operand.code_name, List.append_assoc, List.singleton_append]
        simp only [Operand.entry, resolveCallee, EStateM.run_bind, run_placeholderAt,
          EStateM.run_get, hlookup, run_bind_placeholder]
        rfl

theorem run_resolveCallee_error {operand : Operand} {argument : Ty} {position : Position}
    {placement : Int32} {failure : Failure} (hstart : start = below.length)
    (h : operand.settleCallee scopes argument position = .error failure) :
    (resolveCallee (operand.entry start) argument position).run
        (stateOf (below ++ operand.code placement ++ above) pending scopes events) =
      .error failure (stateOf (below ++ operand.code placement ++ above) pending scopes events) := by
  subst hstart
  cases operand with
  | value valueTy code =>
      rw [Operand.entry, run_resolveCallee_value valueTy argument _ code position, h]
  | name text place =>
      simp only [Operand.settleCallee] at h
      split at h
      · rename_i hlookup
        cases h
        rw [Operand.code_name, List.append_assoc, List.singleton_append]
        simp only [Operand.entry, resolveCallee, EStateM.run_bind, run_placeholderAt,
          EStateM.run_get, hlookup, run_fail]
      · contradiction

end Resolution

-- The analysis came to the state of the plan, and wrote some more events, or failed as the plan did.
def Follows (plan : Except Failure Plan) (events : List Event)
    (outcome : EStateM.Result Failure State Unit) : Prop :=
  match plan with
  | .ok plan => ∃ new, outcome = .ok () (plan.state (new ++ events))
  | .error failure => ∃ state, outcome = .error failure state

section Signs

variable {rest : List Piece} {scopes : Scopes} {events : List Event}

theorem follows_join (new : List Event) (before : List Instruction) (op : Op) (result : Ty)
    (operands : List Ty) (payload : Payload) (position : Position) :
    Follows (Plan.put rest (join scopes before op result operands payload position)) events
      ((produce op result operands payload position).run
        (stateOf (codeOf rest ++ before) (entriesOf rest) scopes (new ++ events))) := by
  rw [run_produce]
  refine ⟨.emitted (codeOf rest ++ before).length ⟨op, result, operands, payload, 0, position⟩ ::
    new, ?_⟩
  simp [Plan.state, Plan.code, codeOf, entriesOf, Piece.code, Piece.entry, Operand.code,
    Operand.made, Operand.segment, Operand.entry, Segment.code, Instruction.placed]

theorem follows_number (token : Token) :
    Follows (Plan.put rest (Piece.number token.text token.position scopes)) events
      ((number token).run (Plan.state ⟨rest, scopes⟩ events)) := by
  have hjoin := fun op result operands payload position => @follows_join rest scopes events []
    [] op result operands payload position
  simp only [List.append_nil, List.nil_append] at hjoin
  unfold number Piece.number
  split
  · cases Decimal.readFloat? token.text with
    | none => exact ⟨_, rfl⟩
    | some bits => exact hjoin _ _ _ _ _
  · cases Decimal.readInteger? token.text with
    | none => exact ⟨_, rfl⟩
    | some value =>
        dsimp only
        split
        · exact hjoin _ _ _ _ _
        · exact ⟨_, rfl⟩

theorem follows_name (token : Token) :
    Follows (.ok ⟨.single (.name token.text token.position) :: rest, scopes⟩) events
      ((name token).run (Plan.state ⟨rest, scopes⟩ events)) := by
  refine ⟨[.emitted (codeOf rest).length (.placeholder token.text token.position)], ?_⟩
  simp [name, emit, record, push, Plan.state, Plan.code, codeOf, entriesOf, Piece.code,
    Piece.entry, Operand.code_name, Operand.entry]
  rfl

theorem follows_error {failure : Failure} {state : State} :
    Follows (.error failure) events (.error failure state) := ⟨state, rfl⟩

-- Signs that settle both operands, the left one first.
private theorem run_resolve_two (left right : Piece) :
    let popped := stateOf (codeOf (right :: left :: rest)) (entriesOf rest) scopes events
    (∃ failure, left.settle scopes = .error failure ∧
      (resolve (left.entry (codeOf rest).length)).run popped = .error failure popped) ∨
    ∃ leftTy leftSegment middle producer, left.settle scopes = .ok (leftTy, leftSegment) ∧
      (resolve (left.entry (codeOf rest).length)).run popped = .ok (leftTy, producer) middle ∧
      ((∃ failure, right.settle scopes = .error failure ∧
        (resolve (right.entry (codeOf (left :: rest)).length)).run middle =
          .error failure middle) ∨
      ∃ rightTy rightSegment producer new, right.settle scopes = .ok (rightTy, rightSegment) ∧
        (resolve (right.entry (codeOf (left :: rest)).length)).run middle =
          .ok (rightTy, producer) (stateOf (codeOf rest ++ (leftSegment.code 0 ++
            rightSegment.code 0)) (entriesOf rest) scopes (new ++ events))) := by
  have hcode : codeOf (right :: left :: rest) = codeOf rest ++ left.code ++ right.code := rfl
  dsimp only
  rw [hcode]
  cases hleft : left.settle scopes with
  | error failure => exact .inl ⟨failure, rfl, run_resolve_error rfl hleft⟩
  | ok settled =>
      obtain ⟨leftTy, leftSegment⟩ := settled
      obtain ⟨new, hrun⟩ := @run_resolve_ok (entriesOf rest) scopes events (codeOf rest) right.code _
        leftTy leftSegment left rfl hleft
      refine .inr ⟨leftTy, leftSegment, _, _, rfl, hrun, ?_⟩
      -- settling the left operand keeps the number of instructions below the right one
      have hlength : (codeOf (left :: rest)).length =
          (codeOf rest ++ leftSegment.code 0).length := by
        simp only [codeOf, List.length_append, Piece.length_code_settle hleft]
      rw [← List.append_nil (codeOf rest ++ leftSegment.code 0 ++ right.code)]
      cases hright : right.settle scopes with
      | error failure => exact .inl ⟨failure, rfl, run_resolve_error hlength hright⟩
      | ok settled =>
          obtain ⟨rightTy, rightSegment⟩ := settled
          obtain ⟨more, hrun⟩ := @run_resolve_ok (entriesOf rest) scopes (new ++ events)
            (codeOf rest ++ leftSegment.code 0) [] _ rightTy rightSegment right hlength hright
          simp only [List.append_nil, ← List.append_assoc] at hrun
          simp only [List.append_assoc, List.append_nil] at hrun ⊢
          exact .inr ⟨rightTy, rightSegment, _, more ++ new, rfl, by rw [hrun, List.append_assoc]⟩

-- A sign that settles both operands, the left one first, and goes on with what they are.
theorem follows_two {left right : Piece} {next : Ty × Nat → Ty × Nat → Analysis Unit}
    {sign : Ty × Segment → Ty × Segment → Joined}
    (h : ∀ leftTy leftSegment rightTy rightSegment producer other new,
      Follows (Plan.put rest (sign (leftTy, leftSegment) (rightTy, rightSegment))) events
        ((next (leftTy, producer) (rightTy, other)).run (stateOf
          (codeOf rest ++ (leftSegment.code 0 ++ rightSegment.code 0)) (entriesOf rest) scopes
          (new ++ events)))) :
    Follows (Plan.put rest (left.settle scopes >>= fun first =>
        right.settle scopes >>= fun second => sign first second)) events
      ((pop >>= fun top => pop >>= fun below => resolve below >>= fun first =>
        resolve top >>= fun second => next first second).run
        (Plan.state ⟨right :: left :: rest, scopes⟩ events)) := by
  simp only [Plan.state, Plan.code, entriesOf, EStateM.run_bind, run_pop_cons]
  obtain ⟨failure, hleft, hrun⟩ |
    ⟨leftTy, leftSegment, middle, producer, hleft, hrun, ⟨failure, hright, hrun'⟩ |
      ⟨rightTy, rightSegment, producer', new, hright, hrun'⟩⟩ :=
    @run_resolve_two rest scopes events left right
  · simp only [hleft, hrun, error_bind]
    exact follows_error
  · simp only [hleft, hrun, hright, hrun', ok_bind, error_bind]
    exact follows_error
  · simp only [hleft, hrun, hright, hrun', ok_bind]
    exact h leftTy leftSegment rightTy rightSegment producer producer' new

theorem follows_arithmetic (op : Op) (token : Token) (left right : Piece) :
    Follows (Plan.put rest (Piece.arithmetic op token.shown token.position left right scopes))
      events ((arithmetic op token).run (Plan.state ⟨right :: left :: rest, scopes⟩ events)) := by
  refine follows_two fun leftTy leftSegment rightTy rightSegment producer other new => ?_
  dsimp only
  cases hnumeric : leftTy.numeric? with
  | none => exact follows_error
  | some primitive =>
      dsimp only
      by_cases hsame : leftTy.same rightTy = true
      · simp only [hsame, if_true]
        exact follows_join new _ _ _ _ _ _
      · simp only [hsame]
        exact follows_error

theorem follows_tuple (token : Token) (left right : Piece) :
    Follows (Plan.put rest (Piece.tuple token.position left right scopes)) events
      ((tuple token).run (Plan.state ⟨right :: left :: rest, scopes⟩ events)) := by
  refine follows_two fun leftTy leftSegment rightTy rightSegment producer other new => ?_
  dsimp only
  cases happend : leftTy.append? rightTy with
  | none =>
      simp only [append, happend, inRange, EStateM.run_bind, run_ofExcept_error, error_bind]
      exact follows_error
  | some whole =>
      simp only [append, happend, inRange, EStateM.run_bind, run_ofExcept_ok, ok_bind]
      exact follows_join new _ _ _ _ _ _

theorem follows_sequence (token : Token) (left right : Piece) :
    Follows (Plan.put rest (Piece.sequence token.position left right scopes)) events
      ((sequence token).run (Plan.state ⟨right :: left :: rest, scopes⟩ events)) := by
  refine follows_two fun leftTy leftSegment rightTy rightSegment producer other new => ?_
  exact follows_join new _ _ _ _ _ _

-- The topmost piece, with any other values pending.
theorem run_resolve_top (piece : Piece) (pending : List Pending) :
    let popped := stateOf (codeOf (piece :: rest)) pending scopes events
    (∃ failure, piece.settle scopes = .error failure ∧
      (resolve (piece.entry (codeOf rest).length)).run popped = .error failure popped) ∨
    ∃ ty segment new, piece.settle scopes = .ok (ty, segment) ∧
      (resolve (piece.entry (codeOf rest).length)).run popped =
        .ok (ty, (codeOf rest).length + segment.init.length)
          (stateOf (codeOf rest ++ segment.code 0) pending scopes (new ++ events)) := by
  have hcode : codeOf (piece :: rest) = codeOf rest ++ piece.code ++ [] :=
    (List.append_nil _).symm
  dsimp only
  rw [hcode]
  cases hsettle : piece.settle scopes with
  | error failure => exact .inl ⟨failure, rfl, run_resolve_error rfl hsettle⟩
  | ok settled =>
      obtain ⟨ty, segment⟩ := settled
      obtain ⟨new, hrun⟩ := @run_resolve_ok pending scopes events (codeOf rest) [] _ ty segment
        piece rfl hsettle
      rw [List.append_nil (codeOf rest ++ segment.code 0)] at hrun
      exact .inr ⟨ty, segment, new, rfl, hrun⟩

-- A sign that settles its one operand and goes on with what it is.
theorem follows_one {piece : Piece} {next : Ty × Nat → Analysis Unit}
    {sign : Ty × Segment → Joined}
    (h : ∀ ty segment new, Follows (Plan.put rest (sign (ty, segment))) events
      ((next (ty, (codeOf rest).length + segment.init.length)).run
        (stateOf (codeOf rest ++ segment.code 0) (entriesOf rest) scopes (new ++ events)))) :
    Follows (Plan.put rest (piece.settle scopes >>= fun found => sign found)) events
      ((pop >>= fun top => resolve top >>= fun found => next found).run
        (Plan.state ⟨piece :: rest, scopes⟩ events)) := by
  simp only [Plan.state, Plan.code, entriesOf, EStateM.run_bind, run_pop_cons]
  obtain ⟨failure, hsettle, hrun⟩ | ⟨ty, segment, new, hsettle, hrun⟩ :=
    @run_resolve_top rest scopes events piece (entriesOf rest)
  · simp only [hsettle, hrun, error_bind]
    exact follows_error
  · simp only [hsettle, hrun, ok_bind]
    exact h ty segment new

theorem follows_negate (token : Token) (piece : Piece) :
    Follows (Plan.put rest (Piece.negate token.position piece scopes)) events
      ((negate token).run (Plan.state ⟨piece :: rest, scopes⟩ events)) := by
  refine follows_one fun ty segment new => ?_
  by_cases hnumeric : ty.numeric?.isSome = true
  · simp only [hnumeric, if_true]
    exact follows_join new _ _ _ _ _ _
  · simp only [hnumeric]
    exact follows_error

theorem follows_blockEnd (piece : Piece) :
    Follows (Plan.put rest (Piece.blockEnd piece scopes)) events
      (blockEnd.run (Plan.state ⟨piece :: rest, scopes⟩ events)) := by
  refine follows_one fun ty segment new => ?_
  simp only [EStateM.run_bind, EStateM.run_get]
  cases hleave : scopes.leave with
  | error failure => exact follows_error
  | ok outer => exact ⟨new, rfl⟩

theorem follows_group (piece : Piece) :
    Follows (Plan.put rest (Piece.group piece scopes)) events
      (group.run (Plan.state ⟨piece :: rest, scopes⟩ events)) := by
  cases piece with
  | piped ty value callee => exact follows_error
  | single operand => cases operand <;> exact ⟨[], rfl⟩

private theorem run_elementsOf (ty : Ty) (position : Position) (state : State) :
    (elementsOf ty position).run state =
      match Piece.elementsOf ty position with
      | .ok found => .ok found state
      | .error failure => .error failure state := by
  unfold elementsOf Piece.elementsOf
  split
  · cases ty.elements? with
    | none => rfl
    | some elements =>
        cases elements with
        | nil => rfl
        | cons first rest =>
            simp only [inRange, EStateM.run_bind, run_ofExcept_ok, ok_bind]
            cases rest.zipIdx.find? fun entry => !entry.1.same first <;> rfl
  · rfl

theorem follows_array (token : Token) (piece : Piece) :
    Follows (Plan.put rest (Piece.array token.position piece scopes)) events
      ((array token).run (Plan.state ⟨piece :: rest, scopes⟩ events)) := by
  refine follows_one fun ty segment new => ?_
  simp only [EStateM.run_bind, run_elementsOf]
  cases Piece.elementsOf ty token.position with
  | error failure => exact follows_error
  | ok found =>
      exact ⟨.gathered ((codeOf rest).length + segment.init.length)
        (.array found.1 (UInt32.ofNat found.2)) :: new, rfl⟩

theorem follows_assign (token : Token) (left right : Piece) :
    Follows (Plan.put rest (Piece.assign token.position left right scopes)) events
      ((assign token).run (Plan.state ⟨right :: left :: rest, scopes⟩ events)) := by
  simp only [assign, Piece.assign, Plan.state, Plan.code, entriesOf, EStateM.run_bind,
    run_pop_cons]
  obtain ⟨failure, hsettle, hrun⟩ | ⟨ty, segment, new, hsettle, hrun⟩ :=
    @run_resolve_top (left :: rest) scopes events right (entriesOf rest)
  · simp only [hsettle, hrun, error_bind]
    exact follows_error
  · simp only [hsettle, hrun, ok_bind]
    cases left with
    | piped valueTy value callee => exact follows_error
    | single operand =>
        cases operand with
        | value valueTy code => exact follows_error
        | name name place =>
            have hcode : codeOf (.single (.name name place) :: rest) ++ segment.code 0 =
                codeOf rest ++ (Instruction.placeholder name place).placed 0 ::
                  segment.code 0 := by
              rw [codeOf, Piece.code, Operand.code_name, List.append_assoc, List.singleton_append]
            simp only [Piece.entry_name, hcode, EStateM.run_bind, run_placeholderAt]
            cases hsize : ty.close.size? with
            | none =>
                simp only [sizeOf, hsize, inRange, run_ofExcept_error, error_bind]
                exact follows_error
            | some size =>
                simp only [sizeOf, hsize, inRange, run_ofExcept_ok, ok_bind, EStateM.run_get]
                cases hdeclare : (scopes.allocate size).2.declare name
                    ⟨ty.close, .stack (scopes.allocate size).1⟩ place with
                | error failure =>
                    simp only [run_ofExcept_error, error_bind]
                    exact follows_error
                | ok declared =>
                    simp only [run_ofExcept_ok, ok_bind, EStateM.run_modify, run_instructionAt,
                      run_replace, record]
                    exact follows_join (.bound (codeOf rest).length name
                      (scopes.allocate size).1 :: new) _ _ _ _ _ _

theorem follows_call (new : List Event) (before behind : List Instruction) (placement : Int32)
    (argument : Ty) (position : Position) (callee : Operand) {start : Nat}
    (hstart : start = (codeOf rest ++ before).length) :
    Follows (Plan.put rest (Piece.call before behind placement argument position callee scopes))
      events ((call (callee.entry start) argument position).run
        (stateOf (codeOf rest ++ before ++ callee.code placement ++ behind) (entriesOf rest) scopes
          (new ++ events))) := by
  simp only [call, Piece.call, EStateM.run_bind]
  cases hsettle : callee.settleCallee scopes argument position with
  | error failure =>
      rw [run_resolveCallee_error hstart hsettle]
      exact follows_error
  | ok settled =>
      obtain ⟨ty, segment⟩ := settled
      obtain ⟨more, hrun⟩ := @run_resolveCallee_ok (entriesOf rest) scopes (new ++ events)
        (codeOf rest ++ before) behind _ ty segment callee argument position placement hstart hsettle
      rw [hrun]
      simp only [ok_bind]
      cases hresult : ty.result? with
      | none => exact follows_error
      | some result =>
          have hjoin := @follows_join rest scopes events (more ++ new)
            (before ++ segment.code placement ++ behind) .call result [ty, argument] .none position
          simpa only [List.append_assoc] using hjoin

theorem follows_completed (token : Token) (piece : Piece) :
    Follows (Plan.put rest (Piece.completed token.position piece scopes)) events
      ((completed token).run (Plan.state ⟨piece :: rest, scopes⟩ events)) := by
  simp only [completed, Plan.state, Plan.code, entriesOf, EStateM.run_bind, run_pop_cons]
  cases piece with
  | single operand => cases operand <;> exact follows_error
  | piped ty value callee =>
      have hcall := @follows_call rest scopes events [] (value.code gap) [] (backward ty) ty
        token.position callee ((codeOf rest).length + (value.init.length + 1))
        (by simp [Segment.code])
      simpa only [Piece.completed, codeOf, Piece.code, List.append_nil, List.nil_append,
        List.append_assoc, Piece.entry] using hcall

theorem follows_applied (token : Token) (left argument : Piece) :
    Follows (Plan.put rest (Piece.applied token.position left argument scopes)) events
      ((applied token).run (Plan.state ⟨argument :: left :: rest, scopes⟩ events)) := by
  simp only [applied, Piece.applied, Plan.state, Plan.code, entriesOf, EStateM.run_bind,
    run_pop_cons]
  obtain ⟨failure, hsettle, hrun⟩ | ⟨ty, segment, new, hsettle, hrun⟩ :=
    @run_resolve_top (left :: rest) scopes events argument (entriesOf rest)
  · simp only [hsettle, hrun, error_bind]
    exact follows_error
  · simp only [hsettle, hrun, ok_bind]
    cases left with
    | single operand =>
        have hcall := @follows_call rest scopes events new [] (segment.code 0) 0 ty token.position
          operand _ (congrArg List.length (List.append_nil (codeOf rest)).symm)
        rw [List.append_nil] at hcall
        cases operand <;> exact hcall
    | piped valueTy value callee =>
        simp only [Piece.entry, EStateM.run_bind]
        cases happend : valueTy.append? ty with
        | none =>
            simp only [append, happend, inRange, run_ofExcept_error, error_bind]
            exact follows_error
        | some whole =>
            simp only [append, happend, inRange, run_ofExcept_ok, ok_bind]
            have hcall := @follows_call rest scopes events new (value.code gap) (segment.code 0)
              (backward valueTy) whole token.position callee
              ((codeOf rest).length + (value.init.length + 1)) (by simp [Segment.code])
            simpa only [codeOf, Piece.code, List.append_assoc] using hcall

private theorem gap_ne_zero : gap ≠ 0 := by decide

private theorem Operand.producer_entry (operand : Operand) (start : Nat) :
    (operand.entry start).producer = start + operand.segment.init.length := by
  cases operand <;> rfl

-- The callee of a pipe, above a value that has been moved up already.
theorem follows_place (ty : Ty) (value : Segment) (size : UInt32) (hsize : ty.size? = some size)
    (callee : Piece) (new : List Event) {start : Nat}
    (hstart : start = (codeOf rest ++ value.code gap).length) :
    Follows ((match callee with
        | .single callee => .ok (.piped ty value callee)
        | .piped _ inner _ => .error (.plain (.placedTwice
            ((codeOf rest).length + (value.init.length + 1) + inner.init.length)))
        : Except Failure Piece).map fun piece => ⟨piece :: rest, scopes⟩) events
      ((do
        place (callee.entry start).producer (-(size.toInt32 + gap))
        push (.piped ty (callee.entry start) ((codeOf rest).length + value.init.length))
        : Analysis Unit).run
        (stateOf (codeOf rest ++ value.code gap ++ callee.code) (entriesOf rest) scopes
          (new ++ events))) := by
  subst hstart
  cases callee with
  | single operand =>
      have hcode : codeOf rest ++ value.code gap ++ (Piece.single operand).code =
          (codeOf rest ++ value.code gap ++ operand.segment.init) ++
            [operand.segment.last.placed 0] := by
        simp only [Piece.code, Operand.code, Segment.code, List.append_assoc]
      have hindex : ((Piece.single operand).entry (codeOf rest ++ value.code gap).length).producer =
          (codeOf rest ++ value.code gap ++ operand.segment.init).length := by
        simp only [Piece.entry, Operand.producer_entry, List.length_append]
      have hplace := @run_place (entriesOf rest) scopes (new ++ events)
        (codeOf rest ++ value.code gap ++ operand.segment.init) []
        (operand.segment.last.placed 0) (-(size.toInt32 + gap)) rfl
      rw [hcode, hindex, EStateM.run_bind, hplace]
      refine ⟨.placed (codeOf rest ++ value.code gap ++ operand.segment.init).length
        (-(size.toInt32 + gap)) :: new, ?_⟩
      simp [push, Plan.state, Plan.code, codeOf, entriesOf, Piece.code, Piece.entry, Operand.code,
        Segment.code, Instruction.placed, backward, hsize]
  | piped innerTy inner innerCallee =>
      have hcode : codeOf rest ++ value.code gap ++ (Piece.piped innerTy inner innerCallee).code =
          (codeOf rest ++ value.code gap ++ inner.init) ++
            inner.last.placed gap :: innerCallee.code (backward innerTy) := by
        simp [Piece.code, Segment.code]
      have hindex : ((Piece.piped innerTy inner innerCallee).entry
          (codeOf rest ++ value.code gap).length).producer =
            (codeOf rest ++ value.code gap ++ inner.init).length := by
        simp only [Piece.entry, Pending.producer, List.length_append]
      rw [hcode, hindex, EStateM.run_bind, run_place_twice _ _ _ _ gap_ne_zero]
      have hplaced : (codeOf rest ++ value.code gap ++ inner.init).length =
          (codeOf rest).length + (value.init.length + 1) + inner.init.length := by
        simp only [Segment.code, List.length_append, List.length_singleton]
      rw [hplaced]
      exact follows_error

theorem follows_pipe (value callee : Piece) :
    Follows (Plan.pipe ⟨callee :: value :: rest, scopes⟩) events
      (pipe.run (Plan.state ⟨callee :: value :: rest, scopes⟩ events)) := by
  simp only [pipe, Plan.pipe, Piece.pipe, Plan.state, Plan.code, entriesOf, EStateM.run_bind,
    run_pop_cons]
  have hcode : codeOf (callee :: value :: rest) = codeOf rest ++ value.code ++ callee.code := rfl
  rw [hcode]
  cases hvalue : value.settle scopes with
  | error failure =>
      rw [run_resolve_error rfl hvalue]
      exact follows_error
  | ok settled =>
      obtain ⟨ty, segment⟩ := settled
      obtain ⟨new, hrun⟩ := @run_resolve_ok (entriesOf rest) scopes events (codeOf rest) callee.code
        _ ty segment value rfl hvalue
      have hbelow : codeOf rest ++ segment.code 0 ++ callee.code =
          (codeOf rest ++ segment.init) ++ segment.last.placed 0 :: callee.code := by
        simp [Segment.code]
      have habove : (codeOf rest ++ segment.init) ++ segment.last.placed gap ::
          callee.code = codeOf rest ++ segment.code gap ++ callee.code := by
        simp [Segment.code]
      have hlength : (codeOf (value :: rest)).length =
          (codeOf rest ++ segment.code gap).length := by
        simp only [codeOf, List.length_append, ← Piece.length_code_settle hvalue, Segment.code,
          List.length_singleton]
      have hplace := @run_place (entriesOf rest) scopes (new ++ events)
        (codeOf rest ++ segment.init) callee.code (segment.last.placed 0) gap rfl
      rw [Instruction.placed_placed, habove, List.length_append] at hplace
      rw [hrun]
      simp only [hbelow, gap.eq_def.symm, hplace, ok_bind]
      cases hsize : ty.size? with
      | none =>
          simp only [sizeOf, hsize, inRange, run_ofExcept_error, error_bind]
          exact follows_error
      | some size =>
          simp only [sizeOf, hsize, inRange, run_ofExcept_ok, ok_bind]
          exact follows_place ty segment size hsize callee
            (.placed ((codeOf rest).length + segment.init.length) gap :: new) hlength

theorem follows_member (token : Token) (subject field : Piece) :
    Follows (Plan.put rest (Piece.member token.position subject field scopes)) events
      ((member token).run (Plan.state ⟨field :: subject :: rest, scopes⟩ events)) := by
  simp only [member, Piece.member, Plan.state, Plan.code, entriesOf, EStateM.run_bind,
    run_pop_cons]
  cases field with
  | piped ty value callee => exact follows_error
  | single operand =>
      cases operand with
      | value ty code => exact follows_error
      | name name place =>
          have hcode : codeOf (.single (.name name place) :: subject :: rest) =
              codeOf (subject :: rest) ++
                [(Instruction.placeholder name place).placed 0] := rfl
          simp only [Piece.entry_name, EStateM.run_bind, hcode, run_placeholderAt]
          have hsubject : codeOf (subject :: rest) = codeOf rest ++ subject.code := rfl
          cases hsettle : subject.settle scopes with
          | error failure =>
              rw [hsubject, run_resolve_error rfl hsettle]
              exact follows_error
          | ok settled =>
              obtain ⟨ty, segment⟩ := settled
              obtain ⟨new, hrun⟩ := @run_resolve_ok (entriesOf rest) scopes events (codeOf rest)
                [(Instruction.placeholder name place).placed 0] _ ty segment subject rfl
                hsettle
              have hlength : (codeOf (subject :: rest)).length =
                  (codeOf rest ++ segment.code 0).length := by
                simp only [codeOf, List.length_append, Piece.length_code_settle hsettle]
              rw [hlength, hsubject, hrun]
              simp only [ok_bind]
              cases (if ty.isTuple = true then ty.member? name else none) with
              | none => exact follows_error
              | some row =>
                  simp only [EStateM.run_bind, run_instructionAt, run_replace]
                  cases Ty.inner? ty.atoms row.index.toNat with
                  | none => exact follows_error
                  | some inner =>
                      simp only [inRange, run_ofExcept_ok, ok_bind]
                      have hjoin := @follows_join rest scopes events new (segment.code 0 ++
                        [Piece.spent name place .undecided]) .member inner [ty]
                        (.member row.offset) token.position
                      rwa [← List.append_assoc] at hjoin

end Signs

section Steps

variable {events : List Event}

theorem follows_unary (handler : Analysis Unit) (sign : Piece → Scopes → Joined) (plan : Plan)
    (hnone : Follows (.error (.plain .missingOperands)) events
      (handler.run (Plan.state ⟨[], plan.scopes⟩ events)))
    (hone : ∀ piece rest, Follows (Plan.put rest (sign piece plan.scopes)) events
      (handler.run (Plan.state ⟨piece :: rest, plan.scopes⟩ events))) :
    Follows (plan.unary sign) events (handler.run (plan.state events)) := by
  obtain ⟨pieces, scopes⟩ := plan
  cases pieces with
  | nil => exact hnone
  | cons piece rest => exact hone piece rest

theorem follows_binary (handler : Analysis Unit) (sign : Piece → Piece → Scopes → Joined)
    (plan : Plan)
    (hnone : Follows (.error (.plain .missingOperands)) events
      (handler.run (Plan.state ⟨[], plan.scopes⟩ events)))
    (hone : ∀ piece, Follows (.error (.plain .missingOperands)) events
      (handler.run (Plan.state ⟨[piece], plan.scopes⟩ events)))
    (htwo : ∀ left right rest, Follows (Plan.put rest (sign left right plan.scopes)) events
      (handler.run (Plan.state ⟨right :: left :: rest, plan.scopes⟩ events))) :
    Follows (plan.binary sign) events (handler.run (plan.state events)) := by
  obtain ⟨pieces, scopes⟩ := plan
  cases pieces with
  | nil => exact hnone
  | cons right rest =>
      cases rest with
      | nil => exact hone right
      | cons left rest => exact htwo left right rest

theorem follows_handle (token : Token) (plan : Plan) (h : Plan.ends token = false) :
    Follows (plan.step token) events ((handle token).run (plan.state events)) := by
  obtain ⟨kind, arity, text, position⟩ := token
  cases kind with
  | number =>
      cases arity with
      | nullary => exact follows_number _
      | _ => exact follows_error
  | name =>
      cases arity with
      | nullary => exact follows_name _
      | _ => exact follows_error
  | assign =>
      cases arity with
      | binary =>
          exact follows_binary _ _ plan follows_error (fun _ => follows_error)
            fun left right _ => follows_assign _ left right
      | _ => exact follows_error
  | plus =>
      cases arity with
      | binary =>
          exact follows_binary _ _ plan follows_error (fun _ => follows_error)
            fun left right _ => follows_arithmetic .add _ left right
      | _ => exact follows_error
  | minus =>
      cases arity with
      | binary =>
          exact follows_binary _ _ plan follows_error (fun _ => follows_error)
            fun left right _ => follows_arithmetic .sub _ left right
      | rightUnary =>
          exact follows_unary _ _ plan follows_error fun piece _ => follows_negate _ piece
      | _ => exact follows_error
  | star =>
      cases arity with
      | binary =>
          exact follows_binary _ _ plan follows_error (fun _ => follows_error)
            fun left right _ => follows_arithmetic .mul _ left right
      | _ => exact follows_error
  | comma =>
      cases arity with
      | binary =>
          exact follows_binary _ _ plan follows_error (fun _ => follows_error)
            fun left right _ => follows_tuple _ left right
      | _ => exact follows_error
  | call =>
      cases arity with
      | binary =>
          exact follows_binary _ _ plan follows_error (fun _ => follows_error)
            fun left argument _ => follows_applied _ left argument
      | leftUnary =>
          exact follows_unary _ _ plan follows_error fun piece _ => follows_completed _ piece
      | _ => exact follows_error
  | pipe =>
      cases arity with
      | binary =>
          obtain ⟨pieces, scopes⟩ := plan
          match pieces with
          | [] => exact follows_error
          | [_] => exact follows_error
          | callee :: value :: _ => exact follows_pipe value callee
      | _ => exact follows_error
  | member =>
      cases arity with
      | binary =>
          exact follows_binary _ _ plan follows_error (fun _ => follows_error)
            fun subject field _ => follows_member _ subject field
      | _ => exact follows_error
  | group =>
      cases arity with
      | leftUnary => exact follows_unary _ _ plan follows_error fun piece _ => follows_group piece
      | _ => exact follows_error
  | array =>
      cases arity with
      | leftUnary =>
          exact follows_unary _ _ plan follows_error fun piece _ => follows_array _ piece
      | _ => exact follows_error
  | sequence =>
      cases arity with
      | binary =>
          exact follows_binary _ _ plan follows_error (fun _ => follows_error)
            fun left right _ => follows_sequence _ left right
      | _ => exact follows_error
  | blockBegin =>
      cases arity with
      | nullary => exact ⟨[], rfl⟩
      | _ => exact follows_error
  | blockEnd =>
      cases arity with
      | leftUnary =>
          exact follows_unary _ _ plan follows_error fun piece _ => follows_blockEnd piece
      | _ => exact follows_error
  | finish =>
      cases arity with
      | leftUnary => simp [Plan.ends] at h
      | _ => exact follows_error

private theorem entriesOf_eq_nil {pieces : List Piece} : entriesOf pieces = [] ↔ pieces = [] := by
  cases pieces <;> simp [entriesOf]

private theorem length_entriesOf (pieces : List Piece) :
    (entriesOf pieces).length = pieces.length := by
  induction pieces with
  | nil => rfl
  | cons piece rest ih => simp [entriesOf, ih]

-- The token at the end leaves the instructions of the program in the state.
theorem run_finish (literals : Pool) (token : Token) (plan : Plan) :
    match plan.finish literals token with
    | .ok program => ∃ new, (finish token).run (plan.state events) =
        .ok () ⟨program.instructions, [], plan.scopes, true, new ++ events⟩ ∧
          program.literals = literals ∧ program.frameSize = plan.scopes.frameSize
    | .error failure => ∃ state, (finish token).run (plan.state events) = .error failure state := by
  obtain ⟨pieces, scopes⟩ := plan
  cases pieces with
  | nil => exact ⟨_, rfl⟩
  | cons piece rest =>
      simp only [finish, Plan.finish, Plan.state, Plan.code, entriesOf, EStateM.run_bind,
        run_pop_cons]
      obtain ⟨failure, hsettle, hrun⟩ | ⟨ty, segment, new, hsettle, hrun⟩ :=
        @run_resolve_top rest scopes events piece (entriesOf rest)
      · simp only [hsettle, hrun, error_bind]
        exact ⟨_, rfl⟩
      · simp only [hsettle, hrun, ok_bind, EStateM.run_get, ne_eq, entriesOf_eq_nil,
          length_entriesOf]
        by_cases hrest : rest = []
        · subst hrest
          by_cases hdepth : scopes.depth = 1
          · simp only [hdepth, not_true_eq_false, if_false]
            refine ⟨.emitted (segment.code 0).length ⟨.finish, ty, [ty], .none, 0, token.position⟩ ::
              new, ?_, trivial, trivial⟩
            simp [emit, record, codeOf, entriesOf]
          · simp only [hdepth, not_true_eq_false, not_false_eq_true, if_false, if_true]
            exact ⟨_, rfl⟩
        · simp only [hrest, not_false_eq_true, if_true]
          exact ⟨_, rfl⟩

-- What comes out at the end, apart from the events.
def outcome {α : Type} : EStateM.Result Failure State α → Except Failure α
  | .ok value _ => .ok value
  | .error failure _ => .error failure

theorem run_handleAll_cons (token : Token) (rest : List Token) (plan : Plan) :
    (handleAll (token :: rest)).run (plan.state events) =
      match (handle token).run (plan.state events) with
      | .ok _ state => (handleAll rest).run state
      | .error failure state => .error failure state := by
  have hrunning : (plan.state events).finished = false := rfl
  simp only [handleAll, EStateM.run_bind, EStateM.run_get, hrunning, Bool.false_eq_true, if_false]
  cases (handle token).run (plan.state events) <;> rfl

theorem run_program (literals : Pool) (tokens : List Token) (state : State) :
    outcome ((program literals tokens).run state) =
      match (handleAll tokens).run state with
      | .ok _ state => .ok ⟨state.instructions, literals, state.scopes.frameSize⟩
      | .error failure _ => .error failure := by
  simp only [program, EStateM.run_bind, EStateM.run_get]
  cases (handleAll tokens).run state <;> rfl

private theorem outcome_program (literals : Pool) (tokens : List Token) (plan : Plan) :
    outcome ((program literals tokens).run (plan.state events)) =
      plan.assemble literals tokens := by
  induction tokens generalizing plan events with
  | nil => rfl
  | cons token rest ih =>
      rw [run_program, run_handleAll_cons, Plan.assemble]
      cases hends : Plan.ends token with
      | false =>
          have hfollows := @follows_handle events token plan hends
          cases hstep : plan.step token with
          | error failure =>
              obtain ⟨state, hrun⟩ := hstep ▸ hfollows
              rw [hrun]
              rfl
          | ok next =>
              obtain ⟨new, hrun⟩ := hstep ▸ hfollows
              rw [hrun, ok_bind, ← ih next, run_program]
              rfl
      | true =>
          obtain ⟨hkind, harity⟩ : token.kind = .finish ∧ token.arity = .leftUnary := by
            simpa [Plan.ends] using hends
          have hhandle : handle token = finish token := by
            unfold handle
            rw [hkind, harity]
          have hfinish := @run_finish events literals token plan
          rw [hhandle]
          cases hplan : plan.finish literals token with
          | error failure =>
              obtain ⟨state, hrun⟩ := hplan ▸ hfinish
              rw [hrun]
              rfl
          | ok program =>
              obtain ⟨new, hrun, hliterals, hframe⟩ := hplan ▸ hfinish
              rw [hrun, if_pos rfl, ok_bind]
              cases rest with
              | nil =>
                  subst hliterals
                  simp only [handleAll, EStateM.run_bind, EStateM.run_get, not_true_eq_false,
                    if_false, EStateM.run_pure, ← hframe]
              | cons extra rest =>
                  simp only [handleAll, EStateM.run_bind, EStateM.run_get, if_true, run_defect]

end Steps

-- Compiling is cutting into pieces and joining them.
theorem compile_eq_assemble (library : Library) (tokens : List Token) :
    (compile library tokens).2 =
      (do
        let (scopes, literals) ← Scopes.ofLibrary library
        Plan.assemble literals tokens ⟨[], scopes⟩) := by
  cases hroot : Scopes.ofLibrary library with
  | error failure => simp [compile, hroot]
  | ok root =>
      obtain ⟨scopes, literals⟩ := root
      have hprogram := @outcome_program [] literals tokens ⟨[], scopes⟩
      simp only [compile, hroot, ok_bind, ← hprogram]
      have hstate : Plan.state ⟨[], scopes⟩ [] = ⟨#[], [], scopes, false, []⟩ := rfl
      rw [hstate]
      cases (program literals tokens).run ⟨#[], [], scopes, false, []⟩ <;> rfl

end Analysis

end Sluice

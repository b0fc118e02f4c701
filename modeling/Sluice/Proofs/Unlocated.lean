import Mathlib
import Sluice.Proofs.Build
import Sluice.Proofs.Execution
import Sluice.Proofs.Reading

namespace Sluice

def Instruction.unlocated (instruction : Instruction) : Instruction :=
  { instruction with position := .start }

def Failure.unlocated (failure : Failure) : Failure :=
  ⟨failure.problem, failure.position.map fun _ => .start⟩

def Program.unlocated (program : Program) : Program :=
  { program with instructions := program.instructions.map Instruction.unlocated }

section Outcomes

variable {α β γ δ : Type}

-- An outcome without places.
def unlocate (forget : α → β) : Except Failure α → Except Failure β
  | .ok value => .ok (forget value)
  | .error failure => .error failure.unlocated

theorem unlocate_bind {first : Except Failure α} {next : α → Except Failure β}
    {first' : Except Failure γ} {next' : γ → Except Failure δ} {f : α → γ} {g : β → δ}
    (hfirst : first' = unlocate f first)
    (hnext : ∀ value, next' (f value) = unlocate g (next value)) :
    (first' >>= next') = unlocate g (first >>= next) := by
  subst hfirst
  cases first with
  | error failure => rfl
  | ok value => exact hnext value

theorem inRange_unlocated (value : Option α) : inRange value = unlocate id (inRange value) := by
  cases value <;> rfl

theorem inRange_bind_unlocated {value : Option α} {next : α → Except Failure β}
    {next' : α → Except Failure δ} {g : β → δ}
    (hnext : ∀ value, next' value = unlocate g (next value)) :
    (inRange value >>= next') = unlocate g (inRange value >>= next) :=
  unlocate_bind (inRange_unlocated value) hnext

end Outcomes

theorem Scopes.declare_unlocated (scopes : Scopes) (name : String) (binding : Binding)
    (position : Position) :
    scopes.declare name binding .start = unlocate id (scopes.declare name binding position) := by
  unfold declare
  split <;> rfl

theorem Scopes.leave_unlocated (scopes : Scopes) : scopes.leave = unlocate id scopes.leave := by
  unfold leave
  split <;> rfl

namespace Analysis

def Segment.unlocated (segment : Segment) : Segment :=
  ⟨segment.init.map Instruction.unlocated, segment.last.unlocated⟩

def Operand.unlocated : Operand → Operand
  | .value ty segment => .value ty segment.unlocated
  | .name text _ => .name text .start

def Piece.unlocated : Piece → Piece
  | .single operand => .single operand.unlocated
  | .piped ty value callee => .piped ty value.unlocated callee.unlocated

-- A value and its code, and an operand and its scopes.
def settledUnlocated (found : Ty × Segment) : Ty × Segment := (found.1, found.2.unlocated)

def builtUnlocated (found : Operand × Scopes) : Operand × Scopes := (found.1.unlocated, found.2)

theorem Segment.code_unlocated (segment : Segment) (placement : Int32) :
    segment.unlocated.code placement = (segment.code placement).map Instruction.unlocated := by
  simp only [Segment.code, Segment.unlocated, List.map_append, List.map_cons, List.map_nil]
  rfl

theorem join_unlocated (scopes : Scopes) (before : List Instruction) (op : Op) (result : Ty)
    (operands : List Ty) (payload : Payload) (position : Position) :
    join scopes (before.map Instruction.unlocated) op result operands payload .start =
      unlocate builtUnlocated (join scopes before op result operands payload position) := rfl

section Signs

variable {scopes : Scopes} {position : Position}

theorem Operand.settle_unlocated (operand : Operand) :
    operand.unlocated.settle scopes = unlocate settledUnlocated (operand.settle scopes) := by
  cases operand with
  | value ty segment => rfl
  | name text place =>
      simp only [Operand.unlocated, Operand.settle]
      split <;> rfl

theorem Piece.settle_unlocated (piece : Piece) :
    piece.unlocated.settle scopes = unlocate settledUnlocated (piece.settle scopes) := by
  cases piece with
  | single operand => exact operand.settle_unlocated
  | piped ty value callee => rfl

theorem Operand.settleCallee_unlocated (operand : Operand) (argument : Ty) :
    operand.unlocated.settleCallee scopes argument .start =
      unlocate settledUnlocated (operand.settleCallee scopes argument position) := by
  cases operand with
  | value ty segment =>
      simp only [Operand.unlocated, Operand.settleCallee]
      split
      · rfl
      · refine inRange_bind_unlocated fun isMatch => ?_
        split <;> rfl
  | name text place =>
      simp only [Operand.unlocated, Operand.settleCallee]
      split <;> rfl

theorem Piece.number_unlocated (text : String) :
    Piece.number text .start scopes =
      unlocate builtUnlocated (Piece.number text position scopes) := by
  unfold Piece.number
  split
  · split <;> rfl
  · split
    · rfl
    · split <;> rfl

theorem Piece.assign_unlocated (left right : Piece) :
    Piece.assign .start left.unlocated right.unlocated scopes =
      unlocate builtUnlocated (Piece.assign position left right scopes) := by
  refine unlocate_bind right.settle_unlocated fun ⟨ty, segment⟩ => ?_
  match left with
  | .single (.name name place) =>
      refine inRange_bind_unlocated fun size => ?_
      refine unlocate_bind (Scopes.declare_unlocated _ _ _ place) fun declared => ?_
      rw [← join_unlocated, List.map_cons, ← Segment.code_unlocated]
      rfl
  | .single (.value _ _) => rfl
  | .piped _ _ _ => rfl

theorem Piece.arithmetic_unlocated (op : Op) (sign : String) (left right : Piece) :
    Piece.arithmetic op sign .start left.unlocated right.unlocated scopes =
      unlocate builtUnlocated (Piece.arithmetic op sign position left right scopes) := by
  refine unlocate_bind left.settle_unlocated fun ⟨leftTy, leftSegment⟩ => ?_
  refine unlocate_bind right.settle_unlocated fun ⟨rightTy, rightSegment⟩ => ?_
  dsimp only [settledUnlocated]
  split
  · split
    · rw [← join_unlocated, List.map_append, ← Segment.code_unlocated, ← Segment.code_unlocated]
    · rfl
  · rfl

theorem Piece.negate_unlocated (piece : Piece) :
    Piece.negate .start piece.unlocated scopes =
      unlocate builtUnlocated (Piece.negate position piece scopes) := by
  refine unlocate_bind piece.settle_unlocated fun ⟨ty, segment⟩ => ?_
  dsimp only [settledUnlocated]
  split
  · rw [← join_unlocated, ← Segment.code_unlocated]
  · rfl

theorem Piece.tuple_unlocated (left right : Piece) :
    Piece.tuple .start left.unlocated right.unlocated scopes =
      unlocate builtUnlocated (Piece.tuple position left right scopes) := by
  refine unlocate_bind left.settle_unlocated fun ⟨leftTy, leftSegment⟩ => ?_
  refine unlocate_bind right.settle_unlocated fun ⟨rightTy, rightSegment⟩ => ?_
  refine inRange_bind_unlocated fun whole => ?_
  rw [← join_unlocated, List.map_append, ← Segment.code_unlocated, ← Segment.code_unlocated]

theorem Piece.call_unlocated (before behind : List Instruction) (placement : Int32)
    (argument : Ty) (callee : Operand) :
    Piece.call (before.map Instruction.unlocated) (behind.map Instruction.unlocated) placement
        argument .start callee.unlocated scopes =
      unlocate builtUnlocated
        (Piece.call before behind placement argument position callee scopes) := by
  refine unlocate_bind (callee.settleCallee_unlocated argument) fun ⟨ty, segment⟩ => ?_
  dsimp only [settledUnlocated]
  split
  · rfl
  · rw [← join_unlocated, List.map_append, List.map_append, ← Segment.code_unlocated]

theorem Piece.applied_unlocated (left argument : Piece) :
    Piece.applied .start left.unlocated argument.unlocated scopes =
      unlocate builtUnlocated (Piece.applied position left argument scopes) := by
  refine unlocate_bind argument.settle_unlocated fun ⟨ty, segment⟩ => ?_
  match left with
  | .single callee =>
      have hcall := @Piece.call_unlocated scopes position [] (segment.code 0) 0 ty callee
      rw [← Segment.code_unlocated] at hcall
      exact hcall
  | .piped valueTy value callee =>
      refine inRange_bind_unlocated fun whole => ?_
      rw [← Piece.call_unlocated, ← Segment.code_unlocated, ← Segment.code_unlocated]

theorem Piece.completed_unlocated (piece : Piece) :
    Piece.completed .start piece.unlocated scopes =
      unlocate builtUnlocated (Piece.completed position piece scopes) := by
  match piece with
  | .single _ => rfl
  | .piped ty value callee =>
      have hcall := @Piece.call_unlocated scopes position (value.code gap) [] (backward ty) ty
        callee
      rw [← Segment.code_unlocated] at hcall
      exact hcall

theorem Operand.piping_unlocated (value callee : Operand) :
    value.unlocated.piping callee.unlocated scopes =
      unlocate Piece.unlocated (value.piping callee scopes) := by
  refine unlocate_bind value.settle_unlocated fun ⟨ty, segment⟩ => ?_
  exact inRange_bind_unlocated fun size => rfl

theorem Piece.member_unlocated (subject field : Piece) :
    Piece.member .start subject.unlocated field.unlocated scopes =
      unlocate builtUnlocated (Piece.member position subject field scopes) := by
  match field with
  | .single (.name name place) =>
      refine unlocate_bind subject.settle_unlocated fun ⟨ty, segment⟩ => ?_
      dsimp only [settledUnlocated]
      split
      · rfl
      · refine inRange_bind_unlocated fun inner => ?_
        rw [← join_unlocated, List.map_append, ← Segment.code_unlocated]
        rfl
  | .single (.value _ _) => rfl
  | .piped _ _ _ => rfl

theorem Piece.group_unlocated (piece : Piece) :
    Piece.group piece.unlocated scopes = unlocate builtUnlocated (Piece.group piece scopes) := by
  match piece with
  | .single (.name _ _) | .single (.value _ _) | .piped _ _ _ => rfl

theorem Piece.elementsOf_unlocated (ty : Ty) :
    Piece.elementsOf ty .start = unlocate id (Piece.elementsOf ty position) := by
  unfold Piece.elementsOf
  split
  · refine inRange_bind_unlocated fun elements => ?_
    match elements with
    | [] => rfl
    | first :: rest =>
        dsimp only
        split <;> rfl
  · rfl

theorem Piece.array_unlocated (piece : Piece) :
    Piece.array .start piece.unlocated scopes =
      unlocate builtUnlocated (Piece.array position piece scopes) := by
  refine unlocate_bind piece.settle_unlocated fun ⟨ty, segment⟩ => ?_
  exact unlocate_bind (Piece.elementsOf_unlocated ty) fun found => rfl

theorem Piece.sequence_unlocated (left right : Piece) :
    Piece.sequence .start left.unlocated right.unlocated scopes =
      unlocate builtUnlocated (Piece.sequence position left right scopes) := by
  refine unlocate_bind left.settle_unlocated fun ⟨leftTy, leftSegment⟩ => ?_
  refine unlocate_bind right.settle_unlocated fun ⟨rightTy, rightSegment⟩ => ?_
  rw [← join_unlocated, List.map_append, ← Segment.code_unlocated, ← Segment.code_unlocated]
  rfl

theorem Piece.blockEnd_unlocated (piece : Piece) :
    Piece.blockEnd piece.unlocated scopes =
      unlocate builtUnlocated (Piece.blockEnd piece scopes) := by
  refine unlocate_bind piece.settle_unlocated fun ⟨ty, segment⟩ => ?_
  exact unlocate_bind scopes.leave_unlocated fun outer => rfl

theorem Plan.finish_unlocated (literals : Pool) (operand : Operand) :
    Plan.finish literals ⟨.finish, .leftUnary, "", .start⟩ ⟨[.single operand.unlocated], scopes⟩ =
      unlocate Program.unlocated (Plan.finish literals ⟨.finish, .leftUnary, "", position⟩
        ⟨[.single operand], scopes⟩) := by
  refine unlocate_bind operand.settle_unlocated fun ⟨ty, segment⟩ => ?_
  simp only [settledUnlocated, ne_eq, not_true_eq_false, if_false, Segment.code_unlocated]
  split
  · rfl
  · simp [unlocate, Program.unlocated, Instruction.unlocated]

end Signs

end Analysis

namespace Expr

open Analysis

theorem sign_unlocated (operator : Operator) {position : Position} {scopes : Scopes}
    (left right : Piece) :
    sign operator .start left.unlocated right.unlocated scopes =
      unlocate builtUnlocated (sign operator position left right scopes) := by
  cases operator with
  | sequence => exact Piece.sequence_unlocated left right
  | assign => exact Piece.assign_unlocated left right
  | comma => exact Piece.tuple_unlocated left right
  | plus => exact Piece.arithmetic_unlocated _ _ left right
  | minus => exact Piece.arithmetic_unlocated _ _ left right
  | star => exact Piece.arithmetic_unlocated _ _ left right
  | call => exact Piece.applied_unlocated left right

theorem build_unlocated (expr : Expr) (scopes : Scopes) :
    expr.unlocated.build scopes = unlocate builtUnlocated (expr.build scopes) := by
  induction expr generalizing scopes with
  | number text position => exact Piece.number_unlocated text
  | name text position => rfl
  | negate operand position ih =>
      exact unlocate_bind (ih scopes) fun ⟨value, _⟩ => Piece.negate_unlocated (.single value)
  | binary operator left right position ihleft ihright =>
      refine unlocate_bind (ihleft scopes) fun ⟨first, middle⟩ => ?_
      exact unlocate_bind (ihright middle) fun ⟨second, _⟩ =>
        sign_unlocated operator (.single first) (.single second)
  | pipe value callee position ihvalue ihcallee =>
      refine unlocate_bind (ihvalue scopes) fun ⟨first, middle⟩ => ?_
      refine unlocate_bind (ihcallee middle) fun ⟨second, built⟩ => ?_
      exact unlocate_bind (first.piping_unlocated second) fun _ => Piece.completed_unlocated _
  | pipeWith value callee argument position ihvalue ihcallee ihargument =>
      refine unlocate_bind (ihvalue scopes) fun ⟨first, middle⟩ => ?_
      refine unlocate_bind (ihcallee middle) fun ⟨second, behind⟩ => ?_
      refine unlocate_bind (first.piping_unlocated second) fun piped => ?_
      exact unlocate_bind (ihargument behind) fun ⟨third, _⟩ =>
        Piece.applied_unlocated piped (.single third)
  | member subject field position ih =>
      refine unlocate_bind (ih scopes) fun ⟨value, middle⟩ => ?_
      exact Piece.member_unlocated (.single value) (.single (.name field position))
  | bracketed bracket inner opened closed ih =>
      cases bracket with
      | round =>
          exact unlocate_bind (ih scopes) fun ⟨value, _⟩ => Piece.group_unlocated (.single value)
      | square =>
          exact unlocate_bind (ih scopes) fun ⟨value, _⟩ => Piece.array_unlocated (.single value)
      | curly =>
          exact unlocate_bind (ih scopes.enter) fun ⟨value, _⟩ =>
            Piece.blockEnd_unlocated (.single value)

end Expr

-- The machine does not look at places.
theorem Machine.run_unlocated (literals : Pool) (library : Library) (code : List Instruction)
    (index : Nat) (store : Store) :
    (Machine.run literals library index store (code.map Instruction.unlocated)).2 =
      (Machine.run literals library index store code).2 := by
  induction code generalizing index store with
  | nil => rfl
  | cons instruction code ih =>
      have hstep : Machine.step literals library store instruction.unlocated =
          Machine.step literals library store instruction := rfl
      rw [List.map_cons, Machine.run, Machine.run, hstep]
      split
      · rfl
      · rfl
      · exact ih ..

theorem Program.run_unlocated (program : Program) (library : Library) :
    program.unlocated.run library = program.run library := by
  unfold Program.run Program.trace Program.unlocated
  rw [Array.toList_map]
  exact Machine.run_unlocated ..

end Sluice

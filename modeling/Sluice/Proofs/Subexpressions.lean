import Mathlib
import Sluice.Proofs.Arrangement
import Sluice.Proofs.Build

namespace Sluice

namespace Expr

-- The parts of an expression, each with the tokens in front of its own.
def operands : Expr → List (List Token × Expr)
  | .number _ _ | .name _ _ => []
  | .negate operand _ => [([], operand)]
  | .binary _ left right _ => [([], left), (left.postfixTokens, right)]
  | .pipe value callee _ => [([], value), (value.postfixTokens, callee)]
  | .pipeWith value callee argument position =>
      [([], value), (value.postfixTokens, callee),
        (value.postfixTokens ++ callee.postfixTokens ++ [⟨.pipe, .binary, "|>", position⟩],
          argument)]
  | .member subject _ _ => [([], subject)]
  | .bracketed .curly inner opened _ => [([⟨.blockBegin, .nullary, "\x7b", opened⟩], inner)]
  | .bracketed _ inner _ _ => [([], inner)]

-- An expression at some place inside of another one, behind the tokens that come first.
inductive At : Expr → List Token → Expr → Prop
  | here (expr : Expr) : At expr [] expr
  | inside {expr part inner : Expr} {front between : List Token}
      (hpart : (front, part) ∈ expr.operands) (hinner : At part between inner) :
      At expr (front ++ between) inner

theorem At.part {expr part : Expr} {front : List Token} (h : (front, part) ∈ expr.operands) :
    expr.At front part := by
  rw [← List.append_nil front]
  exact .inside h (.here part)

private theorem postfixTokens_operand {expr part : Expr} {front : List Token}
    (h : (front, part) ∈ expr.operands) :
    ∃ behind, expr.postfixTokens = front ++ part.postfixTokens ++ behind := by
  cases expr with
  | number text position => contradiction
  | name text position => contradiction
  | negate operand position =>
      simp only [operands, List.mem_singleton, Prod.mk.injEq] at h
      obtain ⟨rfl, rfl⟩ := h
      exact ⟨_, rfl⟩
  | binary operator left right position =>
      simp only [operands, List.mem_cons, List.not_mem_nil, or_false, Prod.mk.injEq] at h
      rcases h with ⟨rfl, rfl⟩ | ⟨rfl, rfl⟩
      · exact ⟨_, by rw [postfixTokens, List.append_assoc, List.nil_append]⟩
      · exact ⟨_, rfl⟩
  | pipe value callee position =>
      simp only [operands, List.mem_cons, List.not_mem_nil, or_false, Prod.mk.injEq] at h
      rcases h with ⟨rfl, rfl⟩ | ⟨rfl, rfl⟩
      · exact ⟨_, by rw [postfixTokens, List.append_assoc, List.nil_append]⟩
      · exact ⟨_, rfl⟩
  | pipeWith value callee argument position =>
      simp only [operands, List.mem_cons, List.not_mem_nil, or_false, Prod.mk.injEq] at h
      rcases h with ⟨rfl, rfl⟩ | ⟨rfl, rfl⟩ | ⟨rfl, rfl⟩
      · exact ⟨_, by simp only [postfixTokens, List.append_assoc, List.nil_append]; rfl⟩
      · exact ⟨_, by simp only [postfixTokens, List.append_assoc]; rfl⟩
      · exact ⟨_, rfl⟩
  | member subject field position =>
      simp only [operands, List.mem_singleton, Prod.mk.injEq] at h
      obtain ⟨rfl, rfl⟩ := h
      exact ⟨_, rfl⟩
  | bracketed bracket inner opened closed =>
      cases bracket <;> simp only [operands, List.mem_singleton, Prod.mk.injEq] at h <;>
        obtain ⟨rfl, rfl⟩ := h <;> exact ⟨_, rfl⟩

theorem At.postfixTokens {expr inner : Expr} {front : List Token} (h : expr.At front inner) :
    ∃ behind, expr.postfixTokens = front ++ inner.postfixTokens ++ behind := by
  induction h with
  | here expr => exact ⟨[], by simp⟩
  | inside hpart hinner ih =>
      obtain ⟨behind, hbehind⟩ := ih
      obtain ⟨after, hafter⟩ := postfixTokens_operand hpart
      exact ⟨behind ++ after, by simp [hafter, hbehind]⟩

-- The parts of a juxtaposition: a pipe hands its own on.
private theorem operands_applied {callee argument part : Expr} {position : Position}
    {front : List Token} (h : (front, part) ∈ (applied callee argument position).operands) :
    part = callee ∨ part = argument ∨ ∃ between, (between, part) ∈ callee.operands := by
  cases callee with
  | pipe value inner place =>
      simp only [applied, operands, List.mem_cons, List.not_mem_nil, or_false, Prod.mk.injEq] at h
      rcases h with ⟨-, rfl⟩ | ⟨-, rfl⟩ | ⟨-, rfl⟩
      · exact .inr (.inr ⟨[], by simp [operands]⟩)
      · exact .inr (.inr ⟨value.postfixTokens, by simp [operands]⟩)
      · exact .inr (.inl rfl)
  | _ =>
      simp only [applied, operands, List.mem_cons, List.not_mem_nil, or_false, Prod.mk.injEq] at h
      rcases h with ⟨-, rfl⟩ | ⟨-, rfl⟩
      · exact .inl rfl
      · exact .inr (.inl rfl)

end Expr

namespace Arrangement

private theorem exists_of_operand {tree : Arrangement} (h : tree.Prescribed) {part : Expr}
    {front : List Token} (hpart : (front, part) ∈ tree.expr.operands) :
    ∃ inner : Arrangement, inner.Prescribed ∧ inner.expr = part := by
  induction tree generalizing front part with
  | number text position => contradiction
  | name text position => contradiction
  | negated position operand ih =>
      simp only [expr, Expr.operands, List.mem_singleton, Prod.mk.injEq] at hpart
      exact ⟨operand, h.1, hpart.2.symm⟩
  | linked sign position left right ihleft ihright =>
      have hparts : part = left.expr ∨ part = right.expr := by
        cases sign <;> simp only [expr, Sign.joined, Sign.link, Expr.operands, List.mem_cons,
          List.not_mem_nil, or_false, Prod.mk.injEq] at hpart <;>
          exact hpart.imp And.right And.right
      rcases hparts with rfl | rfl
      · exact ⟨left, h.1, rfl⟩
      · exact ⟨right, h.2.1, rfl⟩
  | juxtaposed left right ihleft ihright =>
      rw [expr_juxtaposed] at hpart
      rcases Expr.operands_applied hpart with rfl | rfl | ⟨between, hbetween⟩
      · exact ⟨left, h.1, rfl⟩
      · exact ⟨right, h.2.1, rfl⟩
      · exact ihleft h.1 hbetween
  | member subject dot field position isMember ih =>
      simp only [expr, Expr.operands, List.mem_singleton, Prod.mk.injEq] at hpart
      exact ⟨subject, h.1, hpart.2.symm⟩
  | bracketed bracket opened closed inner ih =>
      have hinner : part = inner.expr := by
        cases bracket <;>
          simp only [expr, Expr.operands, List.mem_singleton, Prod.mk.injEq] at hpart <;>
          exact hpart.2
      exact ⟨inner, h, hinner.symm⟩

theorem exists_of_at {tree : Arrangement} (h : tree.Prescribed) {inner : Expr} {front : List Token}
    (hinner : tree.expr.At front inner) :
    ∃ found : Arrangement, found.Prescribed ∧ found.expr = inner := by
  generalize hexpr : tree.expr = expr at hinner
  induction hinner generalizing tree with
  | here expr => exact ⟨tree, h, hexpr⟩
  | inside hpart hinner ih =>
      subst hexpr
      obtain ⟨found, hfound, rfl⟩ := exists_of_operand h hpart
      exact ih hfound rfl

-- A sign of its own has been written between its operands.
theorem eq_linked_of_expr {tree : Arrangement} {operator : Operator} {left right : Expr}
    {position : Position} (hcall : operator ≠ .call)
    (h : tree.expr = .binary operator left right position) :
    ∃ sign first second, tree = .linked sign position first second ∧
      sign.link = .sign operator ∧ first.expr = left ∧ second.expr = right := by
  cases tree with
  | linked sign place first second =>
      cases sign <;> simp_all [expr, Sign.joined, Sign.link]
  | juxtaposed first second =>
      rw [expr_juxtaposed] at h
      cases hfirst : first.expr <;> rw [hfirst] at h <;> simp_all [Expr.applied]
  | _ => simp_all [expr]

-- A semicolon gives way to a comma, so it is never the left side of one.
theorem left_of_comma {tree : Arrangement} (hprescribed : tree.Prescribed) {left right : Expr}
    {position : Position} (h : tree.expr = .binary .comma left right position) (first second : Expr)
    (place : Position) : left ≠ .binary .sequence first second place := by
  rintro rfl
  obtain ⟨sign, whole, rest, rfl, hsign, hwhole, -⟩ := eq_linked_of_expr (by decide) h
  obtain ⟨inner, before, behind, rfl, hinner, -, -⟩ := eq_linked_of_expr (by decide) hwhole
  have hpower := hprescribed.2.2.1.left inner.link.rightPower (by simp [rightPowers])
  rw [hsign, hinner] at hpower
  exact absurd hpower (by decide)

end Arrangement

namespace Analysis

-- The state that the analysis has come to behind some tokens.
def behind (root : Scopes) (tokens : List Token) : Except Failure State :=
  match (forM tokens handle).run ⟨#[], [], root, false, []⟩ with
  | .ok _ state => .ok state
  | .error failure _ => .error failure

-- The type that a sign would take for a pending value, the topmost one at depth 0.
def State.pendingType? (state : State) (depth : Nat) : Option Ty :=
  state.pending[depth]?.bind fun pending =>
    match (resolve pending).run state with
    | .ok found _ => some found.1
    | .error _ _ => none

private theorem run_forM_handle {tokens : List Token}
    (htokens : ∀ token ∈ tokens, Plan.ends token = false)
    {plan next : Plan} (h : plan.steps tokens = .ok next) (events : List Event) :
    ∃ new, (forM tokens handle).run (plan.state events) = .ok () (next.state (new ++ events)) := by
  induction tokens generalizing plan events with
  | nil =>
      cases h
      exact ⟨[], rfl⟩
  | cons token rest ih =>
      obtain ⟨htoken, hrest⟩ := List.forall_mem_cons.mp htokens
      rw [Plan.steps_cons] at h
      obtain ⟨middle, hstep, h⟩ := bind_eq_ok.mp h
      have hfollows := @follows_handle events token plan htoken
      rw [hstep] at hfollows
      obtain ⟨first, hfirst⟩ := hfollows
      obtain ⟨others, hothers⟩ := ih hrest h (first ++ events)
      refine ⟨others ++ first, ?_⟩
      rw [List.forM_cons, EStateM.run_bind, hfirst, List.append_assoc]
      exact hothers

theorem behind_of_steps {root : Scopes} {tokens : List Token} {plan : Plan}
    (htokens : ∀ token ∈ tokens, Plan.ends token = false)
    (h : Plan.steps tokens ⟨[], root⟩ = .ok plan) :
    ∃ events, behind root tokens = .ok (plan.state events) := by
  obtain ⟨new, hrun⟩ := run_forM_handle htokens h []
  refine ⟨new ++ [], ?_⟩
  have hstart : Plan.state ⟨[], root⟩ [] = ⟨#[], [], root, false, []⟩ := rfl
  rw [behind, ← hstart, hrun]

-- Pieces above one of them do not move it.
private theorem codeOf_append (above : List Piece) (piece : Piece) (rest : List Piece) :
    ∃ code, codeOf (above ++ piece :: rest) = codeOf rest ++ piece.code ++ code := by
  induction above with
  | nil => exact ⟨[], by simp [codeOf]⟩
  | cons first above ih =>
      obtain ⟨code, hcode⟩ := ih
      exact ⟨code ++ first.code, by simp [codeOf, hcode]⟩

private theorem getElem?_entriesOf (above : List Piece) (piece : Piece) (rest : List Piece) :
    (entriesOf (above ++ piece :: rest))[above.length]? =
      some (piece.entry (codeOf rest).length) := by
  induction above with
  | nil => rfl
  | cons first above ih => simpa [entriesOf] using ih

theorem Plan.pendingType?_state (above : List Piece) {piece : Piece} {rest : List Piece}
    {scopes : Scopes} {ty : Ty} {segment : Segment} (events : List Event)
    (h : piece.settle scopes = .ok (ty, segment)) :
    (Plan.state ⟨above ++ piece :: rest, scopes⟩ events).pendingType? above.length = some ty := by
  obtain ⟨code, hcode⟩ := codeOf_append above piece rest
  obtain ⟨new, hrun⟩ := @run_resolve_ok (entriesOf (above ++ piece :: rest)) scopes events
    (codeOf rest) code _ ty segment piece rfl h
  rw [State.pendingType?, Plan.state, getElem?_entriesOf, Option.bind_some, Plan.code, hcode, hrun]

end Analysis

namespace Source

open Analysis

-- A program that compiles comes through all of its parts.
theorem steps_of_compile {library : Library} {source : Bytes} {program : Program}
    (h : compile library source = .ok program) :
    ∃ parsed last root literals, expr source = .ok (parsed, last) ∧
      Scopes.ofLibrary library = .ok (root, literals) ∧
      ∀ front inner, parsed.At front inner → ∃ plan operand outer,
        Plan.steps front ⟨[], root⟩ = .ok plan ∧ inner.build plan.scopes = .ok (operand, outer) ∧
        ∀ token ∈ front, Plan.ends token = false := by
  rw [compile_eq_build] at h
  obtain ⟨⟨parsed, last⟩, hparsed, h⟩ := bind_eq_ok.mp h
  obtain ⟨⟨root, literals⟩, hroot, h⟩ := bind_eq_ok.mp h
  obtain ⟨⟨value, scopes⟩, hbuild, -⟩ := bind_eq_ok.mp h
  refine ⟨parsed, last, root, literals, hparsed, hroot, fun front inner hinner => ?_⟩
  obtain ⟨after, hafter⟩ := hinner.postfixTokens
  have hsteps := Expr.steps_of_build hbuild []
  rw [hafter, Plan.steps_append, Plan.steps_append, bind_assoc] at hsteps
  obtain ⟨plan, hfront, hsteps⟩ := bind_eq_ok.mp hsteps
  obtain ⟨next, hpart, -⟩ := bind_eq_ok.mp hsteps
  have hput := Expr.steps_postfixTokens inner plan.pieces plan.scopes
  rw [hpart] at hput
  obtain ⟨⟨operand, outer⟩, hinnerBuild, -⟩ := map_eq_ok.mp hput.symm
  refine ⟨plan, operand, outer, hfront, hinnerBuild, fun token htoken => ?_⟩
  refine Expr.ends_postfixTokens parsed token ?_
  rw [hafter]
  exact List.mem_append_left _ (List.mem_append_left _ htoken)

end Source

end Sluice

import Mathlib
import Sluice.Proofs.Invocations
import Sluice.Proofs.PipedCalls

namespace Sluice

namespace Analysis

-- Tokens that a plan takes with small types only, in a frame with room for all of their slots.
structure Stands (literals : Pool) (library : Library) (limit : Nat) (tokens : List Token)
    (plan : Plan) : Prop where
  steady : plan.Steady literals library
  floored : plan.scopes.Floored
  sees : plan.Sees Instruction.Sized tokens
  room : UInt32.size ≤ limit ∨
    ∃ final, plan.steps tokens = .ok final ∧ final.scopes.frameSize.toNat ≤ limit

namespace Stands

variable {literals : Pool} {library : Library} {limit : Nat} {first rest : List Token}
  {plan next : Plan}

theorem front (h : Stands literals library limit (first ++ rest) plan) :
    Stands literals library limit first plan := by
  refine ⟨h.steady, h.floored, h.sees.front, h.room.imp_right ?_⟩
  rintro ⟨final, hsteps, hlimit⟩
  rw [Plan.steps_append] at hsteps
  obtain ⟨middle, hfirst, hrest⟩ := bind_eq_ok.mp hsteps
  exact ⟨middle, hfirst, Nat.le_trans (Plan.grows hrest) hlimit⟩

theorem behind (h : Stands literals library limit (first ++ rest) plan)
    (hfirst : plan.steps first = .ok next) (hfloored : next.scopes.Floored) :
    Stands literals library limit rest next := by
  refine ⟨h.steady.steps h.sees.front hfirst, hfloored, h.sees.behind hfirst,
    h.room.imp_right ?_⟩
  rintro ⟨final, hsteps, hlimit⟩
  rw [Plan.steps_append, hfirst] at hsteps
  exact ⟨final, hsteps, hlimit⟩

section Expressions

variable {expr : Expr} {pieces : List Piece} {scopes outer : Scopes} {operand : Operand}
  {coded : Coded}

theorem floored_of_build (h : Stands literals library limit expr.postfixTokens ⟨pieces, scopes⟩)
    (hbuild : expr.build scopes = .ok (operand, outer)) : outer.Floored :=
  (Expr.steady_of_build h.steady h.floored h.sees hbuild).2.floored

theorem behind_build
    (h : Stands literals library limit (expr.postfixTokens ++ rest) ⟨pieces, scopes⟩)
    (hbuild : expr.build scopes = .ok (operand, outer)) :
    Stands literals library limit rest ⟨.single operand :: pieces, outer⟩ :=
  h.behind (Expr.steps_of_build hbuild pieces) (h.front.floored_of_build hbuild)

theorem sized (h : Stands literals library limit expr.postfixTokens ⟨pieces, scopes⟩)
    (hbare : expr.bare? = none) (hcode : expr.code? scopes = some coded) :
    coded.segment.last.Sized := by
  obtain ⟨operand, hbuild, hsettle⟩ := Expr.code?_eq_some hcode
  cases operand with
  | name text place =>
      rw [Expr.bare?_of_build hbuild] at hbare
      contradiction
  | value ty segment =>
      cases hsettle
      exact (Expr.sized_of_build h.sees hbuild).2

theorem room_of_code (h : Stands literals library limit expr.postfixTokens ⟨pieces, scopes⟩)
    (hcode : expr.code? scopes = some coded) :
    (Setting.ofLimit literals library limit).Room coded.scopes := by
  obtain ⟨operand, hbuild, -⟩ := Expr.code?_eq_some hcode
  refine h.room.imp_right ?_
  rintro ⟨final, hsteps, hlimit⟩
  cases hsteps.symm.trans (Expr.steps_of_build hbuild pieces)
  exact hlimit

end Expressions

end Stands

end Analysis

open Analysis

namespace Expr

variable {literals : Pool} {library : Library} {limit : Nat}

theorem isOpen_binary (operator : Operator) (left right : Expr) (position : Position) :
    (Expr.binary operator left right position).isOpen = operator.opens right.isOpen := by
  cases operator <;> rfl

theorem chain_of_code? {expr : Expr} {scopes : Scopes} {coded : Coded}
    (hbinds : expr.binds = false) (h : expr.code? scopes = some coded) :
    coded.scopes.chain = scopes.chain := by
  obtain ⟨operand, hbuild, -⟩ := code?_eq_some h
  exact chain_of_build hbinds hbuild

theorem eval_assign {target right : Expr} {text : String} {place position : Position}
    (h : target.bare? = some (text, place)) (env : Env) :
    (Expr.binary .assign target right position).eval library env =
      (right.eval library env).bind fun found =>
        (found.2.declare text found.1).map (found.1, ·) := by
  rw [eval, h]
  rfl

-- An expression that is compiled and run as it is evaluated, wherever it stands. What stands to its
-- left has changed the scopes and the frame, so both are arbitrary.
structure Realized (literals : Pool) (library : Library) (limit : Nat) (expr : Expr) :
    Prop where
  realizes : ∀ {pieces : List Piece} {scopes : Scopes} {frame : Bytes} {env : Env},
    Stands literals library limit expr.postfixTokens ⟨pieces, scopes⟩ →
    scopes.Holds literals frame env → frame.length = limit →
    Realizes (.ofLimit literals library limit) frame expr.isOpen (expr.code? scopes)
      (expr.eval library env)

namespace Realized

variable {position : Position}

theorem of_bare {expr : Expr} {text : String} {place : Position}
    (h : expr.bare? = some (text, place)) : expr.Realized literals library limit := by
  refine ⟨fun {pieces scopes frame env} _ hholds hframe => ?_⟩
  have hopen : expr.isOpen = false := by
    cases expr with
    | binary => contradiction
    | _ => rfl
  rw [code?_of_bare? h, eval_of_bare? h, hopen]
  exact realizes_bare hframe hholds text place

theorem assign {target right : Expr} {text : String} {place : Position}
    (htarget : target.bare? = some (text, place)) (hright : right.Realized literals library limit) :
    (Expr.binary .assign target right position).Realized literals library limit := by
  refine ⟨fun {pieces scopes frame env} hstands hholds hframe => ?_⟩
  have hsized := fun result => @hstands.sized _ _ _ _ _ _ result rfl
  have hroom := fun result => @hstands.room_of_code _ _ _ _ _ _ result
  have hbehind := hstands.front.behind_build (build_of_bare? htarget scopes)
  rw [code?_assign right htarget] at hsized hroom ⊢
  rw [eval_assign htarget]
  have hfloored : ∀ found, right.code? scopes = some found → found.scopes.Floored := by
    intro found hfound
    obtain ⟨operand, hbuild, -⟩ := code?_eq_some hfound
    exact hbehind.floored_of_build hbuild
  exact (hright.realizes hbehind hholds hframe).assign hframe text place hfloored hsized hroom

theorem sign {operator : Operator} {left right : Expr} (hassign : operator ≠ .assign)
    (hcall : operator ≠ .call) (hleft : left.Realized literals library limit)
    (hright : right.Realized literals library limit)
    (h : left.bare? = none ∨ right.binds = false) :
    (Expr.binary operator left right position).Realized literals library limit := by
  refine ⟨fun {pieces scopes frame env} hstands hholds hframe => ?_⟩
  have hsized := fun result => @hstands.sized _ _ _ _ _ _ result rfl
  rw [code?_binary hassign hcall h] at hsized ⊢
  rw [isOpen_binary, eval_sign hassign hcall]
  refine (hleft.realizes hstands.front.front hholds hframe).sign
    (fun first middle behind hfirst hmiddle hscopes => ?_) hframe hsized
  obtain ⟨operand, hbuild, -⟩ := code?_eq_some hfirst
  exact hright.realizes (hstands.front.behind_build hbuild) hscopes hmiddle

theorem call {callee argument : Expr} (hlibrary : library.Checked)
    (hcallee : callee.Realized literals library limit)
    (hargument : argument.Realized literals library limit) (hpure : argument.binds = false) :
    (Expr.binary .call callee argument position).Realized literals library limit := by
  refine ⟨fun {pieces scopes frame env} hstands hholds hframe => ?_⟩
  have hsized := fun result => @hstands.sized _ _ _ _ _ _ result rfl
  rw [code?_call] at hsized ⊢
  have hbehind : ∀ operand outer middle behind,
      (callee.build scopes).toOption = some (operand, outer) → middle.length = limit →
      outer.Holds literals middle behind →
      Realizes (.ofLimit literals library limit) middle argument.isOpen (argument.code? outer)
        (argument.eval library behind) := fun operand outer middle behind hbuilt hmiddle hscopes =>
    hargument.realizes (hstands.front.behind_build (toOption_eq_some hbuilt)) hscopes hmiddle
  exact ((hcallee.realizes hstands.front.front hholds hframe).calls hholds).call
    (lenient_ofLimit literals library limit) hlibrary hframe hbehind (chain_of_code? hpure)
    (env_of_eval hpure) hsized

theorem pipe {value callee : Expr} (hlibrary : library.Checked)
    (hvalue : value.Realized literals library limit)
    (hcallee : callee.Realized literals library limit) (hpure : callee.binds = false) :
    (Expr.pipe value callee position).Realized literals library limit := by
  refine ⟨fun {pieces scopes frame env} hstands hholds hframe => ?_⟩
  have hsized := fun result => @hstands.sized _ _ _ _ _ _ result rfl
  rw [code?_pipe (.inr hpure)] at hsized ⊢
  refine Realizes.pipe (fun outer => (callee.build outer).toOption)
    (fun env => callee.called env (callee.eval library env))
    (lenient_ofLimit literals library limit) hlibrary hframe
    (hvalue.realizes hstands.front.front hholds hframe)
    (fun first middle behind hfirst hmiddle hscopes => ?_) hsized
  obtain ⟨operand, hbuild, -⟩ := code?_eq_some hfirst
  exact (hcallee.realizes (hstands.front.behind_build hbuild) hscopes hmiddle).calls hscopes

theorem pipeWith {value callee argument : Expr} (hlibrary : library.Checked)
    (hvalue : value.Realized literals library limit)
    (hcallee : callee.Realized literals library limit)
    (hargument : argument.Realized literals library limit) (hpure : callee.binds = false)
    (hargumentPure : argument.binds = false) :
    (Expr.pipeWith value callee argument position).Realized literals library limit := by
  refine ⟨fun {pieces scopes frame env} hstands hholds hframe => ?_⟩
  have hsized := fun result => @hstands.sized _ _ _ _ _ _ result rfl
  have hoperands := hstands.front.front.front
  rw [code?_pipeWith (.inr hpure)] at hsized ⊢
  have hbehind : ∀ first operand outer after behind, value.code? scopes = some first →
      first.ty.isWellFormed = true →
      (callee.build first.scopes).toOption = some (operand, outer) → after.length = limit →
      outer.Holds literals after behind →
      Realizes (.ofLimit literals library limit) after argument.isOpen (argument.code? outer)
        (argument.eval library behind) := by
    intro first operand outer after behind hfirst hwell hbuilt hafter hscopes
    obtain ⟨found, hbuild, hsettle⟩ := code?_eq_some hfirst
    have hcalleeBuild := toOption_eq_some hbuilt
    rw [← settle_behind hbuild hcalleeBuild (.inr hpure)] at hsettle
    have hpiping : found.piping operand outer = .ok (.piped first.ty first.segment operand) := by
      simp only [Operand.piping, hsettle, ok_bind, Ty.size?_eq_extent hwell, inRange]
    have hfloored := (hoperands.behind_build hbuild).floored_of_build hcalleeBuild
    have hsteps := steps_pipe hbuild hcalleeBuild hpiping position pieces
    exact hargument.realizes (hstands.front.behind hsteps hfloored) hscopes hafter
  refine Realizes.pipeWith (fun outer => (callee.build outer).toOption)
    (fun env => callee.called env (callee.eval library env))
    (lenient_ofLimit literals library limit) hlibrary hframe
    (hvalue.realizes hoperands.front hholds hframe)
    (fun first middle behind hfirst hmiddle hscopes => ?_) hbehind
    (chain_of_code? hargumentPure) (env_of_eval hargumentPure) hsized
  obtain ⟨operand, hbuild, -⟩ := code?_eq_some hfirst
  exact (hcallee.realizes (hoperands.behind_build hbuild) hscopes hmiddle).calls hscopes

theorem round {inner : Expr} (h : inner.Realized literals library limit)
    (opened closed : Position) :
    (Expr.bracketed .round inner opened closed).Realized literals library limit := by
  cases hbare : inner.bare? with
  | some found =>
      have hround : (Expr.bracketed .round inner opened closed).bare? = some found := hbare
      exact of_bare hround
  | none =>
      refine ⟨fun {pieces scopes frame env} hstands hholds hframe => ?_⟩
      rw [code?_round hbare]
      exact (h.realizes hstands.front hholds hframe).close

-- A block starts with a scope of its own and ends with the scopes it started from.
theorem curly {inner : Expr} (h : inner.Realized literals library limit)
    (opened closed : Position) :
    (Expr.bracketed .curly inner opened closed).Realized literals library limit := by
  refine ⟨fun {pieces scopes frame env} hstands hholds hframe => ?_⟩
  have hsplit : (Expr.bracketed .curly inner opened closed).postfixTokens =
      [⟨.blockBegin, .nullary, "\x7b", opened⟩] ++
        (inner.postfixTokens ++ [⟨.blockEnd, .leftUnary, "\x7d", closed⟩]) := rfl
  rw [hsplit] at hstands
  have henter : Plan.steps [⟨.blockBegin, .nullary, "\x7b", opened⟩] ⟨pieces, scopes⟩ =
      .ok ⟨pieces, scopes.enter⟩ := rfl
  have hinner := (hstands.behind henter hstands.floored.enter).front
  have houter : ∀ found, inner.code? scopes.enter = some found →
      found.scopes.outer = scopes.chain := by
    intro found hfound
    obtain ⟨operand, hbuild, -⟩ := code?_eq_some hfound
    exact outer_of_build hbuild
  rw [code?_curly]
  exact (h.realizes hinner hholds.enter hframe).leave houter
    fun datum after heval => tail_of_eval heval

end Realized

-- The induction follows the tree. Where a sign looks up a name behind its other operands, these
-- bind nothing.
theorem realized_of_orderly (hlibrary : library.Checked) {expr : Expr} {assigns : Bool}
    (h : expr.orderly assigns = true) : expr.Realized literals library limit := by
  induction expr generalizing assigns with
  | number text position =>
      refine ⟨fun {pieces scopes frame env} _ hholds _ => ?_⟩
      rw [code?, build, coded?_number]
      exact realizes_literal hholds text
  | name text position => exact .of_bare rfl
  | negate operand position ih =>
      refine ⟨fun {pieces scopes frame env} hstands hholds hframe => ?_⟩
      rw [code?_negate]
      exact ((ih h).realizes hstands.front hholds hframe).negate hframe
  | binary operator left right position ihleft ihright =>
      by_cases hassign : operator = .assign
      · subst hassign
        simp only [orderly, Bool.and_eq_true] at h
        obtain ⟨⟨text, place⟩, htarget⟩ := Option.isSome_iff_exists.mp h.1.2
        exact .assign htarget (ihright h.2)
      by_cases hcall : operator = .call
      · subst hcall
        simp only [orderly, Bool.and_eq_true] at h
        exact .call hlibrary (ihleft h.1) (ihright h.2) (binds_of_orderly h.2)
      by_cases hsequence : operator = .sequence
      · subst hsequence
        simp only [orderly, Bool.and_eq_true, Option.isNone_iff_eq_none] at h
        exact .sign hassign hcall (ihleft h.1.2) (ihright h.2) (.inl h.1.1)
      · have hboth : left.orderly false = true ∧ right.orderly false = true := by
          cases operator <;> simp_all [orderly]
        exact .sign hassign hcall (ihleft hboth.1) (ihright hboth.2)
          (.inr (binds_of_orderly hboth.2))
  | pipe value callee position ihvalue ihcallee =>
      simp only [orderly, Bool.and_eq_true] at h
      exact .pipe hlibrary (ihvalue h.1) (ihcallee h.2) (binds_of_orderly h.2)
  | pipeWith value callee argument position ihvalue ihcallee ihargument =>
      simp only [orderly, Bool.and_eq_true] at h
      exact .pipeWith hlibrary (ihvalue h.1.1) (ihcallee h.1.2) (ihargument h.2)
        (binds_of_orderly h.1.2) (binds_of_orderly h.2)
  | member subject field position ih =>
      refine ⟨fun {pieces scopes frame env} hstands hholds hframe => ?_⟩
      have hsized := fun result => @hstands.sized _ _ _ _ _ _ result rfl
      rw [code?_member] at hsized ⊢
      exact ((ih h).realizes hstands.front hholds hframe).member field hsized
  | bracketed bracket inner opened closed ih =>
      cases bracket with
      | round => exact .round (ih h) opened closed
      | square =>
          refine ⟨fun {pieces scopes frame env} hstands hholds hframe => ?_⟩
          rw [code?_square]
          exact ((ih h).realizes hstands.front hholds hframe).array
      | curly => exact .curly (ih h) opened closed

end Expr

-- The program of an expression, with its end at the place of the last lexeme.
def Analysis.Coded.program (literals : Pool) (last : Position) (coded : Coded) : Program :=
  ⟨(coded.segment.code 0 ++
      [(⟨.finish, coded.ty, [coded.ty], .none, 0, last⟩ : Instruction)]).toArray,
    literals, coded.scopes.frameSize⟩

section Root

variable {library : Library} {source : Bytes} {expr : Expr} {last : Position} {scopes : Scopes}
  {literals : Pool}

theorem Source.toOption_compile (hexpr : Source.expr source = .ok (expr, last))
    (hroot : Scopes.ofLibrary library = .ok (scopes, literals)) :
    (Source.compile library source).toOption =
      (expr.code? scopes).map (Coded.program literals last) := by
  simp only [Source.compile_eq_build, hexpr, hroot, ok_bind, Expr.code?]
  cases hbuild : expr.build scopes with
  | error failure => rfl
  | ok built =>
      obtain ⟨operand, outer⟩ := built
      have hdepth : outer.depth = 1 := by
        obtain ⟨rows, rfl, -⟩ := Scopes.ofLibrary_eq_ok hroot
        exact Expr.depth_of_build hbuild
      rw [coded?_ok, Operand.code?]
      simp only [ok_bind, Plan.finish, Piece.settle]
      cases operand.settle outer with
      | error failure => rfl
      | ok found => simp [hdepth, Coded.program]

theorem Analysis.Coded.run_program {coded : Coded} {meaning : Meaning}
    (hty : coded.ty.isWellFormed = true) (hsmall : coded.ty.extent < 2147483640)
    (hyields : Yields (.ofLimit literals library coded.scopes.frameSize.toNat) coded.segment
      coded.ty.extent meaning) (last : Position) :
    (coded.program literals last).run library =
      (meaning (Bytes.zeros coded.scopes.frameSize.toNat)).map
        fun outcome => ⟨coded.ty, outcome.1⟩ := by
  have hallowed : ¬ (Setting.ofLimit literals library coded.scopes.frameSize.toNat).allowed
      (.plain .endedWithoutFinish) := fun h => h rfl
  exact @run_segment _ _ _ _ last hty (Nat.lt_trans hsmall (by decide)) hallowed hyields _ rfl

-- An orderly program over the root scope of a library with plain types.
structure Expr.Rooted (library : Library) (scopes : Scopes) (literals : Pool) (expr : Expr) :
    Prop where
  registered : library.Registered
  plain : ∀ ty ∈ library.types, ty.Plain
  root : Scopes.ofLibrary library = .ok (scopes, literals)
  pool : literals.bytes.length < UInt32.size
  sees : Plan.Sees Instruction.Sized expr.postfixTokens ⟨[], scopes⟩
  orderly : expr.orderly true = true

namespace Expr.Rooted

theorem holds (h : expr.Rooted library scopes literals) (frame : Bytes) :
    scopes.Holds literals frame library.env :=
  Scopes.holds_ofLibrary h.registered h.plain h.root h.pool frame

theorem realizes (h : expr.Rooted library scopes literals) {limit : Nat}
    (hroom : UInt32.size ≤ limit ∨
      ∃ coded, expr.code? scopes = some coded ∧ coded.scopes.frameSize.toNat ≤ limit) :
    Realizes (.ofLimit literals library limit) (Bytes.zeros limit) expr.isOpen (expr.code? scopes)
      (expr.eval library library.env) := by
  have hstands : Stands literals library limit expr.postfixTokens ⟨[], scopes⟩ := by
    refine ⟨h.registered.steady h.root library, Scopes.floored_ofLibrary h.root, h.sees,
      hroom.imp_right ?_⟩
    rintro ⟨coded, hcode, hlimit⟩
    obtain ⟨operand, hbuild, -⟩ := Expr.code?_eq_some hcode
    exact ⟨_, Expr.steps_of_build hbuild [], hlimit⟩
  exact (Expr.realized_of_orderly h.registered.checked h.orderly).realizes hstands (h.holds _)
    (Bytes.length_zeros limit)

variable {coded : Coded} {datum : Datum} {env : Env}

-- An expression with a value has code. A frame that is large enough for any scopes shows it.
theorem exists_code? (h : expr.Rooted library scopes literals)
    (heval : expr.eval library library.env = some (datum, env)) :
    ∃ coded, expr.code? scopes = some coded := by
  have hrealizes := h.realizes (.inl (Nat.le_refl UInt32.size))
  rw [heval] at hrealizes
  cases hrealizes with
  | gives hcoded => exact ⟨_, hcoded⟩

-- A name without a value has no code either.
private theorem bare?_eq_none (h : expr.Rooted library scopes literals)
    (hcode : expr.code? scopes = some coded)
    (heval : expr.eval library library.env = none) : expr.bare? = none := by
  cases hbare : expr.bare? with
  | none => rfl
  | some found =>
      have hlookup := (h.holds []).lookup found.1
      rw [Expr.eval_of_bare? hbare, Option.map_eq_none_iff] at heval
      rw [Expr.code?_of_bare? hbare] at hcode
      rw [heval] at hlookup
      generalize scopes.lookup found.1 = binding at hlookup hcode
      cases hlookup
      contradiction

theorem run_of_eval (h : expr.Rooted library scopes literals)
    (hcode : expr.code? scopes = some coded) (last : Position)
    (heval : expr.eval library library.env = some (datum, env)) :
    (coded.program literals last).run library = .ok ⟨coded.ty, datum.bytes⟩ ∧
      coded.ty.Describes datum.tree := by
  have hrealizes := h.realizes (.inr ⟨coded, hcode, Nat.le_refl _⟩)
  rw [heval, hcode] at hrealizes
  cases hrealizes with
  | gives hcoded hgives hholds =>
      cases hcoded
      obtain ⟨meaning, hyields, hmeaning⟩ := hgives.delivers
      rw [Coded.run_program hgives.isWellFormed hgives.small hyields last, hmeaning]
      exact ⟨rfl, hgives.describes⟩

-- Code of an expression without a value fails. That it is code that either fails or leaves bytes of
-- its type on the stack is known already.
private theorem run_of_eval_none (h : expr.Rooted library scopes literals)
    (hcode : expr.code? scopes = some coded) (last : Position)
    (heval : expr.eval library library.env = none) :
    ∃ failure, (coded.program literals last).run library = .error failure := by
  have hbare := h.bare?_eq_none hcode heval
  have hrealizes := h.realizes (.inr ⟨coded, hcode, Nat.le_refl _⟩)
  rw [heval, hcode] at hrealizes
  obtain ⟨operand, hbuild, hsettle⟩ := Expr.code?_eq_some hcode
  have hsteady := (Expr.steady_of_build (h.registered.steady h.root library)
    (Scopes.floored_ofLibrary h.root) h.sees hbuild).1
  cases operand with
  | name text place =>
      rw [Expr.bare?_of_build hbuild] at hbare
      contradiction
  | value ty segment =>
      cases hsettle
      have hsized := Expr.sized_of_build h.sees hbuild
      obtain ⟨meaning, hyields⟩ := hsteady.settle (List.mem_cons_self ..) rfl hsized (Nat.le_refl _)
      cases hrealizes with
      | fails hfails =>
          obtain ⟨failure, hexec⟩ := hfails _ rfl 0 []
          rw [← Store.ofFrameSize_eq] at hexec
          refine ⟨failure, Machine.run_of_exec_error _ ?_ hexec⟩
          rw [Store.ofFrameSize_eq] at hexec
          have hframe := Bytes.length_zeros coded.scopes.frameSize.toNat
          have hmeaning := hyields.exec _ [] 0 hframe
          cases hfound : meaning (Bytes.zeros coded.scopes.frameSize.toNat) with
          | error found =>
              rw [hfound, error_bind] at hmeaning
              cases hmeaning.symm.trans hexec
              exact hyields.bounded.failure hframe hfound
          | ok outcome =>
              have hsmall := (hyields.bounded.width hframe hfound).1 ▸ hyields.small
              rw [hfound, ok_bind, Store.push_zero hsmall] at hmeaning
              cases hmeaning.symm.trans hexec

-- A value that the code leaves is the value of the expression.
private theorem eval_of_run (h : expr.Rooted library scopes literals)
    (hcode : expr.code? scopes = some coded) (last : Position) {value : Value}
    (hrun : (coded.program literals last).run library = .ok value) :
    ∃ tree env, expr.eval library library.env = some (⟨tree, value.bytes⟩, env) ∧
      value.ty.Describes tree := by
  cases heval : expr.eval library library.env with
  | none =>
      obtain ⟨failure, hfailure⟩ := h.run_of_eval_none hcode last heval
      cases hrun.symm.trans hfailure
  | some found =>
      obtain ⟨hvalue, hdescribes⟩ := h.run_of_eval hcode last heval
      cases hrun.symm.trans hvalue
      exact ⟨found.1.tree, found.2, rfl, hdescribes⟩

end Expr.Rooted

end Root

-- A program is compiled and run to a value if and only if the interpreter finds that value, and no
-- run ends in a value without a type. Sizes stay below the largest placement, and the constants of
-- the library fit into one pool.
theorem run_compiled_iff_eval (library : Library) (source : Bytes) (expr : Expr) (last : Position)
    (scopes : Scopes) (literals : Pool) (hlibrary : library.Registered)
    (htypes : ∀ ty ∈ library.types, ty.Plain)
    (hroot : Scopes.ofLibrary library = .ok (scopes, literals))
    (hpool : literals.bytes.length < UInt32.size)
    (hexpr : Source.expr source = .ok (expr, last)) (horderly : expr.orderly true = true)
    (hevents : ∀ event ∈ (Source.compileLogged library source).1, event.Holds Instruction.Sized) :
    (∀ program value, Source.compile library source = .ok program →
        program.run library = .ok value → ∃ tree, value.ty.Describes tree) ∧
      ∀ tree bytes,
        (∃ program ty, Source.compile library source = .ok program ∧
          program.run library = .ok ⟨ty, bytes⟩ ∧ ty.Describes tree) ↔
        ∃ env, expr.eval library library.env = some (⟨tree, bytes⟩, env) := by
  have hrooted : expr.Rooted library scopes literals :=
    ⟨hlibrary, htypes, hroot, hpool, Source.sees_postfixTokens faithful_sized hexpr hroot hevents,
      horderly⟩
  have hcompile := Source.toOption_compile hexpr hroot
  have hvalued {program : Program} {value : Value}
      (hprogram : Source.compile library source = .ok program)
      (hrun : program.run library = .ok value) :
      ∃ tree env, expr.eval library library.env = some (⟨tree, value.bytes⟩, env) ∧
        value.ty.Describes tree := by
    rw [hprogram, toOption_ok, eq_comm, Option.map_eq_some_iff] at hcompile
    obtain ⟨coded, hcode, rfl⟩ := hcompile
    exact hrooted.eval_of_run hcode last hrun
  constructor
  · intro program value hprogram hrun
    obtain ⟨tree, _, -, hdescribes⟩ := hvalued hprogram hrun
    exact ⟨tree, hdescribes⟩
  intro tree bytes
  constructor
  · rintro ⟨program, ty, hprogram, hrun, hty⟩
    obtain ⟨found, env, heval, hdescribes⟩ := hvalued hprogram hrun
    obtain rfl := hty.unique hdescribes
    exact ⟨env, heval⟩
  · rintro ⟨env, heval⟩
    obtain ⟨coded, hcode⟩ := hrooted.exists_code? heval
    obtain ⟨hvalue, hdescribes⟩ := hrooted.run_of_eval hcode last heval
    rw [hcode] at hcompile
    exact ⟨_, coded.ty, toOption_eq_some hcompile, hvalue, hdescribes⟩

-- The inner `a` hides the outer one, and both functions are called.
def Source.shadowing : Bytes :=
  "a := seven; b := \x7ba := (a, seven); pick a\x7d; a.pick (b)".toUTF8.toList

theorem run_compiled_iff_eval_shadowing :
    ∃ expr last scopes literals, Library.overloaded.Registered ∧
      (∀ ty ∈ Library.overloaded.types, ty.Plain) ∧
      Scopes.ofLibrary .overloaded = .ok (scopes, literals) ∧
      literals.bytes.length < UInt32.size ∧
      Source.expr Source.shadowing = .ok (expr, last) ∧ expr.orderly true = true ∧
      (∀ event ∈ (Source.compileLogged .overloaded Source.shadowing).1,
        event.Holds Instruction.Sized) ∧
      ∃ program ty, Source.compile .overloaded Source.shadowing = .ok program ∧
        program.run .overloaded = .ok ⟨ty, [7, 0, 0, 0]⟩ ∧ ty.Describes (.prim .i32) := by
  have hparsed : (Source.expr Source.shadowing).map (fun found => (found.1.orderly true,
      (found.1.eval .overloaded Library.overloaded.env).map Prod.fst)) =
        .ok (true, some ⟨.prim .i32, [7, 0, 0, 0]⟩) := by decide +kernel
  have hbuilt : (Scopes.ofLibrary .overloaded).map (fun root =>
      decide (root.2.bytes.length < UInt32.size)) = .ok true := by decide +kernel
  have hevents : ∀ event ∈ (Source.compileLogged .overloaded Source.shadowing).1,
      event.Holds Instruction.Sized := by decide +kernel
  have htypes : ∀ ty ∈ Library.overloaded.types, ty.Plain := by decide +kernel
  obtain ⟨⟨expr, last⟩, hexpr, hfound⟩ := map_eq_ok.mp hparsed
  obtain ⟨⟨scopes, literals⟩, hroot, hpool⟩ := map_eq_ok.mp hbuilt
  obtain ⟨horderly, heval⟩ := Prod.mk.inj hfound
  obtain ⟨⟨datum, env⟩, heval, rfl⟩ := Option.map_eq_some_iff.mp heval
  have hregistered := Library.registered_overloaded
  have hpool : literals.bytes.length < UInt32.size := of_decide_eq_true hpool
  refine ⟨expr, last, scopes, literals, hregistered, htypes, hroot, hpool, hexpr, horderly,
    hevents, ?_⟩
  exact (run_compiled_iff_eval .overloaded Source.shadowing expr last scopes literals hregistered
    htypes hroot hpool hexpr horderly hevents).2 (.prim .i32) [7, 0, 0, 0] |>.mpr ⟨env, heval⟩

end Sluice

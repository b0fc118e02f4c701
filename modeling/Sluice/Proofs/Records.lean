import Mathlib
import Sluice.Proofs.Build
import Sluice.Proofs.Operations

namespace Sluice

-- A property of the instruction that an event tells.
def Event.Holds (P : Instruction → Prop) : Event → Prop
  | .emitted _ instruction => P instruction
  | .resolved _ instruction => P instruction
  | _ => True

instance (P : Instruction → Prop) [DecidablePred P] (event : Event) : Decidable (event.Holds P) :=
  match event with
  | .emitted _ instruction => inferInstanceAs (Decidable (P instruction))
  | .resolved _ instruction => inferInstanceAs (Decidable (P instruction))
  | .compiling _ | .placed _ _ | .bound _ _ _ | .gathered _ _ | .analyzed _ _ | .executed _ _ _
  | .finished _ _ => inferInstanceAs (Decidable True)

namespace Analysis

-- Properties that survive the changes that no event tells in full. The name of an assignment takes
-- the type of the copy that is written down right after it.
structure Faithful (P : Instruction → Prop) : Prop where
  placed : ∀ {instruction : Instruction} (placement : Int32), P instruction →
    P (instruction.placed placement)
  spent : ∀ {instruction : Instruction}, P instruction → P { instruction with op := .nop }
  bound : ∀ {instruction : Instruction} {ty : Ty} {offset : UInt32} {position : Position},
    P instruction → P ⟨.copy, ty, [ty], .stack offset, 0, position⟩ →
    P { instruction with op := .nop, result := ty }

theorem faithful_indexable : Faithful Instruction.Indexable := by
  refine ⟨fun _ h => h, fun h => h, fun h hcopy ty hty => ?_⟩
  rcases List.mem_cons.mp hty with rfl | hty
  · exact hcopy _ (List.mem_cons_self ..)
  · exact h ty (List.mem_cons_of_mem _ hty)

-- The journal only grows, and what holds of all that it tells stays true of the instructions.
structure Leads (state next : State) : Prop where
  events : state.events <:+ next.events
  holds : ∀ {P : Instruction → Prop}, Faithful P → (∀ event ∈ next.events, event.Holds P) →
    (∀ instruction ∈ state.instructions, P instruction) →
    ∀ instruction ∈ next.instructions, P instruction

namespace Leads

variable {state middle next : State}

theorem of_eq (hevents : state.events <:+ next.events)
    (hinstructions : next.instructions = state.instructions) : Leads state next :=
  ⟨hevents, fun _ _ hold => hinstructions ▸ hold⟩

theorem refl (state : State) : Leads state state :=
  .of_eq (List.suffix_refl _) rfl

theorem trans (first : Leads state middle) (second : Leads middle next) : Leads state next :=
  ⟨first.events.trans second.events, fun hP hevents hold =>
    second.holds hP hevents
      (first.holds hP (fun event hevent => hevents event (second.events.subset hevent)) hold)⟩

-- One instruction is replaced, and `added` tells enough about the new one.
theorem replace {index : Nat} {old new : Instruction} (hold : state.instructions[index]? = some old)
    (added : List Event)
    (hnew : ∀ {P : Instruction → Prop}, Faithful P → (∀ event ∈ added, event.Holds P) → P old →
      P new) :
    Leads state { state with
      instructions := state.instructions.setIfInBounds index new
      events := added ++ state.events } := by
  refine ⟨List.suffix_append _ _, fun hP hevents hall instruction hmem => ?_⟩
  rcases Array.mem_or_eq_of_mem_setIfInBounds hmem with hmem | rfl
  · exact hall instruction hmem
  · exact hnew hP (fun event hevent => hevents event (List.mem_append_left _ hevent))
      (hall old (Array.mem_of_getElem? hold))

theorem push (state : State) (instruction : Instruction) :
    Leads state { state with
      instructions := state.instructions.push instruction
      events := .emitted state.instructions.size instruction :: state.events } := by
  refine ⟨List.suffix_cons _ _, fun hP hevents hall found hmem => ?_⟩
  rcases Array.mem_push.mp hmem with hmem | rfl
  · exact hall found hmem
  · exact hevents _ (List.mem_cons_self ..)

end Leads

-- The state behind an action, whether it failed or not.
def final {α : Type} : EStateM.Result Failure State α → State
  | .ok _ state => state
  | .error _ state => state

def Recorded {α : Type} (action : Analysis α) : Prop :=
  ∀ state, Leads state (final (action.run state))

section Recorded

variable {α β : Type}

theorem leads_bind {state : State} {action : Analysis α} {next : α → Analysis β}
    (haction : Leads state (final (action.run state))) (hnext : ∀ value, Recorded (next value)) :
    Leads state (final ((action >>= next).run state)) := by
  rw [EStateM.run_bind]
  cases hrun : action.run state with
  | ok value middle =>
      rw [hrun] at haction
      exact haction.trans (hnext value middle)
  | error failure middle =>
      rw [hrun] at haction
      exact haction

theorem Recorded.bind {action : Analysis α} {next : α → Analysis β} (haction : Recorded action)
    (hnext : ∀ value, Recorded (next value)) : Recorded (action >>= next) :=
  fun state => leads_bind (haction state) hnext

theorem recorded_pure (value : α) : Recorded (pure value) := fun state => .refl state

theorem recorded_get : Recorded get := fun state => .refl state

theorem recorded_fail (position : Position) (problem : Problem) :
    Recorded (fail position problem : Analysis α) := fun state => .refl state

theorem recorded_defect (problem : Problem) : Recorded (defect problem : Analysis α) :=
  fun state => .refl state

theorem recorded_ofExcept (value : Except Failure α) : Recorded (ofExcept value) := by
  cases value with
  | ok value => exact recorded_pure value
  | error failure => exact fun state => .refl state

theorem recorded_record (event : Event) : Recorded (record event) :=
  fun _ => .of_eq (List.suffix_cons _ _) rfl

theorem recorded_push (pending : Pending) : Recorded (push pending) :=
  fun _ => .of_eq (List.suffix_refl _) rfl

-- A change that leaves the instructions and the journal alone.
theorem recorded_modify {change : State → State}
    (hevents : ∀ state, (change state).events = state.events)
    (hinstructions : ∀ state, (change state).instructions = state.instructions) :
    Recorded (modify change) :=
  fun state => .of_eq (hevents state ▸ List.suffix_refl _) (hinstructions state)

theorem recorded_pop : Recorded pop := by
  refine fun state => ?_
  obtain ⟨instructions, pending, scopes, finished, events⟩ := state
  cases pending with
  | nil => exact .refl _
  | cons top rest => exact .of_eq (List.suffix_refl _) rfl

theorem recorded_emit (instruction : Instruction) : Recorded (emit instruction) :=
  fun state => .push state instruction

theorem recorded_produce (op : Op) (result : Ty) (operands : List Ty) (payload : Payload)
    (position : Position) : Recorded (produce op result operands payload position) :=
  (recorded_emit _).bind fun _ => recorded_push _

-- What follows may use that the instruction stands at its index.
theorem recorded_instructionAt {index : Nat} {next : Instruction → Analysis α}
    (h : ∀ instruction state, state.instructions[index]? = some instruction →
      Leads state (final ((next instruction).run state))) :
    Recorded (instructionAt index >>= next) := by
  intro state
  have hrun : (instructionAt index >>= next).run state =
      (ofExcept (inRange state.instructions[index]?) >>= next).run state := rfl
  rw [hrun]
  cases hat : state.instructions[index]? with
  | none => exact .refl state
  | some instruction => exact h instruction state hat

theorem recorded_placeholderAt (index : Nat) : Recorded (placeholderAt index) := by
  refine recorded_instructionAt fun instruction state _ => ?_
  split
  · exact .refl state
  · exact .refl state

theorem recorded_bind (index : Nat) (binding : Binding) : Recorded (bind index binding) := by
  refine recorded_instructionAt fun instruction state hat => ?_
  split
  · exact .refl state
  · exact .replace hat [.resolved index _] fun _ hadded _ => hadded _ (List.mem_singleton_self _)

theorem recorded_place (index : Nat) (placement : Int32) : Recorded (place index placement) := by
  refine recorded_instructionAt fun instruction state hat => ?_
  split
  · exact .refl state
  · exact .replace hat [.placed index placement] fun hP _ hold => hP.placed placement hold

theorem recorded_resolve (pending : Pending) : Recorded (resolve pending) := by
  cases pending with
  | resolved ty producer => exact recorded_pure _
  | piped value callee producer => exact recorded_defect _
  | unresolved producer =>
      refine (recorded_placeholderAt producer).bind fun placeholder =>
        recorded_get.bind fun state => ?_
      split
      · exact recorded_fail _ _
      · exact (recorded_bind _ _).bind fun _ => recorded_pure _

theorem recorded_resolveCallee (callee : Pending) (argument : Ty) (position : Position) :
    Recorded (resolveCallee callee argument position) := by
  cases callee with
  | resolved ty producer =>
      simp only [resolveCallee]
      split
      · exact recorded_fail _ _
      · refine (recorded_ofExcept _).bind fun isMatch => ?_
        split
        · exact recorded_fail _ _
        · exact recorded_pure _
  | piped value callee producer => exact recorded_defect _
  | unresolved producer =>
      refine (recorded_placeholderAt producer).bind fun placeholder =>
        recorded_get.bind fun state => ?_
      dsimp only
      split
      · exact recorded_fail _ _
      · exact recorded_bind _ _

theorem recorded_call (callee : Pending) (argument : Ty) (position : Position) :
    Recorded (call callee argument position) := by
  refine (recorded_resolveCallee callee argument position).bind fun ty => ?_
  split
  · exact recorded_defect _
  · exact recorded_produce _ _ _ _ _

-- Signs that take the topmost value, and signs that take the two topmost ones, left first.
theorem recorded_one {next : Ty × Nat → Analysis β} (hnext : ∀ found, Recorded (next found)) :
    Recorded (do let found ← resolve (← pop); next found) :=
  recorded_pop.bind fun top => (recorded_resolve top).bind hnext

theorem recorded_two {next : Ty × Nat → Ty × Nat → Analysis β}
    (hnext : ∀ left right, Recorded (next left right)) :
    Recorded (do
      let right ← pop
      let left ← pop
      let leftFound ← resolve left
      let rightFound ← resolve right
      next leftFound rightFound) :=
  recorded_pop.bind fun right => recorded_pop.bind fun left =>
    (recorded_resolve left).bind fun leftFound => (recorded_resolve right).bind (hnext leftFound)

theorem recorded_number (token : Token) : Recorded (number token) := by
  unfold number
  split
  · split
    · exact recorded_fail _ _
    · exact recorded_produce _ _ _ _ _
  · split
    · exact recorded_fail _ _
    · split
      · exact recorded_produce _ _ _ _ _
      · exact recorded_fail _ _

-- The name is made idle and the copy appended before anything can fail.
theorem recorded_assign (token : Token) : Recorded (assign token) := by
  refine recorded_pop.bind fun right => recorded_pop.bind fun left =>
    (recorded_resolve right).bind fun found => ?_
  cases left with
  | resolved ty producer => exact recorded_fail _ _
  | piped value callee producer => exact recorded_fail _ _
  | unresolved target =>
      refine (recorded_placeholderAt target).bind fun placeholder =>
        (recorded_ofExcept _).bind fun size => recorded_get.bind fun state =>
        (recorded_ofExcept _).bind fun scopes => Recorded.bind ?_ fun _ => ?_
      · exact recorded_modify (fun _ => rfl) fun _ => rfl
      refine recorded_instructionAt fun instruction state hat => ?_
      refine ⟨List.suffix_append [_, _] _, fun hP hevents hall found hmem => ?_⟩
      have hcopy := hevents _ (List.mem_cons_self ..)
      rcases Array.mem_push.mp hmem with hmem | rfl
      · rcases Array.mem_or_eq_of_mem_setIfInBounds hmem with hmem | rfl
        · exact hall found hmem
        · exact hP.bound (hall instruction (Array.mem_of_getElem? hat)) hcopy
      · exact hcopy

theorem recorded_arithmetic (op : Op) (token : Token) : Recorded (arithmetic op token) := by
  refine recorded_two fun ⟨leftTy, _⟩ ⟨rightTy, _⟩ => ?_
  dsimp only
  split
  · split
    · exact recorded_produce _ _ _ _ _
    · exact recorded_fail _ _
  · exact recorded_fail _ _

theorem recorded_negate (token : Token) : Recorded (negate token) := by
  refine recorded_one fun ⟨ty, _⟩ => ?_
  dsimp only
  split
  · exact recorded_produce _ _ _ _ _
  · exact recorded_fail _ _

theorem recorded_tuple (token : Token) : Recorded (tuple token) :=
  recorded_two fun _ _ => (recorded_ofExcept _).bind fun _ => recorded_produce _ _ _ _ _

theorem recorded_sequence (token : Token) : Recorded (sequence token) :=
  recorded_two fun _ _ => recorded_produce _ _ _ _ _

theorem recorded_applied (token : Token) : Recorded (applied token) := by
  refine recorded_pop.bind fun argument => recorded_pop.bind fun left =>
    (recorded_resolve argument).bind fun found => ?_
  cases left with
  | resolved ty producer => exact recorded_call _ _ _
  | unresolved producer => exact recorded_call _ _ _
  | piped value callee producer => exact (recorded_ofExcept _).bind fun _ => recorded_call _ _ _

theorem recorded_completed (token : Token) : Recorded (completed token) := by
  refine recorded_pop.bind fun top => ?_
  cases top with
  | resolved ty producer => exact recorded_defect _
  | unresolved producer => exact recorded_defect _
  | piped value callee producer => exact recorded_call _ _ _

theorem recorded_pipe : Recorded pipe :=
  recorded_pop.bind fun _ => recorded_pop.bind fun value => (recorded_resolve value).bind fun _ =>
    (recorded_place _ _).bind fun _ => (recorded_ofExcept _).bind fun _ =>
      (recorded_place _ _).bind fun _ => recorded_push _

theorem recorded_member (token : Token) : Recorded (member token) := by
  refine recorded_pop.bind fun field => recorded_pop.bind fun subject => ?_
  cases field with
  | resolved ty producer => exact recorded_defect _
  | piped value callee producer => exact recorded_defect _
  | unresolved target =>
      refine (recorded_placeholderAt target).bind fun placeholder =>
        (recorded_resolve subject).bind fun ⟨ty, _⟩ => ?_
      dsimp only
      split
      · exact recorded_fail _ _
      · refine recorded_instructionAt fun instruction state hat => leads_bind ?_ fun _ => ?_
        · exact .replace hat [] fun hP _ hold => hP.spent hold
        · exact (recorded_ofExcept _).bind fun _ => recorded_produce _ _ _ _ _

theorem recorded_group : Recorded group := by
  refine recorded_pop.bind fun top => ?_
  cases top with
  | resolved ty producer => exact recorded_push _
  | unresolved producer => exact recorded_push _
  | piped value callee producer => exact recorded_defect _

theorem recorded_elementsOf (ty : Ty) (position : Position) :
    Recorded (elementsOf ty position) := by
  unfold elementsOf
  split
  · refine (recorded_ofExcept _).bind fun elements => ?_
    split
    · exact recorded_defect _
    · split
      · exact recorded_fail _ _
      · exact recorded_pure _
  · exact recorded_pure _

theorem recorded_array (token : Token) : Recorded (array token) :=
  recorded_one fun _ => (recorded_elementsOf _ _).bind fun _ =>
    (recorded_record _).bind fun _ => recorded_push _

theorem recorded_blockBegin : Recorded blockBegin :=
  recorded_modify (fun _ => rfl) fun _ => rfl

theorem recorded_blockEnd : Recorded blockEnd := by
  refine recorded_one fun found => recorded_get.bind fun state =>
    (recorded_ofExcept _).bind fun scopes => Recorded.bind ?_ fun _ => recorded_push _
  exact recorded_modify (fun _ => rfl) fun _ => rfl

theorem recorded_finish (token : Token) : Recorded (finish token) := by
  refine recorded_one fun found => recorded_get.bind fun state => ?_
  split
  · exact recorded_defect _
  · split
    · exact recorded_defect _
    · refine (recorded_emit _).bind fun _ => ?_
      exact recorded_modify (fun _ => rfl) fun _ => rfl

theorem recorded_name (token : Token) : Recorded (name token) :=
  (recorded_emit _).bind fun _ => recorded_push _

-- Every token writes down what it does to the instructions.
theorem recorded_handle (token : Token) : Recorded (handle token) := by
  unfold handle
  split
  · exact recorded_number token
  · exact recorded_name token
  · exact recorded_assign token
  · exact recorded_arithmetic .add token
  · exact recorded_arithmetic .sub token
  · exact recorded_arithmetic .mul token
  · exact recorded_negate token
  · exact recorded_tuple token
  · exact recorded_applied token
  · exact recorded_completed token
  · exact recorded_pipe
  · exact recorded_member token
  · exact recorded_group
  · exact recorded_array token
  · exact recorded_sequence token
  · exact recorded_blockBegin
  · exact recorded_blockEnd
  · exact recorded_finish token
  · exact recorded_defect _

theorem recorded_handleAll (tokens : List Token) : Recorded (handleAll tokens) := by
  induction tokens with
  | nil =>
      refine recorded_get.bind fun state => ?_
      split
      · exact recorded_defect _
      · exact recorded_pure _
  | cons token rest ih =>
      refine recorded_get.bind fun state => ?_
      split
      · exact recorded_defect _
      · exact (recorded_handle token).bind fun _ => ih

-- What an action has written down stays in the journal.
theorem events_suffix_bind (action : Analysis α) {next : α → Analysis β}
    (hnext : ∀ value, Recorded (next value)) (state : State) :
    (final (action.run state)).events <:+ (final ((action >>= next).run state)).events := by
  rw [EStateM.run_bind]
  cases action.run state with
  | ok value middle => exact (hnext value middle).events
  | error failure middle => exact List.suffix_refl _

end Recorded

namespace Plan

-- After every token, the code so far has the property.
def Sees (P : Instruction → Prop) (tokens : List Token) (plan : Plan) : Prop :=
  ∀ done left next, tokens = done ++ left → plan.steps done = .ok next →
    ∀ instruction ∈ next.code, P instruction

namespace Sees

variable {P : Instruction → Prop} {first rest : List Token} {plan next : Plan}

theorem front (h : plan.Sees P (first ++ rest)) : plan.Sees P first := by
  rintro done left next rfl hdone
  exact h done (left ++ rest) next (List.append_assoc ..) hdone

theorem behind (h : plan.Sees P (first ++ rest)) (hfirst : plan.steps first = .ok next) :
    next.Sees P rest := by
  rintro done left last rfl hdone
  refine h (first ++ done) left last (List.append_assoc ..).symm ?_
  rw [steps_append, hfirst, ok_bind, hdone]

theorem last (h : plan.Sees P first) (hfirst : plan.steps first = .ok next) :
    ∀ instruction ∈ next.code, P instruction :=
  h first [] next (List.append_nil _).symm hfirst

end Sees

private theorem ends_of_step {token : Token} {plan next : Plan} (h : plan.step token = .ok next) :
    ends token = false := by
  by_contra hends
  simp only [ends, Bool.not_eq_false, Bool.and_eq_true, decide_eq_true_eq] at hends
  simp [Plan.step, hends] at h

end Plan

-- The induction follows the tokens. One token turns the state of a plan into that of the next plan,
-- and the journal behind it is a part of the journal at the end.
private theorem sees_handleAll {P : Instruction → Prop} (hP : Faithful P) (tokens : List Token)
    {plan : Plan} {events : List Event} (hcode : ∀ instruction ∈ plan.code, P instruction)
    (hevents : ∀ event ∈ (final ((handleAll tokens).run (plan.state events))).events,
      event.Holds P) : plan.Sees P tokens := by
  induction tokens generalizing plan events with
  | nil =>
      intro done left next hsplit hdone
      obtain ⟨rfl, rfl⟩ := List.nil_eq_append_iff.mp hsplit
      cases hdone
      exact hcode
  | cons token rest ih =>
      intro done left next hsplit hdone
      match done with
      | [] =>
          cases hdone
          exact hcode
      | found :: done =>
          obtain ⟨rfl, hrest⟩ := List.cons.inj hsplit
          rw [Plan.steps_cons] at hdone
          obtain ⟨middle, hstep, hdone⟩ := bind_eq_ok.mp hdone
          have hfollows := @follows_handle events token plan (Plan.ends_of_step hstep)
          rw [hstep] at hfollows
          obtain ⟨new, hrun⟩ := hfollows
          have hleads := recorded_handle token (plan.state events)
          rw [run_handleAll_cons] at hevents
          rw [hrun] at hleads hevents
          have hmiddle := (recorded_handleAll rest (middle.state (new ++ events))).events
          have hcode : ∀ instruction ∈ middle.code, P instruction := by
            have hholds := hleads.holds hP fun event hevent =>
              hevents event (hmiddle.subset hevent)
            simpa [final, Plan.state] using hholds (by simpa [Plan.state] using hcode)
          exact ih hcode hevents done left next hrest hdone

private theorem sees_compile {P : Instruction → Prop} (hP : Faithful P) {library : Library}
    {tokens : List Token} {scopes : Scopes} {literals : Pool}
    (hroot : Scopes.ofLibrary library = .ok (scopes, literals))
    (hevents : ∀ event ∈ (compile library tokens).1, event.Holds P) :
    Plan.Sees P tokens ⟨[], scopes⟩ := by
  have htold : ∀ event ∈
      (final ((program literals tokens).run ⟨#[], [], scopes, false, []⟩)).events,
      event.Holds P := by
    intro event hevent
    refine hevents event ?_
    simp only [compile, hroot]
    cases hrun : (program literals tokens).run ⟨#[], [], scopes, false, []⟩ <;>
      simpa [hrun, final] using hevent
  refine @sees_handleAll P hP tokens ⟨[], scopes⟩ [] (by simp [Plan.code, codeOf])
    fun event hevent => htold event ?_
  exact (events_suffix_bind _ (fun _ => recorded_get.bind fun _ =>
    (recorded_record _).bind fun _ => recorded_pure _) _).subset hevent

end Analysis

-- What the journal of a compilation tells was true of the code from the first token on.
theorem Source.sees_postfixTokens {P : Instruction → Prop} (hP : Analysis.Faithful P)
    {library : Library} {source : Bytes} {expr : Expr} {last : Position} {scopes : Scopes}
    {literals : Pool} (hexpr : Source.expr source = .ok (expr, last))
    (hroot : Scopes.ofLibrary library = .ok (scopes, literals))
    (hevents : ∀ event ∈ (Source.compileLogged library source).1, event.Holds P) :
    Analysis.Plan.Sees P expr.postfixTokens ⟨[], scopes⟩ := by
  simp only [compileLogged, tokens_eq_expr, hexpr, ok_bind] at hevents
  exact (Analysis.sees_compile hP hroot fun event hevent =>
    hevents event (List.mem_cons_of_mem _ hevent)).front

end Sluice

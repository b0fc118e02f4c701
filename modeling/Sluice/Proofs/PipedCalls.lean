import Mathlib
import Sluice.Proofs.Pipes

namespace Sluice

namespace Expr

-- Places have no part in what is bound.
theorem binds_unlocated (expr : Expr) : expr.unlocated.binds = expr.binds := by
  induction expr with
  | number text position => rfl
  | name text position => rfl
  | negate operand position ih => exact ih
  | binary operator left right position ihleft ihright =>
      simp only [unlocated, binds, ihleft, ihright]
  | pipe value callee position ihvalue ihcallee => simp only [unlocated, binds, ihvalue, ihcallee]
  | pipeWith value callee argument position ihvalue ihcallee ihargument =>
      simp only [unlocated, binds, ihvalue, ihcallee, ihargument]
  | member subject field position ih => exact ih
  | bracketed bracket inner opened closed ih =>
      cases bracket with
      | curly => rfl
      | round => exact ih
      | square => exact ih

theorem eq_name_of_unlocated {expr : Expr} {text : String}
    (h : expr.unlocated = .name text .start) : ∃ position, expr = .name text position := by
  cases expr with
  | name found position =>
      cases h
      exact ⟨position, rfl⟩
  | _ => contradiction

theorem eq_binary_of_unlocated {expr left right : Expr} {operator : Operator}
    (h : expr.unlocated = .binary operator left right .start) :
    ∃ first second position, expr = .binary operator first second position ∧
      first.unlocated = left ∧ second.unlocated = right := by
  cases expr with
  | binary found first second position =>
      cases h
      exact ⟨first, second, position, rfl, rfl, rfl⟩
  | _ => contradiction

theorem eq_bracketed_of_unlocated {expr inner : Expr} {bracket : Bracket}
    (h : expr.unlocated = .bracketed bracket inner .start .start) :
    ∃ found opened closed, expr = .bracketed bracket found opened closed ∧
      found.unlocated = inner := by
  cases expr with
  | bracketed kind found opened closed =>
      cases h
      exact ⟨found, opened, closed, rfl, rfl⟩
  | _ => contradiction

theorem unlocated_behind (before : Option Expr) (expr : Expr) (position : Position) :
    (behind before expr position).unlocated =
      behind (before.map unlocated) expr.unlocated .start := by
  cases before <;> rfl

theorem eq_behind_of_unlocated {expr phrase : Expr} {statements : Option Expr}
    (h : expr.unlocated = behind statements phrase .start) :
    ∃ before found position, expr = behind before found position ∧
      before.map unlocated = statements ∧ found.unlocated = phrase := by
  cases statements with
  | none => exact ⟨none, expr, .start, rfl, rfl, h⟩
  | some statements =>
      obtain ⟨first, second, position, rfl, rfl, rfl⟩ := eq_binary_of_unlocated h
      exact ⟨some first, second, position, rfl, rfl, rfl⟩

section Replacing

variable {expr argument left right : Expr} {statements : Option Expr} {name : String}

-- The pipe of a call, with the places of the call.
theorem exists_pipe_of_call
    (h : expr.unlocated =
      behind statements (.binary .call (.name name .start) argument .start) .start)
    (hbinds : argument.binds = false) :
    ∃ changed : Expr,
      changed.unlocated = behind statements (.pipe argument (.name name .start) .start) .start ∧
      ∀ {literals library}, Replaces literals library Eq expr changed := by
  obtain ⟨before, phrase, place, rfl, rfl, hphrase⟩ := eq_behind_of_unlocated h
  obtain ⟨callee, value, position, rfl, hcallee, rfl⟩ := eq_binary_of_unlocated hphrase
  obtain ⟨spot, rfl⟩ := eq_name_of_unlocated hcallee
  rw [binds_unlocated] at hbinds
  refine ⟨behind before (.pipe value (.name name spot) position) place, unlocated_behind .., ?_⟩
  exact Replaces.behind (fun _ => rfl) (replaces_call hbinds) before place

theorem exists_pipeWith_of_call
    (h : expr.unlocated = behind statements (.binary .call (.name name .start)
      (.bracketed .round (.binary .comma left right .start) .start .start) .start) .start)
    (hleft : left.binds = false) (hright : right.binds = false) :
    ∃ changed : Expr,
      changed.unlocated =
        behind statements (.pipeWith left (.name name .start) right .start) .start ∧
      ∀ {literals library}, Replaces literals library (fun _ _ => True) expr changed := by
  obtain ⟨before, phrase, place, rfl, rfl, hphrase⟩ := eq_behind_of_unlocated h
  obtain ⟨callee, argument, position, rfl, hcallee, hargument⟩ := eq_binary_of_unlocated hphrase
  obtain ⟨spot, rfl⟩ := eq_name_of_unlocated hcallee
  obtain ⟨inner, opened, closed, rfl, hinner⟩ := eq_bracketed_of_unlocated hargument
  obtain ⟨first, second, comma, rfl, rfl, rfl⟩ := eq_binary_of_unlocated hinner
  rw [binds_unlocated] at hleft hright
  refine ⟨behind before (.pipeWith first (.name name spot) second position) place,
    unlocated_behind .., ?_⟩
  exact Replaces.behind (fun _ => trivial) (replaces_callPair hleft hright comma opened closed)
    before place

end Replacing

end Expr

-- Two compilations that fail alike, or whose programs run alike.
inductive Agree (library : Library) (fails : Failure → Failure → Prop) :
    Except Failure Program → Except Failure Program → Prop
  | failed {first second : Failure} (h : fails first second) :
      Agree library fails (.error first) (.error second)
  | compiled {first second : Program} (h : second.run library = first.run library) :
      Agree library fails (.ok first) (.ok second)

namespace Agree

variable {library : Library} {first second third : Except Failure Program}
  {fails others both : Failure → Failure → Prop}

theorem trans (hfirst : Agree library fails first second)
    (hsecond : Agree library others second third)
    (hboth : ∀ {f g h}, fails f g → others g h → both f h) : Agree library both first third := by
  cases hfirst with
  | failed h =>
      cases hsecond with
      | failed h' => exact .failed (hboth h h')
  | compiled h =>
      cases hsecond with
      | compiled h' => exact .compiled (h'.trans h)

-- Programs that differ in places only.
theorem of_unlocate
    (h : unlocate Program.unlocated first = unlocate Program.unlocated second) :
    Agree library (fun f g => g.problem = f.problem) first second := by
  cases first with
  | error failure =>
      cases second with
      | error other =>
          have hfailure : failure.unlocated = other.unlocated := Except.error.inj h
          exact .failed (congrArg Failure.problem hfailure).symm
      | ok program => contradiction
  | ok program =>
      cases second with
      | error other => contradiction
      | ok other =>
          have hprogram : program.unlocated = other.unlocated := Except.ok.inj h
          exact .compiled (by rw [← other.run_unlocated, ← hprogram, program.run_unlocated])

-- Which of the two ways it is does not depend on the library of the runs.
theorem forall_cases (h : ∀ library, Agree library fails first second) :
    (∃ failure other, first = .error failure ∧ second = .error other ∧ fails failure other) ∨
    ∃ program other, first = .ok program ∧ second = .ok other ∧
      ∀ library, other.run library = program.run library := by
  cases first with
  | error failure =>
      cases second with
      | error other =>
          cases h .empty with
          | failed hfails => exact .inl ⟨failure, other, rfl, rfl, hfails⟩
      | ok other => nomatch h .empty
  | ok program =>
      cases second with
      | error other => nomatch h .empty
      | ok other =>
          refine .inr ⟨program, other, rfl, rfl, fun library => ?_⟩
          cases h library with
          | compiled hrun => exact hrun

end Agree

namespace Analysis

-- The program of an expression, with its end at the place of the last lexeme.
def finished (literals : Pool) (last : Position) (built : Joined) : Except Failure Program := do
  let (operand, scopes) ← built
  Plan.finish literals ⟨.finish, .leftUnary, "", last⟩ ⟨[.single operand], scopes⟩

theorem agree_finished_unlocated {first second : Expr} (h : second.unlocated = first.unlocated)
    (library : Library) (literals : Pool) (scopes : Scopes) (last other : Position) :
    Agree library (fun f g => g.problem = f.problem)
      (finished literals last (first.build scopes))
      (finished literals other (second.build scopes)) := by
  have hfinished : ∀ (expr : Expr) (last : Position),
      finished literals .start (expr.unlocated.build scopes) =
        unlocate Program.unlocated (finished literals last (expr.build scopes)) := fun expr last =>
    unlocate_bind (expr.build_unlocated scopes) fun ⟨operand, _⟩ =>
      Plan.finish_unlocated literals operand
  exact .of_unlocate (by rw [← hfinished, ← hfinished, h])

theorem Alike.finished {literals : Pool} {library : Library} {fails : Failure → Failure → Prop}
    {first second : Joined} (h : Alike literals library fails first second)
    (hrefl : ∀ failure, fails failure failure) (last : Position) :
    Agree library fails (finished literals last first) (finished literals last second) := by
  cases h with
  | failed h => exact .failed h
  | @built ty left right scopes hty hsize hyields =>
      simp only [Analysis.finished, Plan.finish, Piece.settle, Operand.settle, ok_bind, ne_eq,
        not_true_eq_false, if_false]
      split
      · exact .failed (hrefl _)
      · obtain ⟨meaning, hleft, hright⟩ := hyields _ (Nat.le_refl _)
        have hallowed : ¬ (Setting.ofLimit literals library scopes.frameSize.toNat).allowed
            (.plain .endedWithoutFinish) := fun h => h rfl
        have hfits : ty.extent < 2147483648 := Nat.lt_trans hsize (by decide)
        refine .compiled ?_
        have hfirst := @run_segment _ _ _ _ last hty hfits hallowed hleft _ rfl
        have hsecond := @run_segment _ _ _ _ last hty hfits hallowed hright _ rfl
        exact hsecond.trans hfirst.symm

end Analysis

namespace Source

-- The words of a text, without their places.
def words (source : Bytes) : Except Failure (List Word) :=
  (Lexeme.scan source).map (List.map Lexeme.word)

theorem expr_of_words {source : Bytes} {words : List Word} {expr : Expr}
    (hwords : Source.words source = .ok words)
    (h : Expr.read? .start 0 (words.map Lexeme.ofWord) = some (expr, [])) :
    ∃ found last, Source.expr source = .ok (found, last) ∧ found.unlocated = expr := by
  cases hscan : Lexeme.scan source with
  | error failure =>
      rw [Source.words, hscan] at hwords
      contradiction
  | ok lexemes =>
      rw [Source.words, hscan] at hwords
      obtain ⟨found, hparse, hfound⟩ := Expr.parse_of_words (Except.ok.inj hwords) h
      have hexpr : Source.expr source =
          .ok (found, (lexemes.getLast?.map Lexeme.position).getD .start) := by
        rw [Source.expr, hscan, ok_bind, hparse, ok_bind]
      exact ⟨found, _, hexpr, hfound⟩

variable {library : Library} {source other : Bytes} {first second changed : Expr}
  {last final : Position}

-- A text whose expression can be replaced, and one that differs from it in places only.
theorem agree_of_replaces {fails both : Failure → Failure → Prop} (hlibrary : library.Registered)
    (hevents : ∀ event ∈ (compileLogged library source).1, event.Holds Instruction.Sized)
    (hfirst : Source.expr source = .ok (first, last))
    (hsecond : Source.expr other = .ok (second, final))
    (hchanged : second.unlocated = changed.unlocated) (runner : Library)
    (hreplaces : ∀ literals, first.Replaces literals runner fails changed)
    (hrefl : ∀ failure, fails failure failure) (hboth : ∀ failure, both failure failure)
    (htrans : ∀ {f g h}, fails f g → h.problem = g.problem → both f h) :
    Agree runner both (compile library source) (compile library other) := by
  rw [compile_eq_build, compile_eq_build, hfirst, hsecond, ok_bind, ok_bind]
  cases hroot : Scopes.ofLibrary library with
  | error failure => exact .failed (hboth failure)
  | ok root =>
      obtain ⟨scopes, literals⟩ := root
      have hsees := sees_postfixTokens Analysis.faithful_sized hfirst hroot hevents
      have halike := hreplaces literals (hlibrary.steady hroot runner)
        (Scopes.floored_ofLibrary hroot) hsees
      exact (halike.finished hrefl last).trans
        (Analysis.agree_finished_unlocated hchanged runner literals scopes last final) htrans

end Source

-- Words that are read as one expression, with no assignment outside of braces.
def Word.AreValue (words : List Word) : Prop :=
  ∃ expr, Expr.ofWords words = .ok expr ∧ expr.binds = false

instance (words : List Word) : Decidable (Word.AreValue words) :=
  decidable_of_iff ((Expr.ofWords words).map Expr.binds = .ok false) (by
    cases h : Expr.ofWords words <;> simp [Word.AreValue, h, Except.map])

section Equivalence

variable {library : Library} {name : String} {sign : Mark} {before : Option (List Word)}
  {first second : List Word} {called piped : Bytes}

theorem agree_call_pipe (hlibrary : library.Registered) (hsign : Word.Pipes sign name)
    (hbefore : ∀ statements ∈ before, ∃ expr, Expr.ofWords statements = .ok expr)
    (hfirst : Word.AreValue first)
    (hcalled : Source.words called = .ok (Word.behind before (Word.call name first)))
    (hpiped : Source.words piped = .ok (Word.behind before (Word.pipe sign first name)))
    (hevents : ∀ event ∈ (Source.compileLogged library called).1, event.Holds Instruction.Sized)
    (runner : Library) :
    Agree runner (fun failure other => other.problem = failure.problem)
      (Source.compile library called) (Source.compile library piped) := by
  obtain ⟨value, hvalue, hbinds⟩ := hfirst
  have hread := Expr.read?_of_ofWords hvalue
  obtain ⟨statements, hstatements⟩ := Expr.exists_behind hbefore
  obtain ⟨expr, last, hexpr, hcall⟩ := Source.expr_of_words hcalled
    (hstatements fun least hleast => Expr.read?_call (by omega) hread)
  obtain ⟨other, final, hother, hpipe⟩ := Source.expr_of_words hpiped
    (hstatements fun least hleast => Expr.read?_pipe (by omega) hsign hread)
  obtain ⟨changed, hchanged, hreplaces⟩ := Expr.exists_pipe_of_call hcall hbinds
  exact Source.agree_of_replaces hlibrary hevents hexpr hother (hpipe.trans hchanged.symm) runner
    (fun _ => hreplaces) (fun _ => rfl) (fun _ => rfl) fun hsame hproblem => hsame ▸ hproblem

theorem agree_call_pipeWith (hlibrary : library.Registered) (hsign : Word.Pipes sign name)
    (hbefore : ∀ statements ∈ before, ∃ expr, Expr.ofWords statements = .ok expr)
    (hfirst : Word.AreValue first) (hsecond : Word.AreValue second)
    (hcalled : Source.words called =
      .ok (Word.behind before (Word.call name (Word.pair first second))))
    (hpiped : Source.words piped =
      .ok (Word.behind before (Word.pipeWith sign first name second)))
    (hevents : ∀ event ∈ (Source.compileLogged library called).1, event.Holds Instruction.Sized)
    (runner : Library) :
    Agree runner (fun _ _ => True) (Source.compile library called)
      (Source.compile library piped) := by
  obtain ⟨left, hvalue, hleft⟩ := hfirst
  obtain ⟨right, hargument, hright⟩ := hsecond
  have hread := Expr.read?_of_ofWords hvalue
  have hreadRight := Expr.read?_of_ofWords hargument
  obtain ⟨statements, hstatements⟩ := Expr.exists_behind hbefore
  obtain ⟨expr, last, hexpr, hcall⟩ := Source.expr_of_words hcalled
    (hstatements fun least hleast => Expr.read?_call (by omega) (Expr.read?_pair hread hreadRight))
  obtain ⟨other, final, hother, hpipe⟩ := Source.expr_of_words hpiped
    (hstatements fun least hleast => Expr.read?_pipeWith (by omega) hsign hread hreadRight)
  obtain ⟨changed, hchanged, hreplaces⟩ := Expr.exists_pipeWith_of_call hcall hleft hright
  exact Source.agree_of_replaces hlibrary hevents hexpr hother (hpipe.trans hchanged.symm) runner
    (fun _ => hreplaces) (fun _ => trivial) (fun _ => trivial) fun _ _ => trivial

end Equivalence

-- `f (x)` and `(x) |> f` fail with one problem or have the same runs. `f ((x), (y))` is compiled
-- exactly if `(x) |> f (y)` is, and then they have the same runs. Only the text with the call is
-- asked for the sizes of its types.
theorem pipe_agrees_with_call (library : Library) (name : String) (sign : Mark)
    (before : Option (List Word)) (first second : List Word) (called piped : Bytes)
    (hlibrary : library.Registered) (hsign : Word.Pipes sign name)
    (hbefore : ∀ statements ∈ before, ∃ expr, Expr.ofWords statements = .ok expr)
    (hfirst : Word.AreValue first) (hsecond : Word.AreValue second)
    (hevents : ∀ event ∈ (Source.compileLogged library called).1,
      event.Holds Instruction.Sized) :
    (Source.words called = .ok (Word.behind before (Word.call name first)) →
      Source.words piped = .ok (Word.behind before (Word.pipe sign first name)) →
      (∃ failure other, Source.compile library called = .error failure ∧
        Source.compile library piped = .error other ∧ other.problem = failure.problem) ∨
      ∃ program other, Source.compile library called = .ok program ∧
        Source.compile library piped = .ok other ∧
        ∀ runner, other.run runner = program.run runner) ∧
    (Source.words called = .ok (Word.behind before (Word.call name (Word.pair first second))) →
      Source.words piped = .ok (Word.behind before (Word.pipeWith sign first name second)) →
      ((∃ program, Source.compile library called = .ok program) ↔
        ∃ other, Source.compile library piped = .ok other) ∧
      ∀ program other, Source.compile library called = .ok program →
        Source.compile library piped = .ok other →
        ∀ runner, other.run runner = program.run runner) := by
  refine ⟨fun hcalled hpiped => ?_, fun hcalled hpiped => ?_⟩
  · exact Agree.forall_cases
      (agree_call_pipe hlibrary hsign hbefore hfirst hcalled hpiped hevents)
  · rcases Agree.forall_cases
      (agree_call_pipeWith hlibrary hsign hbefore hfirst hsecond hcalled hpiped hevents) with
      ⟨failure, other, hcall, hpipe, -⟩ | ⟨program, other, hcall, hpipe, hruns⟩
    · simp [hcall, hpipe]
    · refine ⟨⟨fun _ => ⟨other, hpipe⟩, fun _ => ⟨program, hcall⟩⟩, ?_⟩
      intro left right hleft hright
      cases hcall.symm.trans hleft
      cases hpipe.symm.trans hright
      exact hruns

-- Two functions of one name, for one number and for two.
def Library.overloaded : Library :=
  ⟨[.ofFunction "pick" (.func (.ofPrimitive .i32) (.ofPrimitive .i32)) fun argument _ =>
      some argument,
    .ofFunction "pick" (.func (.ofPrimitive .i32) (.tuple [.ofPrimitive .i32, .ofPrimitive .i32]))
      fun argument width => some (argument.take width)],
    [⟨"seven", .ofPrimitive .i32, [7, 0, 0, 0]⟩]⟩

theorem Library.registered_overloaded : Library.overloaded.Registered := by
  have hinteger : (Ty.ofPrimitive .i32).Constructed := .ofPrimitive .i32
  have hpair : (Ty.tuple [.ofPrimitive .i32, .ofPrimitive .i32]).Constructed :=
    .tuple (by simp [hinteger])
  have hone : Library.empty.registerNative "pick" (.ofPrimitive .i32) (.ofPrimitive .i32)
      (fun argument _ => some argument) = .ok (⟨0⟩, ⟨Library.overloaded.natives.take 1, []⟩) := rfl
  have htwo : (⟨Library.overloaded.natives.take 1, []⟩ : Library).registerNative "pick"
      (.ofPrimitive .i32) (.tuple [.ofPrimitive .i32, .ofPrimitive .i32])
      (fun argument width => some (argument.take width)) =
        .ok (⟨1⟩, ⟨Library.overloaded.natives, []⟩) := rfl
  have hseven : (⟨Library.overloaded.natives, []⟩ : Library).registerConstant "seven"
      (.ofPrimitive .i32) [7, 0, 0, 0] = .ok .overloaded := rfl
  exact .constant (.native (.native .empty hinteger hinteger hone) hinteger hpair htwo) hinteger
    hseven

theorem exists_of_isOk {α : Type} {result : Except Failure α} (h : result.isOk = true) :
    ∃ value, result = .ok value := by
  cases result with
  | error failure => contradiction
  | ok value => exact ⟨value, rfl⟩

-- `a := seven` and `{b := a; b}`.
def Word.start : List Word := [.name "a", .mark .assign, .name "seven"]

def Word.block : List Word :=
  [.mark (.opening .curly), .name "b", .mark .assign, .name "a", .mark .semicolon, .name "b",
    .mark (.closing .curly)]

def Source.callOne : Bytes := "a := seven; pick (\x7bb := a; b\x7d)".toUTF8.toList

def Source.pipeOne : Bytes := "a := seven; (\x7bb := a; b\x7d) |> pick".toUTF8.toList

def Source.callTwo : Bytes := "a := seven; pick ((\x7bb := a; b\x7d), (seven))".toUTF8.toList

def Source.pipeTwo : Bytes := "a := seven; (\x7bb := a; b\x7d).pick (seven)".toUTF8.toList

theorem pipe_agrees_with_call_overloaded :
    Library.overloaded.Registered ∧ Word.Pipes .pipe "pick" ∧ Word.Pipes .dot "pick" ∧
      (∀ statements ∈ some Word.start, ∃ expr, Expr.ofWords statements = .ok expr) ∧
      Word.AreValue Word.block ∧ Word.AreValue [.name "seven"] ∧
      (∃ program other, Source.compile .overloaded Source.callOne = .ok program ∧
        Source.compile .overloaded Source.pipeOne = .ok other ∧
        ∀ runner, other.run runner = program.run runner) ∧
      ∃ program other, Source.compile .overloaded Source.callTwo = .ok program ∧
        Source.compile .overloaded Source.pipeTwo = .ok other ∧
        ∀ runner, other.run runner = program.run runner := by
  have hbefore : ∀ statements ∈ some Word.start, ∃ expr, Expr.ofWords statements = .ok expr := by
    rintro _ ⟨⟩
    exact exists_of_isOk (by decide +kernel)
  have hblock : Word.AreValue Word.block := by decide +kernel
  have hseven : Word.AreValue [.name "seven"] := by decide +kernel
  have hpipe : Word.Pipes .pipe "pick" := .inl rfl
  have hdot : Word.Pipes .dot "pick" := .inr ⟨rfl, by decide +kernel⟩
  refine ⟨Library.registered_overloaded, hpipe, hdot, hbefore, hblock, hseven, ?_, ?_⟩
  · obtain ⟨program, hprogram⟩ := @exists_of_isOk _ (Source.compile .overloaded Source.callOne)
      (by decide +kernel)
    rcases (pipe_agrees_with_call .overloaded "pick" .pipe (some Word.start) Word.block
      [.name "seven"] Source.callOne Source.pipeOne Library.registered_overloaded hpipe hbefore
      hblock hseven (by decide +kernel)).1 (by decide +kernel) (by decide +kernel) with
      ⟨failure, other, hfailure, -⟩ | hruns
    · cases hprogram.symm.trans hfailure
    · exact hruns
  · obtain ⟨program, hprogram⟩ := @exists_of_isOk _ (Source.compile .overloaded Source.callTwo)
      (by decide +kernel)
    obtain ⟨hiff, hruns⟩ := (pipe_agrees_with_call .overloaded "pick" .dot (some Word.start)
      Word.block [.name "seven"] Source.callTwo Source.pipeTwo Library.registered_overloaded hdot
      hbefore hblock hseven (by decide +kernel)).2 (by decide +kernel) (by decide +kernel)
    obtain ⟨other, hother⟩ := hiff.mp ⟨program, hprogram⟩
    exact ⟨program, other, hprogram, hother, hruns program other hprogram hother⟩

end Sluice

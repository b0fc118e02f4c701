import Mathlib
import Sluice.Proofs.Realization

namespace Sluice

-- The library checks the handle, which leaves nothing else to check for an argument of the right
-- type.
private theorem Library.Checked.toOption_invoke {library : Library} (hlibrary : library.Checked)
    {ty : Ty}
    {result argument : Tree} {handle bytes : Bytes} (hty : ty.Describes (.func result argument))
    (hbytes : bytes.length = argument.size) (hargument : argument.size < 2147483648)
    (hresult : result.size < 2147483648) :
    (Machine.invoke library ty (UInt32.ofNat result.size) handle bytes).toOption.map
        (⟨result, ·⟩) =
      library.invoke? ⟨.func result argument, handle⟩ ⟨argument, bytes⟩ := by
  unfold Machine.invoke Library.invoke?
  cases hnative : (NativeId.ofBytes? handle).bind library.native? with
  | none => rfl
  | some native =>
      obtain ⟨id, -, hid⟩ := Option.bind_eq_some_iff.mp hnative
      obtain ⟨tree, htree⟩ := Ty.isWellFormed_iff.mp
        (hlibrary.native native (List.mem_of_getElem? hid)).wellFormed
      have hsame := hty.same_iff htree
      simp only [htree.tree_eq]
      by_cases heq : Tree.func result argument = tree
      · subst heq
        have hsize : (UInt32.ofNat argument.size).toNat = argument.size :=
          UInt32.toNat_ofNat_of_lt' (Nat.lt_trans hargument (by decide))
        have hwidth : (UInt32.ofNat result.size).toNat = result.size :=
          UInt32.toNat_ofNat_of_lt' (Nat.lt_trans hresult (by decide))
        simp [hsame.mpr rfl, htree.argument?, htree.result?, (Ty.describes_ofAtoms argument).size?,
          (Ty.describes_ofAtoms result).size?, hsize, hwidth, hbytes]
      · have hother : tree ≠ .func result argument := fun h => heq h.symm
        simp [hother, mt hsame.mp heq]

namespace Analysis

variable {setting : Setting} {frame after : Bytes}

-- A handle and an argument on the stack, and the call behind them.
theorem realizes_invoke (hlenient : setting.Lenient) (hlibrary : setting.library.Checked)
    {code : List Instruction} {ty argument : Ty} {callee value : Datum} {result : Tree}
    {scopes : Scopes} {env : Env} {position : Position} (hframe : frame.length = setting.limit)
    (hready : Readies setting frame code (ty.extent + argument.extent)
      (callee.bytes ++ value.bytes) after)
    (hholds : scopes.Holds setting.literals after env) (hty : ty.Describes callee.tree)
    (hdecided : callee.tree.isDecided = true) (hhandle : callee.bytes.length = ty.extent)
    (hargument : argument.Describes value.tree) (hbytes : value.bytes.length = argument.extent)
    (hcallee : callee.tree = .func result value.tree)
    (hsized : Instruction.Sized
      ⟨.call, .ofAtoms result.atoms, [ty, argument], .none, 0, position⟩) :
    Realizes setting frame false
      (some (.made code .call (.ofAtoms result.atoms) [ty, argument] .none position scopes))
      ((setting.library.invoke? callee value).map (·, env)) := by
  obtain ⟨tree, handle⟩ := callee
  obtain ⟨argumentTree, bytes⟩ := value
  subst hcallee
  have hdescribes := Ty.describes_ofAtoms result
  have hwell := Ty.isWellFormed_iff.mpr ⟨_, hty⟩
  have hmeasured := hsized.measured
  have hextent : ty.extent = handleWidth := hty.extent_eq
  have hresultSize : result.size < 2147483648 := by
    rw [← hdescribes.extent_eq]
    exact hmeasured.result
  have hargumentSize : argumentTree.size < 2147483648 := by
    rw [← hargument.extent_eq]
    exact hmeasured.operands _ (List.mem_cons_of_mem _ (List.mem_cons_self ..))
  have hacts := @acts_call _ position hlenient _ _ _ hwell (Ty.isWellFormed_iff.mpr ⟨_, hargument⟩)
    (Ty.isWellFormed_iff.mpr ⟨_, hdescribes⟩) (hmeasured.call rfl rfl hextent) hmeasured.result
  have hlength : bytes.length = argumentTree.size := hbytes.trans hargument.extent_eq
  rw [← hlibrary.toOption_invoke hty hlength hargumentSize hresultSize]
  cases hinvoke : Machine.invoke setting.library ty (UInt32.ofNat result.size) handle bytes with
  | error failure =>
      refine .fails fun found hfound => ?_
      cases hfound
      refine hready.fails hframe hacts (show _ = Except.error failure from ?_)
      rw [List.take_left' hhandle, List.drop_left' hhandle, hdescribes.extent_eq, hinvoke]
      rfl
  | ok outcome =>
      refine .gives rfl ⟨hdescribes, (Bool.and_eq_true_iff.mp hdecided).1, Bool.and_false _,
        hsized.result, fun _ => hsized.indexable _ (List.mem_cons_self ..), ?_⟩ hholds
      refine hready.delivers hacts ?_
      rw [List.take_left' hhandle, List.drop_left' hhandle, hdescribes.extent_eq, hinvoke]
      rfl

-- An operand that is to be called. A name leaves the frame as it is.
inductive Operand.Awaits (setting : Setting) (frame : Bytes) : Operand → Callee → Bytes → Prop
  | name (text : String) (place : Position) :
      Awaits setting frame (.name text place) (.named text) frame
  | value {isOpen : Bool} {coded : Coded} {datum : Datum} {after : Bytes}
      (h : coded.Gives setting frame isOpen datum after) :
      Awaits setting frame (.value coded.ty coded.segment) (.value datum) after

-- Code for the handle of a function that takes the argument.
structure Brings (setting : Setting) (frame after : Bytes) (tree : Tree) (ty : Ty)
    (segment : Segment) (datum : Datum) : Prop where
  describes : ty.Describes datum.tree
  decided : datum.tree.isDecided = true
  accepts : tree.accepts datum.tree = true
  delivers : segment.Delivers setting frame ty.extent datum.bytes after

theorem Brings.extent_eq {tree : Tree} {ty : Ty} {segment : Segment} {datum : Datum}
    (h : Brings setting frame after tree ty segment datum) : ty.extent = handleWidth := by
  obtain ⟨result, hfunc⟩ := Tree.accepts_iff.mp h.accepts
  rw [h.describes.extent_eq, hfunc, Tree.size]

-- A handle that fills the gap below a value.
theorem Brings.piped {middle : Bytes} {first : Coded} {isOpen : Bool} {value datum : Datum}
    {tree : Tree} {ty : Ty} {segment : Segment}
    (hfirst : first.Gives setting frame isOpen value middle)
    (hsmall : first.ty.extent < 2147483640)
    (h : Brings setting middle after tree ty segment datum) :
    Readies setting frame (first.segment.code gap ++ segment.code (backward first.ty))
      (ty.extent + first.ty.extent) (datum.bytes ++ value.bytes) after := by
  have hextent := h.extent_eq
  have hwidth : handleWidth = 8 := rfl
  obtain ⟨left, hleft, hvalue⟩ := hfirst.delivers
  obtain ⟨right, hright, hdatum⟩ := h.delivers
  rw [hextent] at hright ⊢
  refine ⟨_, hleft.piped hright (toInt_backward hfirst.isWellFormed (by omega)), ?_⟩
  simp only [Meaning.andThen, hvalue, hdatum, ok_bind, Meaning.give]

namespace Operand.Awaits

variable {operand : Operand} {callee : Callee} {scopes : Scopes} {env : Env} {argument : Ty}
  {position : Position}

theorem passes (h : operand.Awaits setting frame callee after)
    (hframe : frame.length = setting.limit) {ty : Ty} {segment : Segment}
    (hsettle : operand.settleCallee scopes argument position = .ok (ty, segment))
    (placement : Int32) : Passes setting frame (segment.code placement) after := by
  cases h with
  | name text place =>
      simp only [Operand.settleCallee] at hsettle
      split at hsettle
      · contradiction
      · cases hsettle
        refine passes_singleton ?_
        rename_i binding hbinding
        obtain ⟨ty, storage⟩ := binding
        cases storage <;> simp [Operand.loading, loadOf]
  | value h =>
      obtain ⟨-, rfl, -, -⟩ := Operand.eq_of_settleCallee_value hsettle
      exact h.delivers.passes hframe placement

theorem length (h : operand.Awaits setting frame callee after)
    (hframe : frame.length = setting.limit) : after.length = setting.limit := by
  cases h with
  | name text place => exact hframe
  | value h => exact (h.length hframe).2

-- The operand and the interpreter find the same function.
theorem select (h : operand.Awaits setting frame callee after)
    (hframe : frame.length = setting.limit) (hholds : scopes.Holds setting.literals after env)
    {tree : Tree} (hargument : argument.Describes tree) (hdecided : tree.isDecided = true)
    (position : Position) :
    Option.Rel (fun found => Brings setting frame after tree found.1 found.2)
      (operand.settleCallee scopes argument position).toOption (callee.select env tree) := by
  cases h with
  | name text place =>
      have hoverload := hholds.overload text hargument hdecided
      have haccepts := @Env.accepts_of_overload env text tree
      rw [Operand.settleCallee, Callee.select]
      generalize scopes.lookupMatching text (.func .undecided argument) = binding at hoverload ⊢
      generalize env.overload text tree = datum at hoverload haccepts ⊢
      cases hoverload with
      | none => exact .none
      | @some binding datum hbinding =>
          exact .some ⟨hbinding.describes, hbinding.decided, haccepts rfl,
            delivers_loading hbinding hframe place⟩
  | @value isOpen coded datum _ h =>
      have hmatches := hargument.matches?_call hdecided h.describes
      rw [Operand.settleCallee, Callee.select, hmatches]
      by_cases haccepts : tree.accepts datum.tree = true
      · obtain ⟨result, hfunc⟩ := Tree.accepts_iff.mp haccepts
        have hisFunc : coded.ty.isFunc = true := by
          rw [h.describes.isFunc_eq, hfunc]
          rfl
        simp only [hisFunc, not_true_eq_false, if_false, haccepts, inRange, ok_bind, if_true]
        exact .some ⟨h.describes, h.decided, haccepts, h.delivers⟩
      · rw [if_neg haccepts]
        by_cases hisFunc : coded.ty.isFunc = true
        · simp only [hisFunc, not_true_eq_false, if_false, haccepts, inRange, ok_bind]
          exact .none
        · rw [if_pos hisFunc]
          exact .none

end Operand.Awaits

-- A call fails if the code for its operands does, whatever the operand is settled to.
theorem Coded.fails_of_call? {before behind : List Instruction} {placement : Int32} {argument : Ty}
    {position : Position} {operand : Operand} {scopes : Scopes} {result : Coded}
    (h : Coded.call? before behind placement argument position operand scopes = some result)
    (hstuck : ∀ ty segment, operand.settleCallee scopes argument position = .ok (ty, segment) →
      Stuck setting frame (before ++ segment.code placement ++ behind)) :
    result.segment.Fails setting frame := by
  obtain ⟨⟨ty, segment⟩, hsettle, h⟩ := Option.bind_eq_some_iff.mp h
  obtain ⟨found, -, heq⟩ := Option.bind_eq_some_iff.mp h
  cases heq
  exact Segment.fails_of_init (hstuck ty segment (toOption_eq_some hsettle))

-- A call of the function that an operand stands for. The code for the handle runs somewhere in
-- front of the call, from the frame `start`.
theorem Operand.Awaits.call (hlenient : setting.Lenient) (hlibrary : setting.library.Checked)
    {start middle : Bytes} {operand : Operand} {callee : Callee} {scopes : Scopes} {env : Env}
    {argument : Ty} {value : Datum} {before behind : List Instruction} {placement : Int32}
    {position : Position} (h : operand.Awaits setting start callee middle)
    (hstart : start.length = setting.limit) (hframe : frame.length = setting.limit)
    (hselect : scopes.Holds setting.literals middle env)
    (hholds : scopes.Holds setting.literals after env) (hargument : argument.Describes value.tree)
    (hdecided : value.tree.isDecided = true) (hbytes : value.bytes.length = argument.extent)
    (hready : ∀ ty segment datum, Brings setting start middle value.tree ty segment datum →
      argument.extent < 2147483640 →
      Readies setting frame (before ++ segment.code placement ++ behind)
        (ty.extent + argument.extent) (datum.bytes ++ value.bytes) after)
    (hsized : ∀ result,
      Coded.call? before behind placement argument position operand scopes = some result →
      result.segment.last.Sized) :
    Realizes setting frame false
      (Coded.call? before behind placement argument position operand scopes)
      ((setting.library.call? env value callee).map (·, env)) := by
  have hfound := h.select hstart hselect hargument hdecided position
  unfold Coded.call? at hsized ⊢
  unfold Library.call?
  generalize (operand.settleCallee scopes argument position).toOption = found at hfound hsized ⊢
  generalize callee.select env value.tree = datum at hfound ⊢
  cases hfound with
  | none => exact .fails (by simp)
  | @some found datum hbrings =>
      obtain ⟨ty, segment⟩ := found
      obtain ⟨result, hfunc⟩ := Tree.accepts_iff.mp hbrings.accepts
      have hresult : ty.result? = some (.ofAtoms result.atoms) :=
        (hfunc ▸ hbrings.describes).result?
      simp only [Option.bind_eq_bind, Option.bind_some, hresult] at hsized ⊢
      have hlast := hsized _ rfl
      have hsmall : argument.extent < 2147483640 :=
        hlast.sizes _ (List.mem_cons_of_mem _ (List.mem_cons_of_mem _ (List.mem_cons_self ..)))
      exact realizes_invoke hlenient hlibrary hframe (hready ty segment datum hbrings hsmall) hholds
        hbrings.describes hbrings.decided (hbrings.delivers.length hstart).1 hargument hbytes hfunc
        hlast

def Operand.Fails (setting : Setting) (frame : Bytes) (operand : Operand) : Prop :=
  ∀ {scopes : Scopes} {argument ty : Ty} {position : Position} {segment : Segment},
    operand.settleCallee scopes argument position = .ok (ty, segment) →
    segment.Fails setting frame

-- What stands in the place of a function realizes what the interpreter has there.
inductive Calls (setting : Setting) (frame : Bytes) (built : Option (Operand × Scopes)) :
    Option (Callee × Env) → Prop
  | fails (h : ∀ operand scopes, built = some (operand, scopes) → operand.Fails setting frame) :
      Calls setting frame built none
  | gives {operand : Operand} {scopes : Scopes} {callee : Callee} {after : Bytes} {env : Env}
      (hbuilt : built = some (operand, scopes))
      (hawaits : operand.Awaits setting frame callee after)
      (hholds : scopes.Holds setting.literals after env) :
      Calls setting frame built (some (callee, env))

theorem Calls.bind {start : Bytes} {opens : Bool} {built : Option (Operand × Scopes)}
    {value : Option (Callee × Env)} {sign : Operand × Scopes → Option Coded}
    {next : Callee × Env → Option (Datum × Env)} (h : Calls setting frame built value)
    (hfails : ∀ operand scopes result, built = some (operand, scopes) →
      operand.Fails setting frame → sign (operand, scopes) = some result →
      result.segment.Fails setting start)
    (hgives : ∀ operand scopes callee after env, built = some (operand, scopes) →
      operand.Awaits setting frame callee after → scopes.Holds setting.literals after env →
      Realizes setting start opens (sign (operand, scopes)) (next (callee, env))) :
    Realizes setting start opens (built.bind sign) (value.bind next) := by
  cases h with
  | fails h =>
      refine .fails fun result hresult => ?_
      obtain ⟨⟨operand, scopes⟩, hbuilt, hsign⟩ := Option.bind_eq_some_iff.mp hresult
      exact hfails operand scopes result hbuilt (h operand scopes hbuilt) hsign
  | @gives operand scopes callee after env hbuilt hawaits hholds =>
      subst hbuilt
      exact hgives operand scopes callee after env rfl hawaits hholds

theorem Realizes.calls {library : Library} {isOpen : Bool} {callee : Expr} {scopes : Scopes}
    {env : Env} (h : Realizes setting frame isOpen (callee.code? scopes) (callee.eval library env))
    (hholds : scopes.Holds setting.literals frame env) :
    Calls setting frame (callee.build scopes).toOption
      (callee.called env (callee.eval library env)) := by
  unfold Expr.called
  cases hbare : callee.bare? with
  | some found =>
      rw [Expr.build_of_bare? hbare]
      exact .gives rfl (.name found.1 found.2) hholds
  | none =>
      generalize callee.eval library env = value at h ⊢
      cases hbuild : callee.build scopes with
      | error failure =>
          have hcode : callee.code? scopes = none := by rw [Expr.code?, hbuild, coded?_error]
          rw [hcode] at h
          cases h with
          | fails h => exact .fails (by simp)
          | gives hcoded => contradiction
      | ok built =>
          obtain ⟨operand, outer⟩ := built
          cases operand with
          | name text place =>
              rw [Expr.bare?_of_build hbuild] at hbare
              contradiction
          | value ty segment =>
              have hcode : callee.code? scopes = some ⟨ty, segment, outer⟩ := by
                rw [Expr.code?, hbuild]
                rfl
              rw [hcode] at h
              cases h with
              | fails h =>
                  refine .fails fun operand scopes hbuilt => ?_
                  cases hbuilt
                  intro _ _ _ _ _ hsettle
                  obtain ⟨-, rfl, -, -⟩ := Operand.eq_of_settleCallee_value hsettle
                  exact h _ rfl
              | gives hcoded hgives hholds =>
                  cases hcoded
                  exact .gives rfl (.value hgives) hholds

section Forms

variable {isOpen argumentOpen : Bool} {coded : Option Coded} {value : Option (Datum × Env)}
  {code : Scopes → Option Coded} {eval : Env → Option (Datum × Env)}
  (build : Scopes → Option (Operand × Scopes)) (called : Env → Option (Callee × Env))
  {position : Position}

-- The handle goes below the argument, and both are there before the function is known.
theorem Calls.call (hlenient : setting.Lenient) (hlibrary : setting.library.Checked)
    {built : Option (Operand × Scopes)} {callee : Option (Callee × Env)}
    (hframe : frame.length = setting.limit) (hcallee : Calls setting frame built callee)
    (hargument : ∀ operand scopes middle env, built = some (operand, scopes) →
      middle.length = setting.limit → scopes.Holds setting.literals middle env →
      Realizes setting middle argumentOpen (code scopes) (eval env))
    (hchain : ∀ {scopes second}, code scopes = some second → second.scopes.chain = scopes.chain)
    (henv : ∀ {env datum after}, eval env = some (datum, after) → after = env)
    (hsized : ∀ result, (built.bind fun built => (code built.2).bind fun second =>
        Coded.call? [] (second.segment.code 0) 0 second.ty position built.1 second.scopes) =
      some result → result.segment.last.Sized) :
    Realizes setting frame false
      (built.bind fun built => (code built.2).bind fun second =>
        Coded.call? [] (second.segment.code 0) 0 second.ty position built.1 second.scopes)
      (callee.bind fun callee => (eval callee.2).bind fun argument =>
        (setting.library.call? argument.2 argument.1 callee.1).map (·, argument.2)) := by
  refine hcallee.bind (fun operand scopes result hbuilt hfails hresult => ?_)
    fun operand scopes callee middle env hbuilt hawaits hholds => ?_
  · obtain ⟨second, -, hcall⟩ := Option.bind_eq_some_iff.mp hresult
    exact Coded.fails_of_call? hcall fun ty segment hsettle => (hfails hsettle 0).append _
  · have hmiddle := hawaits.length hframe
    refine (hargument operand scopes middle env hbuilt hmiddle hholds).bind
      (fun second result hsecond hfails hcall => ?_)
      fun second argument after behind hsecond heval hgives hbehind => ?_
    · exact Coded.fails_of_call? hcall fun ty segment hsettle =>
        (hawaits.passes hframe hsettle 0).stuck (hfails 0)
    · obtain rfl := henv heval
      refine hawaits.call hlenient hlibrary hframe hframe (hholds.congr (hchain hsecond)) hbehind
        hgives.describes hgives.decided (hgives.delivers.length hmiddle).1
        (fun ty segment datum hbrings _ => ?_) fun result hresult => hsized result ?_
      · exact hbrings.delivers.readies.append hgives.delivers.readies
      · simp [hbuilt, hsecond, hresult]

-- The value comes first and leaves a gap for the handle.
theorem Realizes.pipe (hlenient : setting.Lenient) (hlibrary : setting.library.Checked)
    (hframe : frame.length = setting.limit) (hvalue : Realizes setting frame isOpen coded value)
    (hcallee : ∀ first middle env, coded = some first → middle.length = setting.limit →
      first.scopes.Holds setting.literals middle env →
      Calls setting middle (build first.scopes) (called env))
    (hsized : ∀ result, (coded.bind fun first => (build first.scopes).bind fun built =>
        first.ty.size?.bind fun _ => Coded.call? (first.segment.code gap) [] (backward first.ty)
          first.ty position built.1 built.2) = some result → result.segment.last.Sized) :
    Realizes setting frame false
      (coded.bind fun first => (build first.scopes).bind fun built =>
        first.ty.size?.bind fun _ => Coded.call? (first.segment.code gap) [] (backward first.ty)
          first.ty position built.1 built.2)
      (value.bind fun first => (called first.2).bind fun callee =>
        (setting.library.call? callee.2 first.1 callee.1).map (·, callee.2)) := by
  refine hvalue.bind (fun first result hfirst hfails hresult => ?_)
    fun first datum middle env hfirst _ hgives hholds => ?_
  · obtain ⟨built, -, hresult⟩ := Option.bind_eq_some_iff.mp hresult
    obtain ⟨size, -, hcall⟩ := Option.bind_eq_some_iff.mp hresult
    exact Coded.fails_of_call? hcall fun _ _ _ => ((hfails gap).append _).append _
  · have hmiddle := (hgives.length hframe).2
    refine (hcallee first middle env hfirst hmiddle hholds).bind
      (fun operand scopes result hbuilt hfails hresult => ?_)
      fun operand scopes callee after behind hbuilt hawaits hbehind => ?_
    · obtain ⟨size, -, hcall⟩ := Option.bind_eq_some_iff.mp hresult
      exact Coded.fails_of_call? hcall fun ty segment hsettle =>
        ((hgives.delivers.passes hframe gap).stuck (hfails hsettle _)).append _
    · have hsize := Ty.size?_eq_extent hgives.isWellFormed
      simp only [hsize, Option.bind_some]
      refine hawaits.call hlenient hlibrary hmiddle hframe hbehind hbehind hgives.describes
        hgives.decided (hgives.delivers.length hframe).1
        (fun ty segment found hbrings hsmall => ?_) fun result hresult => hsized result ?_
      · rw [List.append_nil]
        exact hbrings.piped hgives hsmall
      · simp [hfirst, hbuilt, hsize, hresult]

-- The second part of the argument comes last and joins the value that was piped.
theorem Realizes.pipeWith (hlenient : setting.Lenient) (hlibrary : setting.library.Checked)
    (hframe : frame.length = setting.limit) (hvalue : Realizes setting frame isOpen coded value)
    (hcallee : ∀ first middle env, coded = some first → middle.length = setting.limit →
      first.scopes.Holds setting.literals middle env →
      Calls setting middle (build first.scopes) (called env))
    (hargument : ∀ first operand scopes after env, coded = some first →
      first.ty.isWellFormed = true → build first.scopes = some (operand, scopes) →
      after.length = setting.limit → scopes.Holds setting.literals after env →
      Realizes setting after argumentOpen (code scopes) (eval env))
    (hchain : ∀ {scopes third}, code scopes = some third → third.scopes.chain = scopes.chain)
    (henv : ∀ {env datum after}, eval env = some (datum, after) → after = env)
    (hsized : ∀ result, (coded.bind fun first => (build first.scopes).bind fun built =>
        first.ty.size?.bind fun _ => (code built.2).bind fun third =>
          (first.ty.append? third.ty).bind fun whole =>
            Coded.call? (first.segment.code gap) (third.segment.code 0) (backward first.ty) whole
              position built.1 third.scopes) = some result → result.segment.last.Sized) :
    Realizes setting frame false
      (coded.bind fun first => (build first.scopes).bind fun built =>
        first.ty.size?.bind fun _ => (code built.2).bind fun third =>
          (first.ty.append? third.ty).bind fun whole =>
            Coded.call? (first.segment.code gap) (third.segment.code 0) (backward first.ty) whole
              position built.1 third.scopes)
      (value.bind fun first => (called first.2).bind fun callee =>
        (eval callee.2).bind fun second =>
          (setting.library.call? second.2 (first.1.join isOpen second.1) callee.1).map
            (·, second.2)) := by
  refine hvalue.bind (fun first result hfirst hfails hresult => ?_)
    fun first datum middle env hfirst _ hgives hholds => ?_
  · obtain ⟨built, -, hresult⟩ := Option.bind_eq_some_iff.mp hresult
    obtain ⟨size, -, hresult⟩ := Option.bind_eq_some_iff.mp hresult
    obtain ⟨third, -, hresult⟩ := Option.bind_eq_some_iff.mp hresult
    obtain ⟨whole, -, hcall⟩ := Option.bind_eq_some_iff.mp hresult
    exact Coded.fails_of_call? hcall fun _ _ _ => ((hfails gap).append _).append _
  · have hmiddle := (hgives.length hframe).2
    refine (hcallee first middle env hfirst hmiddle hholds).bind
      (fun operand scopes result hbuilt hfails hresult => ?_)
      fun operand scopes callee after behind hbuilt hawaits hbehind => ?_
    · obtain ⟨size, -, hresult⟩ := Option.bind_eq_some_iff.mp hresult
      obtain ⟨third, -, hresult⟩ := Option.bind_eq_some_iff.mp hresult
      obtain ⟨whole, -, hcall⟩ := Option.bind_eq_some_iff.mp hresult
      exact Coded.fails_of_call? hcall fun ty segment hsettle =>
        ((hgives.delivers.passes hframe gap).stuck (hfails hsettle _)).append _
    · have hsize := Ty.size?_eq_extent hgives.isWellFormed
      have hafter := hawaits.length hmiddle
      simp only [hsize, Option.bind_some]
      refine (hargument first operand scopes after behind hfirst hgives.isWellFormed hbuilt hafter
        hbehind).bind (fun third result hthird hfails hresult => ?_)
        fun third other final last hthird heval hother hlast => ?_
      · obtain ⟨whole, -, hcall⟩ := Option.bind_eq_some_iff.mp hresult
        exact Coded.fails_of_call? hcall fun ty segment hsettle =>
          ((hgives.delivers.passes hframe gap).append
            (hawaits.passes hmiddle hsettle _)).stuck (hfails 0)
      · obtain rfl := henv heval
        obtain ⟨whole, hwhole, hdescribes, -⟩ :=
          Ty.append?_describes hgives.describes hother.describes
        rw [hgives.opens] at hdescribes
        have hextent := Ty.extent_append? hgives.isWellFormed hother.isWellFormed hwhole
        have hleft := (hgives.delivers.length hframe).1
        have hright := (hother.delivers.length hafter).1
        simp only [hwhole, Option.bind_some]
        refine hawaits.call hlenient hlibrary hmiddle hframe (hbehind.congr (hchain hthird)) hlast
          hdescribes (Ty.isDecided_joined hgives.decided hother.decided) ?_
          (fun ty segment found hbrings hsmall => ?_) fun result hresult => hsized result ?_
        · rw [Datum.join, List.length_append, hleft, hright, hextent]
        · rw [hextent, ← Nat.add_assoc, Datum.join, ← List.append_assoc]
          exact (hbrings.piped hgives (by omega)).append hother.delivers.readies
        · simp [hfirst, hbuilt, hsize, hthird, hwhole, hresult]

end Forms

end Analysis

end Sluice

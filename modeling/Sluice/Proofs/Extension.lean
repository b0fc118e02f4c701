import Mathlib
import Sluice.Proofs.Arrangement
import Sluice.Proofs.Isolation
import Sluice.Proofs.Registration

namespace Sluice

namespace Library

-- What registering adds stands behind the old entries, and is called as it was registered.
structure Grows (library larger : Library) (names : List String) : Prop where
  natives : ∃ added, larger.natives = library.natives ++ added ∧
    ∀ native ∈ added, native.name ∈ names
  constants : ∃ added, larger.constants = library.constants ++ added ∧
    ∀ constant ∈ added, constant.name ∈ names

private theorem grows_register {library larger : Library} {registration : Registration}
    (h : library.register registration = .ok larger) :
    library.Grows larger [registration.name] := by
  cases registration with
  | native name result argument compute =>
      obtain ⟨⟨id, found⟩, hregister, rfl⟩ := map_eq_ok.mp h
      obtain ⟨-, rfl⟩ := registerNative_eq_ok hregister
      exact ⟨⟨_, rfl, by simp [Native.ofFunction, Registration.name]⟩, [], by simp, by simp⟩
  | constant name ty bytes =>
      obtain ⟨-, -, rfl⟩ := registerConstant_eq_ok h
      exact ⟨⟨[], by simp, by simp⟩, _, rfl, by simp [Registration.name]⟩

theorem Grows.trans {library middle larger : Library} {first second : List String}
    (hfirst : library.Grows middle first) (hsecond : middle.Grows larger second) :
    library.Grows larger (first ++ second) := by
  obtain ⟨⟨natives, hnatives, hnativeNames⟩, constants, hconstants, hconstantNames⟩ := hfirst
  obtain ⟨⟨more, hmore, hmoreNames⟩, others, hothers, hotherNames⟩ := hsecond
  refine ⟨⟨natives ++ more, by simp [hmore, hnatives], ?_⟩, constants ++ others,
    by simp [hothers, hconstants], ?_⟩
  · intro native hnative
    rcases List.mem_append.mp hnative with hnative | hnative
    · exact List.mem_append_left _ (hnativeNames native hnative)
    · exact List.mem_append_right _ (hmoreNames native hnative)
  · intro constant hconstant
    rcases List.mem_append.mp hconstant with hconstant | hconstant
    · exact List.mem_append_left _ (hconstantNames constant hconstant)
    · exact List.mem_append_right _ (hotherNames constant hconstant)

theorem grows_registerAll {library larger : Library} {registrations : List Registration}
    (h : library.registerAll registrations = .ok larger) :
    library.Grows larger (registrations.map Registration.name) := by
  induction registrations generalizing library with
  | nil =>
      cases h
      exact ⟨⟨[], by simp, by simp⟩, [], by simp, by simp⟩
  | cons registration rest ih =>
      obtain ⟨middle, hregister, h⟩ := bind_eq_ok.mp h
      exact (grows_register hregister).trans (ih h)

-- Handles keep their natives.
theorem Grows.native? {library larger : Library} {names : List String} {id : NativeId}
    {native : Native} (h : library.Grows larger names) (hnative : library.native? id = some native) :
    larger.native? id = some native := by
  obtain ⟨added, hnatives, -⟩ := h.natives
  obtain ⟨hbound, -⟩ := List.getElem?_eq_some_iff.mp hnative
  rw [Library.native?, hnatives, List.getElem?_append_left hbound]
  exact hnative

end Library

namespace Machine

variable {literals : Pool} {library larger : Library} {names : List String}
  {instruction : Instruction}

private theorem call_of_grows (h : library.Grows larger names) {store next : Store} {size : UInt32}
    (hcall : call library store instruction size = .ok next) :
    call larger store instruction size = .ok next := by
  obtain ⟨⟨handle, argument, rest⟩, hpop, hcall⟩ := bind_eq_ok.mp hcall
  dsimp only at hcall
  split at hcall
  · contradiction
  · rename_i native hnative
    obtain ⟨id, hid, hfound⟩ := Option.bind_eq_some_iff.mp hnative
    have hlarger : (NativeId.ofBytes? handle).bind larger.native? = some native := by
      rw [hid, Option.bind_some, h.native? hfound]
    rw [call, hpop, ok_bind]
    simp only [hlarger]
    exact hcall

private theorem step_of_grows (h : library.Grows larger names) {store : Store} {outcome : Outcome}
    (hstep : step literals library store instruction = .ok outcome) :
    step literals larger store instruction = .ok outcome := by
  by_cases hop : instruction.op = .call
  · obtain ⟨size, hsize, hstep⟩ := bind_eq_ok.mp hstep
    simp only [hop] at hstep
    obtain ⟨next, hcall, rfl⟩ := map_eq_ok.mp hstep
    rw [step, hsize, ok_bind]
    simp only [hop, call_of_grows h hcall]
    rfl
  · rw [step_eq_of_not_call hop]
    exact hstep

-- A run that ends well is the same run, with all its events.
theorem run_of_grows (h : library.Grows larger names) {value : Value} (code : List Instruction)
    (index : Nat) (store : Store)
    (hrun : (run literals library index store code).2 = .ok value) :
    run literals larger index store code = run literals library index store code := by
  induction code generalizing index store with
  | nil => contradiction
  | cons instruction rest ih =>
      cases hstep : step literals library store instruction with
      | error failure =>
          rw [run, hstep] at hrun
          contradiction
      | ok outcome =>
          have hlarger := step_of_grows h hstep
          cases outcome with
          | done result => rw [run, run, hstep, hlarger]
          | running next =>
              rw [run, hstep] at hrun
              rw [run, run, hstep, hlarger]
              simp only [ih (index + 1) next hrun]

end Machine

-- The bindings of all other names.
def Scope.without (names : List String) (scope : Scope) : Scope :=
  { scope with bindings := scope.bindings.filter fun entry => entry.1 ∉ names }

theorem Scope.overloads_without {names : List String} {name : String} (h : name ∉ names)
    (scope : Scope) : (scope.without names).overloads name = scope.overloads name := by
  have hfilter : (scope.bindings.filter fun entry => entry.1 ∉ names).filter
      (fun entry => entry.1 = name) = scope.bindings.filter fun entry => entry.1 = name := by
    rw [List.filter_filter]
    refine List.filter_congr fun entry _ => ?_
    by_cases hname : entry.1 = name <;> simp [hname, h]
  rw [overloads, overloads, without, hfilter]

namespace Scopes

def without (names : List String) (scopes : Scopes) : Scopes :=
  { scopes with
    current := scopes.current.without names
    outer := scopes.outer.map (Scope.without names) }

variable {names : List String} {name : String} (scopes : Scopes)

theorem chain_without : (scopes.without names).chain = scopes.chain.map (Scope.without names) := rfl

theorem depth_without : (scopes.without names).depth = scopes.depth := by
  rw [depth, chain_without, List.length_map, depth]

theorem lookup_without (h : name ∉ names) :
    (scopes.without names).lookup name = scopes.lookup name := by
  simp only [lookup, chain_without, List.findSome?_map, Function.comp_def,
    Scope.overloads_without h]

theorem lookupMatching_without (h : name ∉ names) (pattern : Ty) :
    (scopes.without names).lookupMatching name pattern = scopes.lookupMatching name pattern := by
  simp only [lookupMatching, chain_without, List.findSome?_map, Function.comp_def,
    Scope.overloads_without h]

theorem leave_without :
    (scopes.without names).leave = scopes.leave.map (without names) := by
  obtain ⟨current, outer, frameSize⟩ := scopes
  cases outer <;> rfl

theorem declare_without (h : name ∉ names) (binding : Binding) (position : Position) :
    (scopes.without names).declare name binding position =
      (scopes.declare name binding position).map (without names) := by
  have hcurrent : (scopes.without names).current = scopes.current.without names := rfl
  simp only [declare, hcurrent, Scope.overloads_without h]
  split
  · rfl
  · simp [Except.map, without, Scope.without, h]

end Scopes

namespace Analysis

-- Operands that are none of the names.
def Operand.Avoids (names : List String) : Operand → Prop
  | .value _ _ => True
  | .name text _ => text ∉ names

def Piece.Avoids (names : List String) : Piece → Prop
  | .single operand => operand.Avoids names
  | .piped _ _ callee => callee.Avoids names

-- The same in scopes without the names, except that these are still missing behind it.
def Hides (names : List String) (sign : Scopes → Joined) : Prop :=
  ∀ scopes, sign (scopes.without names) =
    (sign scopes).map fun built => (built.1, built.2.without names)

section Hides

variable {names : List String}

theorem hides_bind {α : Type} {first : Scopes → Except Failure α} {next : α → Scopes → Joined}
    (hfirst : ∀ scopes, first (scopes.without names) = first scopes)
    (hnext : ∀ value, Hides names (next value)) :
    Hides names fun scopes => first scopes >>= fun value => next value scopes := by
  intro scopes
  simp only [hfirst]
  cases first scopes with
  | error failure => rfl
  | ok value => exact hnext value scopes

theorem hides_join (before : List Instruction) (op : Op) (result : Ty) (operands : List Ty)
    (payload : Payload) (position : Position) :
    Hides names fun scopes => join scopes before op result operands payload position :=
  fun _ => rfl

theorem hides_error (failure : Failure) : Hides names fun _ => .error failure := fun _ => rfl

theorem Operand.settle_without {operand : Operand} (h : operand.Avoids names) (scopes : Scopes) :
    operand.settle (scopes.without names) = operand.settle scopes := by
  cases operand with
  | value ty segment => rfl
  | name text position => simp only [settle, Scopes.lookup_without scopes h]

theorem Piece.settle_without {piece : Piece} (h : piece.Avoids names) (scopes : Scopes) :
    piece.settle (scopes.without names) = piece.settle scopes := by
  cases piece with
  | single operand => exact Operand.settle_without h scopes
  | piped ty value callee => rfl

theorem Operand.settleCallee_without {operand : Operand} (h : operand.Avoids names)
    (argument : Ty) (position : Position) (scopes : Scopes) :
    operand.settleCallee (scopes.without names) argument position =
      operand.settleCallee scopes argument position := by
  cases operand with
  | value ty segment => rfl
  | name text place =>
      simp only [settleCallee, Scopes.lookupMatching_without scopes h, calleeProblem,
        Scopes.lookup_without scopes h]

-- The piece of a pipe ends with the callee.
theorem Operand.hides_piping {value callee : Operand} {next : Piece → Scopes → Joined}
    (hvalue : value.Avoids names) (hcallee : callee.Avoids names)
    (hnext : ∀ piece : Piece, piece.Avoids names → Hides names (next piece)) :
    Hides names fun scopes => value.piping callee scopes >>= fun piece => next piece scopes := by
  intro scopes
  have hpiping : value.piping callee (scopes.without names) = value.piping callee scopes := by
    simp only [piping, Operand.settle_without hvalue]
  simp only [hpiping]
  cases hpiece : value.piping callee scopes with
  | error failure => rfl
  | ok piece =>
      obtain ⟨ty, segment, size, -, -, rfl⟩ := Operand.piping_eq_ok hpiece
      exact hnext (.piped ty segment callee) hcallee scopes

theorem Piece.hides_number (text : String) (position : Position) :
    Hides names (Piece.number text position) := by
  intro scopes
  unfold Piece.number
  split
  · split <;> rfl
  · split
    · rfl
    · split <;> rfl

theorem Piece.hides_assign {left right : Piece} (hleft : left.Avoids names)
    (hright : right.Avoids names) (position : Position) :
    Hides names (Piece.assign position left right) := by
  refine hides_bind (Piece.settle_without hright) ?_
  rintro ⟨ty, segment⟩
  cases left with
  | piped valueTy value callee => exact hides_error _
  | single operand =>
      cases operand with
      | value valueTy code => exact hides_error _
      | name name place =>
          refine hides_bind (fun _ => rfl) fun size scopes => ?_
          have hallocate : (scopes.without names).allocate size =
              ((scopes.allocate size).1, (scopes.allocate size).2.without names) := rfl
          simp only [hallocate, Scopes.declare_without _ hleft]
          cases (scopes.allocate size).2.declare name _ place <;> rfl

theorem Piece.hides_arithmetic {left right : Piece} (hleft : left.Avoids names)
    (hright : right.Avoids names) (op : Op) (sign : String) (position : Position) :
    Hides names (Piece.arithmetic op sign position left right) := by
  refine hides_bind (Piece.settle_without hleft) ?_
  rintro ⟨leftTy, leftSegment⟩
  refine hides_bind (Piece.settle_without hright) ?_
  rintro ⟨rightTy, rightSegment⟩
  dsimp only
  split
  · split
    · exact hides_join _ _ _ _ _ _
    · exact hides_error _
  · exact hides_error _

theorem Piece.hides_negate {piece : Piece} (h : piece.Avoids names) (position : Position) :
    Hides names (Piece.negate position piece) := by
  refine hides_bind (Piece.settle_without h) ?_
  rintro ⟨ty, segment⟩
  dsimp only
  split
  · exact hides_join _ _ _ _ _ _
  · exact hides_error _

theorem Piece.hides_tuple {left right : Piece} (hleft : left.Avoids names)
    (hright : right.Avoids names) (position : Position) :
    Hides names (Piece.tuple position left right) := by
  refine hides_bind (Piece.settle_without hleft) ?_
  rintro ⟨leftTy, leftSegment⟩
  refine hides_bind (Piece.settle_without hright) ?_
  rintro ⟨rightTy, rightSegment⟩
  exact hides_bind (fun _ => rfl) fun whole => hides_join _ _ _ _ _ _

theorem Piece.hides_sequence {left right : Piece} (hleft : left.Avoids names)
    (hright : right.Avoids names) (position : Position) :
    Hides names (Piece.sequence position left right) := by
  refine hides_bind (Piece.settle_without hleft) ?_
  rintro ⟨leftTy, leftSegment⟩
  refine hides_bind (Piece.settle_without hright) ?_
  rintro ⟨rightTy, rightSegment⟩
  exact hides_join _ _ _ _ _ _

theorem Piece.hides_call {callee : Operand} (h : callee.Avoids names)
    (before behind : List Instruction) (placement : Int32) (argument : Ty) (position : Position) :
    Hides names (Piece.call before behind placement argument position callee) := by
  refine hides_bind (Operand.settleCallee_without h argument position) ?_
  rintro ⟨ty, segment⟩
  dsimp only
  split
  · exact hides_error _
  · exact hides_join _ _ _ _ _ _

theorem Piece.hides_applied {left argument : Piece} (hleft : left.Avoids names)
    (hargument : argument.Avoids names) (position : Position) :
    Hides names (Piece.applied position left argument) := by
  refine hides_bind (Piece.settle_without hargument) ?_
  rintro ⟨ty, segment⟩
  cases left with
  | single callee => exact Piece.hides_call hleft _ _ _ _ _
  | piped valueTy value callee =>
      exact hides_bind (fun _ => rfl) fun whole => Piece.hides_call hleft _ _ _ _ _

theorem Piece.hides_completed {piece : Piece} (h : piece.Avoids names) (position : Position) :
    Hides names (Piece.completed position piece) := by
  cases piece with
  | single operand => exact hides_error _
  | piped ty value callee => exact Piece.hides_call h _ _ _ _ _

-- The field of a member is no name that is looked up.
theorem Piece.hides_member {subject : Piece} (h : subject.Avoids names) (field : Piece)
    (position : Position) : Hides names (Piece.member position subject field) := by
  cases field with
  | piped valueTy value callee => exact hides_error _
  | single operand =>
      cases operand with
      | value valueTy code => exact hides_error _
      | name name place =>
          refine hides_bind (Piece.settle_without h) ?_
          rintro ⟨ty, segment⟩
          dsimp only
          split
          · exact hides_error _
          · exact hides_bind (fun _ => rfl) fun inner => hides_join _ _ _ _ _ _

theorem Piece.hides_group (piece : Piece) : Hides names (Piece.group piece) := by
  intro scopes
  cases piece with
  | piped valueTy value callee => rfl
  | single operand => cases operand <;> rfl

theorem Piece.hides_array {piece : Piece} (h : piece.Avoids names) (position : Position) :
    Hides names (Piece.array position piece) := by
  refine hides_bind (Piece.settle_without h) ?_
  rintro ⟨ty, segment⟩
  exact hides_bind (fun _ => rfl) fun found scopes => rfl

theorem Piece.hides_blockEnd {piece : Piece} (h : piece.Avoids names) :
    Hides names (Piece.blockEnd piece) := by
  refine hides_bind (Piece.settle_without h) ?_
  rintro ⟨ty, segment⟩ scopes
  simp only [Scopes.leave_without]
  cases scopes.leave <;> rfl

end Hides

end Analysis

namespace Expr

open Analysis

-- The names that an expression writes. The field of a member is none of them.
def names : Expr → List String
  | .number _ _ => []
  | .name text _ => [text]
  | .negate operand _ => operand.names
  | .binary _ left right _ => left.names ++ right.names
  | .pipe value callee _ => value.names ++ callee.names
  | .pipeWith value callee argument _ => value.names ++ callee.names ++ argument.names
  | .member subject _ _ => subject.names
  | .bracketed _ inner _ _ => inner.names

variable {hidden : List String}

private theorem mem_names_of_bare? {expr : Expr} {text : String} {position : Position}
    (h : expr.bare? = some (text, position)) : text ∈ expr.names := by
  induction expr with
  | name found place =>
      cases h
      exact List.mem_singleton_self _
  | bracketed bracket inner opened closed ih =>
      cases bracket with
      | round => exact ih h
      | _ => contradiction
  | _ => contradiction

theorem avoids_of_build {expr : Expr} {scopes outer : Scopes} {operand : Operand}
    (hnames : ∀ name ∈ expr.names, name ∉ hidden)
    (h : expr.build scopes = .ok (operand, outer)) : operand.Avoids hidden := by
  cases operand with
  | value ty segment => trivial
  | name text position => exact hnames text (mem_names_of_bare? (bare?_of_build h))

theorem hides_sign (operator : Operator) {left right : Piece} (hleft : left.Avoids hidden)
    (hright : right.Avoids hidden) (position : Position) :
    Hides hidden (sign operator position left right) := by
  cases operator with
  | sequence => exact Piece.hides_sequence hleft hright position
  | assign => exact Piece.hides_assign hleft hright position
  | comma => exact Piece.hides_tuple hleft hright position
  | plus => exact Piece.hides_arithmetic hleft hright _ _ position
  | minus => exact Piece.hides_arithmetic hleft hright _ _ position
  | star => exact Piece.hides_arithmetic hleft hright _ _ position
  | call => exact Piece.hides_applied hleft hright position

-- What is built first avoids the names, and what is built from it starts without them.
theorem without_bind {expr : Expr} {scopes : Scopes} {next : Operand × Scopes → Joined}
    (hnames : ∀ name ∈ expr.names, name ∉ hidden)
    (hexpr : expr.build (scopes.without hidden) =
      (expr.build scopes).map fun built => (built.1, built.2.without hidden))
    (hnext : ∀ operand : Operand, operand.Avoids hidden → ∀ outer,
      next (operand, outer.without hidden) =
        (next (operand, outer)).map fun built => (built.1, built.2.without hidden)) :
    (expr.build (scopes.without hidden) >>= next) =
      (expr.build scopes >>= next).map fun built => (built.1, built.2.without hidden) := by
  rw [hexpr]
  cases hbuild : expr.build scopes with
  | error failure => rfl
  | ok built => exact hnext built.1 (avoids_of_build hnames hbuild) built.2

-- Hiding names that an expression does not write commutes with building it.
theorem hides_build (expr : Expr) (hnames : ∀ name ∈ expr.names, name ∉ hidden) :
    Hides hidden expr.build := by
  intro scopes
  induction expr generalizing scopes with
  | number text position => exact Piece.hides_number text position scopes
  | name text position => rfl
  | negate operand position ih =>
      refine without_bind hnames (ih hnames scopes) fun value hvalue outer => ?_
      exact @Piece.hides_negate _ (.single value) hvalue position outer
  | binary operator left right position ihleft ihright =>
      obtain ⟨hleft, hright⟩ := List.forall_mem_append.mp hnames
      refine without_bind hleft (ihleft hleft scopes) fun first hfirst middle => ?_
      refine without_bind hright (ihright hright middle) fun second hsecond outer => ?_
      exact @hides_sign _ operator (.single first) (.single second) hfirst hsecond position outer
  | pipe value callee position ihvalue ihcallee =>
      obtain ⟨hvalue, hcallee⟩ := List.forall_mem_append.mp hnames
      refine without_bind hvalue (ihvalue hvalue scopes) fun first hfirst middle => ?_
      refine without_bind hcallee (ihcallee hcallee middle) fun second hsecond outer => ?_
      exact Operand.hides_piping hfirst hsecond (fun piece hpiece =>
        Piece.hides_completed hpiece position) outer
  | pipeWith value callee argument position ihvalue ihcallee ihargument =>
      obtain ⟨hpipe, hargument⟩ := List.forall_mem_append.mp hnames
      obtain ⟨hvalue, hcallee⟩ := List.forall_mem_append.mp hpipe
      have hnext : ∀ piece : Piece, piece.Avoids hidden → Hides hidden fun outer =>
          argument.build outer >>= fun built =>
            Piece.applied position piece (.single built.1) built.2 := by
        intro piece hpiece outer
        refine without_bind hargument (ihargument hargument outer) fun third hthird last => ?_
        exact @Piece.hides_applied _ piece (.single third) hpiece hthird position last
      refine without_bind hvalue (ihvalue hvalue scopes) fun first hfirst middle => ?_
      refine without_bind hcallee (ihcallee hcallee middle) fun second hsecond behind => ?_
      exact Operand.hides_piping hfirst hsecond hnext behind
  | member subject field position ih =>
      refine without_bind hnames (ih hnames scopes) fun value hvalue outer => ?_
      exact @Piece.hides_member _ (.single value) hvalue _ position outer
  | bracketed bracket inner opened closed ih =>
      cases bracket with
      | round =>
          exact without_bind hnames (ih hnames scopes) fun value _ outer =>
            Piece.hides_group (.single value) outer
      | square =>
          refine without_bind hnames (ih hnames scopes) fun value hvalue outer => ?_
          exact @Piece.hides_array _ (.single value) hvalue opened outer
      | curly =>
          have hinner := ih hnames scopes.enter
          refine @without_bind hidden inner scopes.enter _ hnames hinner fun value hvalue outer => ?_
          exact @Piece.hides_blockEnd _ (.single value) hvalue outer

-- Scopes that differ in the hidden names only.
theorem build_congr (expr : Expr) {scopes others : Scopes}
    (hnames : ∀ name ∈ expr.names, name ∉ hidden)
    (h : scopes.without hidden = others.without hidden) :
    (∃ failure, expr.build scopes = .error failure ∧ expr.build others = .error failure) ∨
    ∃ operand outer other, expr.build scopes = .ok (operand, outer) ∧
      expr.build others = .ok (operand, other) ∧ operand.Avoids hidden ∧
      outer.without hidden = other.without hidden := by
  have hbuild := expr.hides_build hnames scopes
  rw [h, expr.hides_build hnames others] at hbuild
  cases hfirst : expr.build scopes with
  | error failure =>
      cases hsecond : expr.build others with
      | error other =>
          rw [hfirst, hsecond] at hbuild
          cases hbuild
          exact .inl ⟨failure, rfl, rfl⟩
      | ok built =>
          rw [hfirst, hsecond] at hbuild
          contradiction
  | ok built =>
      cases hsecond : expr.build others with
      | error failure =>
          rw [hfirst, hsecond] at hbuild
          contradiction
      | ok other =>
          rw [hfirst, hsecond] at hbuild
          obtain ⟨hoperand, houter⟩ := Prod.mk.inj (Except.ok.inj hbuild)
          refine .inr ⟨built.1, built.2, other.2, rfl, ?_, avoids_of_build hnames hfirst,
            houter.symm⟩
          rw [← hoperand]

end Expr

private theorem Pool.bytes_push (pool : Pool) (data : Bytes) (align : Nat) :
    pool.bytes <+: (pool.push data align).2.bytes := by
  rw [push, List.append_assoc]
  exact List.prefix_append _ _

namespace Scopes

theorem filled_append (pool : Pool) (first rest : List Constant) :
    filled pool (first ++ rest) = filled (filled pool first) rest := by
  rw [filled, List.foldl_append]
  rfl

theorem bytes_filled (pool : Pool) (constants : List Constant) :
    pool.bytes <+: (filled pool constants).bytes := by
  induction constants generalizing pool with
  | nil => exact List.prefix_refl _
  | cons constant rest ih => exact (pool.bytes_push _ _).trans (ih _)

private theorem constantRows_append (pool : Pool) (first rest : List Constant) :
    constantRows pool (first ++ rest) =
      constantRows pool first ++ constantRows (filled pool first) rest := by
  induction first generalizing pool with
  | nil => rfl
  | cons constant first ih =>
      rw [List.cons_append, constantRows, constantRows, ih]
      rfl

-- Old entries have the same handles and offsets as before, and new ones have new names.
private theorem filter_rows {library larger : Library} {names : List String}
    (h : library.Grows larger names) :
    (rows larger).filter (fun entry => entry.1 ∉ names) =
      (rows library).filter fun entry => entry.1 ∉ names := by
  obtain ⟨⟨natives, hnatives, hnativeNames⟩, constants, hconstants, hconstantNames⟩ := h
  have hhandles : larger.handles.map nativeRow = library.handles.map nativeRow ++
      (natives.zipIdx library.natives.length).map fun entry =>
        nativeRow (⟨UInt32.ofNat entry.2⟩, entry.1) := by
    simp [Library.handles, hnatives, List.zipIdx_append]
  have hnewNatives : ((natives.zipIdx library.natives.length).map fun entry =>
      nativeRow (⟨UInt32.ofNat entry.2⟩, entry.1)).filter (fun entry => entry.1 ∉ names) = [] := by
    rw [List.filter_eq_nil_iff, List.forall_mem_map]
    intro entry hentry
    have hname := hnativeNames entry.1 (List.fst_mem_of_mem_zipIdx hentry)
    simp [nativeRow, hname]
  have hnewConstants : (constantRows (filled .empty library.constants) constants).filter
      (fun entry => entry.1 ∉ names) = [] := by
    rw [List.filter_eq_nil_iff]
    intro entry hentry
    have hmem := List.mem_map_of_mem (f := rowEntry) hentry
    rw [map_rowEntry_constantRows] at hmem
    obtain ⟨constant, hconstant, heq⟩ := List.mem_map.mp hmem
    obtain ⟨hname, -⟩ := Prod.mk.inj heq
    simpa [← hname] using hconstantNames constant hconstant
  rw [rows, rows, hhandles, hconstants, constantRows_append]
  simp only [List.filter_append, hnewNatives, hnewConstants, List.append_nil]

theorem root_without {library larger : Library} {names : List String}
    (h : library.Grows larger names) :
    (empty.extended (rows larger)).without names =
      (empty.extended (rows library)).without names := by
  simp only [without, Scope.without, extended, empty, List.nil_append, filter_rows h]

end Scopes

namespace Expr

private theorem names_applied (callee argument : Expr) (position : Position) :
    (applied callee argument position).names = callee.names ++ argument.names := by
  unfold applied
  split <;> rfl

private theorem names_joined (sign : Sign) (left right : Expr) (position : Position) :
    (sign.joined left right position).names = left.names ++ right.names := by
  cases sign <;> rfl

end Expr

-- A name in an expression stands in the text.
theorem Arrangement.word_of_mem_names (tree : Arrangement) {name : String}
    (h : name ∈ tree.expr.names) : .name name ∈ tree.lexemes.map Lexeme.word := by
  induction tree with
  | number text position => simp [expr, Expr.names] at h
  | name text position => simpa [expr, Expr.names, lexemes] using h
  | negated position operand ih => simpa [lexemes] using ih h
  | linked sign position left right ihleft ihright =>
      rw [expr, Expr.names_joined, List.mem_append] at h
      rw [lexemes, List.map_append, List.map_cons, List.mem_append]
      exact h.imp ihleft fun hright => List.mem_cons_of_mem _ (ihright hright)
  | juxtaposed left right ihleft ihright =>
      rw [expr_juxtaposed, Expr.names_applied, List.mem_append] at h
      rw [lexemes, List.map_append, List.mem_append]
      exact h.imp ihleft ihright
  | member subject dot field position hfield ih =>
      rw [lexemes, List.map_append]
      exact List.mem_append_left _ (ih h)
  | bracketed bracket opened closed inner ih =>
      rw [lexemes, List.map_cons, List.map_append]
      exact List.mem_cons_of_mem _ (List.mem_append_left _ (ih h))

namespace Source

-- A name that stands in a text as a word of its own.
def Writes (source : Bytes) (name : String) : Prop :=
  ∃ lexemes, Lexeme.scan source = .ok lexemes ∧ .name name ∈ lexemes.map Lexeme.word

instance (source : Bytes) (name : String) : Decidable (Writes source name) :=
  decidable_of_iff (((Lexeme.scan source).toOption.any fun lexemes =>
      decide (.name name ∈ lexemes.map Lexeme.word)) = true) (by
    unfold Writes
    cases Lexeme.scan source <;> simp [Except.toOption])

theorem writes_of_mem_names {source : Bytes} {expr : Expr} {last : Position} {name : String}
    (h : Source.expr source = .ok (expr, last)) (hname : name ∈ expr.names) :
    Writes source name := by
  obtain ⟨lexemes, hscan, h⟩ := bind_eq_ok.mp h
  obtain ⟨parsed, hparse, h⟩ := bind_eq_ok.mp h
  cases h
  obtain ⟨tree, rfl, -, rfl⟩ := Arrangement.exists_of_parse hparse
  exact ⟨_, hscan, tree.word_of_mem_names hname⟩

end Source

namespace Analysis

theorem Plan.finish_without {names : List String} {operand : Operand} (h : operand.Avoids names)
    (literals : Pool) (token : Token) (scopes : Scopes) :
    Plan.finish literals token ⟨[.single operand], scopes.without names⟩ =
      Plan.finish literals token ⟨[.single operand], scopes⟩ := by
  simp only [Plan.finish, Piece.settle, Operand.settle_without h, Scopes.depth_without]
  rfl

-- The literals are only passed on.
private theorem Plan.finish_literals (literals other : Pool) (token : Token) (plan : Plan) :
    Plan.finish other token plan =
      (Plan.finish literals token plan).map fun program => { program with literals := other } := by
  obtain ⟨pieces, scopes⟩ := plan
  cases pieces with
  | nil => rfl
  | cons piece rest =>
      simp only [Plan.finish]
      cases piece.settle scopes with
      | error failure => rfl
      | ok found =>
          simp only [ok_bind]
          split
          · rfl
          · split <;> rfl

end Analysis

-- A text that writes none of the new names comes out the same, only with more literals around.
theorem Source.compile_of_grows {library larger : Library} {names : List String}
    {scopes others : Scopes} {literals extended : Pool} {source : Bytes}
    (h : library.Grows larger names) (hlibrary : Scopes.ofLibrary library = .ok (scopes, literals))
    (hlarger : Scopes.ofLibrary larger = .ok (others, extended))
    (hwrites : ∀ name ∈ names, ¬ Source.Writes source name) :
    Source.compile larger source =
      (Source.compile library source).map fun program => { program with literals := extended } := by
  rw [Source.compile_eq_build, Source.compile_eq_build, hlibrary, hlarger]
  cases hexpr : Source.expr source with
  | error failure => rfl
  | ok parsed =>
      obtain ⟨expr, last⟩ := parsed
      have hnames : ∀ name ∈ expr.names, name ∉ names := by
        intro name hname hmem
        exact hwrites name hmem (Source.writes_of_mem_names hexpr hname)
      have hroot : scopes.without names = others.without names := by
        rw [(Scopes.ofLibrary_eq_rows hlibrary).1, (Scopes.ofLibrary_eq_rows hlarger).1]
        exact (Scopes.root_without h).symm
      simp only [ok_bind]
      rcases expr.build_congr hnames hroot with ⟨failure, hfirst, hsecond⟩ | hbuilt
      · rw [hfirst, hsecond]
        rfl
      · obtain ⟨operand, outer, other, hfirst, hsecond, havoids, houter⟩ := hbuilt
        rw [hfirst, hsecond]
        simp only [ok_bind]
        rw [← Analysis.Plan.finish_without havoids, ← houter, Analysis.Plan.finish_without havoids]
        exact Analysis.Plan.finish_literals literals extended _ _

private theorem Source.literals_of_compile {library : Library} {scopes : Scopes} {literals : Pool}
    {source : Bytes} {program : Program}
    (hlibrary : Scopes.ofLibrary library = .ok (scopes, literals))
    (h : Source.compile library source = .ok program) : program.literals = literals := by
  have hsame : library.Grows library [] := ⟨⟨[], by simp, by simp⟩, [], by simp, by simp⟩
  have hcompile := @Source.compile_of_grows _ _ _ _ _ _ _ source hsame hlibrary hlibrary (by simp)
  rw [h] at hcompile
  exact congrArg Program.literals (Except.ok.inj hcompile)

-- More registrations are conservative. Runs that end well stay what they are, for any code at all. A
-- text without the new names is compiled to the same code, or rejected for the same reason; the
-- literals of the smaller library come first in those of the larger one.
theorem register_conservative (library larger : Library) (registrations : List Registration)
    (h : library.registerAll registrations = .ok larger) :
    (∀ program value, Program.run program library = .ok value →
      program.run larger = .ok value) ∧
    ∀ scopes literals others extended, Scopes.ofLibrary library = .ok (scopes, literals) →
      Scopes.ofLibrary larger = .ok (others, extended) → ∀ source,
      (∀ registration ∈ registrations, ¬ Source.Writes source registration.name) →
      (∃ failure, Source.compile library source = .error failure ∧
        Source.compile larger source = .error failure) ∨
      ∃ program other, Source.compile library source = .ok program ∧
        Source.compile larger source = .ok other ∧
        other.instructions = program.instructions ∧ other.frameSize = program.frameSize ∧
        program.literals = literals ∧ other.literals = extended ∧
        program.literals.bytes <+: other.literals.bytes := by
  have hgrows := Library.grows_registerAll h
  refine ⟨fun program value hrun => ?_, ?_⟩
  · rw [Program.run, Program.trace] at hrun ⊢
    rw [Machine.run_of_grows hgrows _ _ _ hrun]
    exact hrun
  · intro scopes literals others extended hlibrary hlarger source hwrites
    have hcompile := Source.compile_of_grows hgrows hlibrary hlarger (by simpa using hwrites)
    cases hfirst : Source.compile library source with
    | error failure =>
        rw [hfirst] at hcompile
        exact .inl ⟨failure, rfl, hcompile⟩
    | ok program =>
        rw [hfirst] at hcompile
        have hliterals := Source.literals_of_compile hlibrary hfirst
        refine .inr ⟨program, _, rfl, hcompile, rfl, rfl, hliterals, rfl, ?_⟩
        obtain ⟨added, hconstants, -⟩ := hgrows.constants
        rw [hliterals, (Scopes.ofLibrary_eq_rows hlibrary).2, (Scopes.ofLibrary_eq_rows hlarger).2,
          hconstants, Scopes.filled_append]
        exact Scopes.bytes_filled _ _

def Source.echoed : Bytes := "x := (seven, seven); x._1 |> echo".toUTF8.toList

theorem register_conservative_powers :
    ∃ larger, Library.echoing.registerAll Registration.powers = .ok larger ∧
      ¬ Source.Writes Source.echoed "pow" ∧
      (∃ value, Program.piped.run .echoing = .ok value ∧ Program.piped.run larger = .ok value) ∧
      ∃ program other, Source.compile .echoing Source.echoed = .ok program ∧
        Source.compile larger Source.echoed = .ok other ∧
        other.instructions = program.instructions ∧ other.frameSize = program.frameSize ∧
        program.literals.bytes <+: other.literals.bytes := by
  obtain ⟨larger, hregister, hothers⟩ : ∃ larger,
      Library.echoing.registerAll Registration.powers = .ok larger ∧
        (Scopes.ofLibrary larger).toOption.any (fun _ => true) = true :=
    ⟨_, rfl, by decide +kernel⟩
  have hwrites : ¬ Source.Writes Source.echoed "pow" := by decide +kernel
  have hroot : (Scopes.ofLibrary .echoing).toOption.any (fun _ => true) = true := by decide +kernel
  have hcompiles : (Source.compile .echoing Source.echoed).toOption.any (fun _ => true) = true := by
    decide +kernel
  have hruns : (Program.piped.run .echoing).toOption.any (fun _ => true) = true := by decide +kernel
  obtain ⟨⟨scopes, literals⟩, hroot, -⟩ := exists_ok_of_any hroot
  obtain ⟨⟨others, extended⟩, hothers, -⟩ := exists_ok_of_any hothers
  obtain ⟨first, hcompiles, -⟩ := exists_ok_of_any hcompiles
  obtain ⟨value, hruns, -⟩ := exists_ok_of_any hruns
  obtain ⟨hrun, hcompile⟩ := register_conservative .echoing larger _ hregister
  refine ⟨larger, hregister, hwrites, ⟨value, hruns, hrun _ _ hruns⟩, ?_⟩
  obtain ⟨failure, hfailure, -⟩ | ⟨program, other, hprogram, hother, hcode, hframe, -, -, hpool⟩ :=
    hcompile _ _ _ _ hroot hothers Source.echoed
      (by simp [Registration.powers, Registration.name, hwrites])
  · rw [hcompiles] at hfailure
    cases hfailure
  · exact ⟨program, other, hprogram, hother, hcode, hframe, hpool⟩

end Sluice

import Mathlib
import Sluice.Proofs.Defects

namespace Sluice

theorem Meets.imp {ε α : Type} {good good' : α → Prop} {bad bad' : ε → Prop}
    {outcome : Except ε α} (h : Meets good bad outcome) (hgood : ∀ value, good value → good' value)
    (hbad : ∀ failure, bad failure → bad' failure) : Meets good' bad' outcome := by
  cases outcome with
  | ok value => exact hgood value h
  | error failure => exact hbad failure h

namespace Failure

variable {P : Position → Prop} {position : Position} {problem : Problem}

-- All places of a failure are such as `P` tells.
def Points (P : Position → Prop) (failure : Failure) : Prop :=
  ∀ position ∈ failure.places, P position

theorem points_located (hremarks : problem.remarks = []) (hposition : P position) :
    (located position problem).Points P := by
  simpa [Points, places, located, hremarks] using hposition

theorem points_plain (hremarks : problem.remarks = []) : (plain problem).Points P := by
  simp [Points, places, plain, hremarks]

end Failure

namespace Analysis

variable {P : Position → Prop} {scopes : Scopes} {position : Position}
  {operand left right callee argument : Operand}

def Pointed {α : Type} (P : Position → Prop) (outcome : Except Failure α) : Prop :=
  Meets (fun _ => True) (Failure.Points P) outcome

theorem Clean.pointed {α : Type} {outcome : Except Failure α} (h : Clean P outcome) :
    Pointed P outcome :=
  Meets.imp h (fun _ _ => trivial) fun _ hblames => hblames.places

theorem pointed_bind {α β : Type} {first : Except Failure α} {rest : α → Except Failure β}
    (hfirst : Pointed P first) (hrest : ∀ value, Pointed P (rest value)) :
    Pointed P (first >>= rest) :=
  Meets.bind hfirst fun value _ => hrest value

theorem pointed_inRange {α : Type} (value : Option α) : Pointed P (inRange value) := by
  cases value with
  | none => exact Failure.points_plain rfl
  | some value => trivial

theorem pointed_foldlM {α β : Type} {step : β → α → Except Failure β} {items : List α}
    (hstep : ∀ state item, Pointed P (step state item)) (first : β) :
    Pointed P (items.foldlM step first) := by
  induction items generalizing first with
  | nil => trivial
  | cons item items ih => exact pointed_bind (hstep first item) ih

-- A name that no sign has taken yet is in a place that can be pointed at.
def Operand.Placed (P : Position → Prop) (operand : Operand) : Prop :=
  ∀ text position, operand = .name text position → P position

theorem pointed_settle (hoperand : operand.Placed P) :
    Pointed P ((Piece.single operand).settle scopes) := by
  cases operand with
  | value ty segment => trivial
  | name text place =>
      simp only [Piece.settle, Operand.settle]
      split
      · exact Failure.points_located rfl (hoperand text place rfl)
      · trivial

theorem pointed_settleCallee {ty : Ty} (hcallee : callee.Placed P) (hposition : P position) :
    Pointed P (callee.settleCallee scopes ty position) := by
  cases callee with
  | value valueTy segment =>
      simp only [Operand.settleCallee]
      split
      · exact Failure.points_located rfl hposition
      · refine pointed_bind (pointed_inRange _) fun isMatch => ?_
        split
        · exact Failure.points_located rfl hposition
        · trivial
  | name text place =>
      simp only [Operand.settleCallee]
      split
      · exact Failure.points_located (calleeProblem_kind ..).2 (hcallee text place rfl)
      · trivial

section Signs

theorem pointed_call {before behind : List Instruction} {placement : Int32} {ty : Ty}
    (hcallee : callee.Placed P) (hposition : P position) :
    Pointed P (Piece.call before behind placement ty position callee scopes) := by
  refine pointed_bind (pointed_settleCallee hcallee hposition) fun found => ?_
  dsimp only
  split
  · exact Failure.points_plain rfl
  · trivial

-- Signs that settle both sides first.
theorem pointed_two {next : Ty × Segment → Ty × Segment → Joined} (hleft : left.Placed P)
    (hright : right.Placed P) (hnext : ∀ first second, Pointed P (next first second)) :
    Pointed P (do
      let first ← (Piece.single left).settle scopes
      let second ← (Piece.single right).settle scopes
      next first second) :=
  pointed_bind (pointed_settle hleft) fun first =>
    pointed_bind (pointed_settle hright) fun second => hnext first second

theorem pointed_assign (hleft : left.Placed P) (hright : right.Placed P) (hposition : P position) :
    Pointed P (Piece.assign position (.single left) (.single right) scopes) := by
  refine pointed_bind (pointed_settle hright) fun found => ?_
  cases left with
  | value ty segment => exact Failure.points_located rfl hposition
  | name text place =>
      refine pointed_bind (pointed_inRange _) fun size => ?_
      exact pointed_bind (clean_declare (hleft text place rfl)).pointed fun _ => trivial

theorem pointed_arithmetic {op : Op} {sign : String} (hleft : left.Placed P)
    (hright : right.Placed P) (hposition : P position) :
    Pointed P (Piece.arithmetic op sign position (.single left) (.single right) scopes) := by
  refine pointed_two hleft hright fun first second => ?_
  dsimp only
  split
  · split
    · trivial
    · exact Failure.points_located rfl hposition
  · exact Failure.points_located rfl hposition

theorem pointed_tuple (hleft : left.Placed P) (hright : right.Placed P) :
    Pointed P (Piece.tuple position (.single left) (.single right) scopes) :=
  pointed_two hleft hright fun _ _ => pointed_bind (pointed_inRange _) fun _ => trivial

theorem pointed_applied (hcallee : callee.Placed P) (hargument : argument.Placed P)
    (hposition : P position) :
    Pointed P (Piece.applied position (.single callee) (.single argument) scopes) :=
  pointed_bind (pointed_settle hargument) fun _ => pointed_call hcallee hposition

theorem pointed_appliedPiped {ty : Ty} {value : Segment} (hcallee : callee.Placed P)
    (hargument : argument.Placed P) (hposition : P position) :
    Pointed P (Piece.applied position (.piped ty value callee) (.single argument) scopes) :=
  pointed_bind (pointed_settle hargument) fun _ =>
    pointed_bind (pointed_inRange _) fun _ => pointed_call hcallee hposition

theorem pointed_piping (hoperand : operand.Placed P) :
    Pointed P (operand.piping callee scopes) :=
  pointed_bind (pointed_settle hoperand) fun _ =>
    pointed_bind (pointed_inRange _) fun _ => trivial

theorem pointed_negate (hoperand : operand.Placed P) (hposition : P position) :
    Pointed P (Piece.negate position (.single operand) scopes) := by
  refine pointed_bind (pointed_settle hoperand) fun found => ?_
  dsimp only
  split
  · trivial
  · exact Failure.points_located rfl hposition

theorem pointed_member {field : String} (hoperand : operand.Placed P) (hposition : P position) :
    Pointed P (Piece.member position (.single operand) (.single (.name field position)) scopes) := by
  refine pointed_bind (pointed_settle hoperand) fun found => ?_
  dsimp only
  split
  · exact Failure.points_located rfl hposition
  · exact pointed_bind (pointed_inRange _) fun _ => trivial

theorem pointed_elementsOf {ty : Ty} (hposition : P position) :
    Pointed P (Piece.elementsOf ty position) := by
  unfold Piece.elementsOf
  split
  · refine pointed_bind (pointed_inRange _) fun elements => ?_
    split
    · exact Failure.points_plain rfl
    · split
      · exact Failure.points_located rfl hposition
      · trivial
  · trivial

theorem pointed_array (hoperand : operand.Placed P) (hposition : P position) :
    Pointed P (Piece.array position (.single operand) scopes) :=
  pointed_bind (pointed_settle hoperand) fun _ =>
    pointed_bind (pointed_elementsOf hposition) fun _ => trivial

theorem pointed_blockEnd (hoperand : operand.Placed P) :
    Pointed P (Piece.blockEnd (.single operand) scopes) := by
  refine pointed_bind (pointed_settle hoperand) fun _ => pointed_bind ?_ fun _ => trivial
  unfold Scopes.leave
  split
  · exact Failure.points_plain rfl
  · trivial

theorem pointed_finish {literals : Pool} {token : Token} (hoperand : operand.Placed P) :
    Pointed P (Plan.finish literals token ⟨[.single operand], scopes⟩) := by
  refine pointed_bind (pointed_settle hoperand) fun _ => ?_
  dsimp only
  split
  · exact Failure.points_plain rfl
  · split
    · exact Failure.points_plain rfl
    · trivial

end Signs

theorem pointed_ofLibrary {library : Library} (hstart : P .start) :
    Pointed P (Scopes.ofLibrary library) := by
  refine pointed_bind (pointed_foldlM (fun _ _ => (clean_declare hstart).pointed) _) fun scopes => ?_
  refine pointed_foldlM (fun state constant => ?_) _
  refine pointed_bind ?_ fun _ => pointed_bind (clean_declare hstart).pointed fun _ => trivial
  refine pointed_bind (pointed_inRange _) fun size => ?_
  split
  · exact Failure.points_plain rfl
  · trivial

end Analysis

namespace Expr

open Analysis

variable {P : Position → Prop} {scopes outer : Scopes}

theorem placed_of_build {expr : Expr} {operand : Operand}
    (hplaces : ∀ place ∈ expr.places, P place) (h : expr.build scopes = .ok (operand, outer)) :
    operand.Placed P := by
  rintro text position rfl
  exact hplaces position (mem_places_of_bare? (bare?_of_build h))

theorem pointed_sign {operator : Operator} {position : Position} {left right : Operand}
    (hleft : left.Placed P) (hright : right.Placed P) (hposition : P position) :
    Pointed P (sign operator position (.single left) (.single right) scopes) := by
  cases operator with
  | sequence => exact pointed_two hleft hright fun _ _ => trivial
  | assign => exact pointed_assign hleft hright hposition
  | comma => exact pointed_tuple hleft hright
  | plus => exact pointed_arithmetic hleft hright hposition
  | minus => exact pointed_arithmetic hleft hright hposition
  | star => exact pointed_arithmetic hleft hright hposition
  | call => exact pointed_applied hleft hright hposition

theorem pointed_build (expr : Expr) {scopes : Scopes} (hplaces : ∀ place ∈ expr.places, P place) :
    Pointed P (expr.build scopes) := by
  induction expr generalizing scopes with
  | number text position =>
      exact (clean_number (hplaces position (List.mem_singleton_self _))).pointed
  | name text position => trivial
  | negate operand position ih =>
      obtain ⟨hposition, hplaces⟩ := List.forall_mem_cons.mp hplaces
      refine Meets.chain (ih hplaces) fun value hvalue => ?_
      exact pointed_negate (placed_of_build hplaces hvalue) hposition
  | binary operator left right position ihleft ihright =>
      obtain ⟨hposition, hplaces⟩ := List.forall_mem_cons.mp hplaces
      obtain ⟨hleft, hright⟩ := List.forall_mem_append.mp hplaces
      refine Meets.chain (ihleft hleft) fun first hfirst => ?_
      refine Meets.chain (ihright hright) fun second hsecond => ?_
      exact pointed_sign (placed_of_build hleft hfirst) (placed_of_build hright hsecond) hposition
  | pipe value callee position ihvalue ihcallee =>
      obtain ⟨hposition, hplaces⟩ := List.forall_mem_cons.mp hplaces
      obtain ⟨hvalue, hcallee⟩ := List.forall_mem_append.mp hplaces
      refine Meets.chain (ihvalue hvalue) fun first hfirst => ?_
      refine Meets.chain (ihcallee hcallee) fun second hsecond => ?_
      refine Meets.chain (pointed_piping (placed_of_build hvalue hfirst)) fun piped hpiped => ?_
      obtain ⟨ty, segment, size, -, -, rfl⟩ := Operand.piping_eq_ok hpiped
      exact pointed_call (placed_of_build hcallee hsecond) hposition
  | pipeWith value callee argument position ihvalue ihcallee ihargument =>
      obtain ⟨hposition, hplaces⟩ := List.forall_mem_cons.mp hplaces
      obtain ⟨hplaces, hargument⟩ := List.forall_mem_append.mp hplaces
      obtain ⟨hvalue, hcallee⟩ := List.forall_mem_append.mp hplaces
      refine Meets.chain (ihvalue hvalue) fun first hfirst => ?_
      refine Meets.chain (ihcallee hcallee) fun second hsecond => ?_
      refine Meets.chain (pointed_piping (placed_of_build hvalue hfirst)) fun piped hpiped => ?_
      obtain ⟨ty, segment, size, -, -, rfl⟩ := Operand.piping_eq_ok hpiped
      refine Meets.chain (ihargument hargument) fun third hthird => ?_
      exact pointed_appliedPiped (placed_of_build hcallee hsecond)
        (placed_of_build hargument hthird) hposition
  | member subject field position ih =>
      obtain ⟨hposition, hplaces⟩ := List.forall_mem_cons.mp hplaces
      refine Meets.chain (ih hplaces) fun value hvalue => ?_
      exact pointed_member (placed_of_build hplaces hvalue) hposition
  | bracketed bracket inner opened closed ih =>
      obtain ⟨hopened, hplaces⟩ := List.forall_mem_cons.mp hplaces
      have hinner : ∀ place ∈ inner.places, P place := (List.forall_mem_cons.mp hplaces).2
      cases bracket with
      | round =>
          refine Meets.chain (ih hinner) fun value hvalue => ?_
          obtain ⟨value | name, middle⟩ := value <;> trivial
      | square =>
          refine Meets.chain (ih hinner) fun value hvalue => ?_
          exact pointed_array (placed_of_build hinner hvalue) hopened
      | curly =>
          refine Meets.chain (ih hinner) fun value hvalue => ?_
          exact pointed_blockEnd (placed_of_build hinner hvalue)

end Expr

-- A compilation points at what reading the text may point at, or at the start.
theorem Source.pointed_compile {P : Position → Prop} {source : Bytes} (library : Library)
    (hstart : P .start)
    (hexpr : Meets (fun read => ∀ place ∈ read.1.places, P place) (Failure.Points P)
      (Source.expr source)) :
    Analysis.Pointed P (Source.compile library source) := by
  rw [Source.compile_eq_build]
  refine Meets.bind hexpr fun read hplaces => ?_
  refine Analysis.pointed_bind (Analysis.pointed_ofLibrary hstart) fun root => ?_
  refine Meets.chain (Expr.pointed_build read.1 hplaces) fun built hbuilt => ?_
  exact Analysis.pointed_finish (Expr.placed_of_build hplaces hbuilt)

end Sluice

import Mathlib
import Sluice.Proofs.Occurrences
import Sluice.Proofs.Places
import Sluice.Proofs.Records
import Sluice.Proofs.Root

namespace Sluice

namespace Ty

-- Well-formed, and a tuple that is still open has elements already.
structure Regular (ty : Ty) : Prop where
  wellFormed : ty.isWellFormed = true
  nonempty : ty.isOpen = true → ty.members ≠ []

theorem Regular.of_closed {ty : Ty} (h : ty.isWellFormed = true) (hclosed : ty.isClosed = true) :
    ty.Regular :=
  ⟨h, fun hopen => by simp [isOpen, hclosed] at hopen⟩

theorem isClosed_inner? {atoms : List Atom} {index : Nat} {inner : Ty}
    (h : inner? atoms index = some inner) : inner.isClosed = true := by
  obtain ⟨found, -, rfl⟩ := Option.map_eq_some_iff.mp h
  rfl

theorem kept_regular : Kept Regular := by
  constructor
  case numeric =>
    intro primitive hnumeric
    exact .of_closed (kept_isWellFormed.numeric hnumeric) rfl
  case close =>
    intro ty h
    exact .of_closed (kept_isWellFormed.close h.wellFormed) rfl
  case array =>
    intro element count h
    exact .of_closed (kept_isWellFormed.array count h.wellFormed) rfl
  case append =>
    intro left right whole hleft hright happend
    refine ⟨kept_isWellFormed.append hleft.wellFormed hright.wellFormed happend, fun _ => ?_⟩
    obtain ⟨size, -, rfl⟩ := Option.map_eq_some_iff.mp happend
    simp
  case result =>
    intro ty result h hresult
    refine .of_closed (kept_isWellFormed.result h.wellFormed hresult) ?_
    rw [result?, if_pos (isFunc_of_result? hresult)] at hresult
    exact isClosed_inner? hresult
  case member =>
    intro ty inner name row h htuple hindexable hrow hinner
    exact .of_closed (kept_isWellFormed.member h.wellFormed htuple hindexable hrow hinner)
      (isClosed_inner? hinner)
  case elements =>
    intro ty elements h htuple hindexable helements element hmem
    refine .of_closed (kept_isWellFormed.elements h.wellFormed htuple hindexable helements element
      hmem) ?_
    obtain ⟨tree, htree⟩ := isWellFormed_iff.mp h.wellFormed
    obtain ⟨trees, rfl⟩ := htree.eq_tuple htuple
    cases helements.symm.trans (elements?_tuple htree hindexable)
    obtain ⟨found, -, rfl⟩ := List.mem_map.mp hmem
    rfl

-- What a sign needs of the type of an operand. The elements of a tuple have to be found.
structure Handy (ty : Ty) : Prop extends Regular ty where
  indexable : ty.isTuple = true → ty.Indexable

variable {ty : Ty}

theorem Regular.exists_size? (h : ty.Regular) : ∃ size, ty.size? = some size := by
  obtain ⟨tree, htree⟩ := isWellFormed_iff.mp h.wellFormed
  exact ⟨_, htree.size?⟩

theorem Regular.exists_append? (h : ty.Regular) (right : Ty) :
    ∃ whole, ty.append? right = some whole := by
  obtain ⟨size, hsize⟩ := h.exists_size?
  exact ⟨_, by rw [append?, hsize, Option.map_some]⟩

theorem Regular.exists_result? (h : ty.Regular) (hfunc : ty.isFunc = true) :
    ∃ result, ty.result? = some result := by
  obtain ⟨tree, htree⟩ := isWellFormed_iff.mp h.wellFormed
  obtain ⟨result, argument, rfl⟩ := htree.eq_func hfunc
  exact ⟨_, htree.result?⟩

-- The pattern of a call can be compared with any type, and only functions fit it.
theorem Regular.exists_matches? {argument : Ty} (h : ty.Regular) (hargument : argument.Regular) :
    ∃ isMatch, (func .undecided argument).matches? ty = some isMatch ∧
      (isMatch = true → ty.isFunc = true) := by
  obtain ⟨tree, htree⟩ := isWellFormed_iff.mp h.wellFormed
  obtain ⟨argumentTree, hargument⟩ := isWellFormed_iff.mp hargument.wellFormed
  refine ⟨_, (describes_func (describes_ofPrimitive .undecided) hargument).matches? htree, ?_⟩
  rw [htree.isFunc_eq]
  cases tree <;> simp [Tree.fits, Tree.isFunc]

theorem Handy.exists_inner? {name : String} {row : Member} (h : ty.Handy)
    (htuple : ty.isTuple = true) (hrow : ty.member? name = some row) :
    ∃ inner, inner? ty.atoms row.index.toNat = some inner := by
  obtain ⟨tree, htree⟩ := isWellFormed_iff.mp h.wellFormed
  obtain ⟨elements, rfl⟩ := htree.eq_tuple htuple
  obtain ⟨front, element, after, rfl, -, rfl⟩ := member?_tuple htree hrow
  exact ⟨_, by rw [toNat_index htree (h.indexable htuple), inner?_element htree]⟩

theorem Handy.exists_elements? (h : ty.Handy) (hopen : ty.isOpen = true) :
    ∃ first rest, ty.elements? = some (first :: rest) := by
  have htuple : ty.isTuple = true := (Bool.and_eq_true_iff.mp hopen).1
  obtain ⟨tree, htree⟩ := isWellFormed_iff.mp h.wellFormed
  obtain ⟨elements, rfl⟩ := htree.eq_tuple htuple
  have helements := elements?_tuple htree (h.indexable htuple)
  cases elements with
  | nil => exact absurd htree.members (h.nonempty hopen)
  | cons first rest => exact ⟨_, _, helements⟩

end Ty

namespace Analysis

section Signs

-- An operand of a sign. A name has a place that a failure may point at.
structure Operand.Ready (P : Position → Prop) (operand : Operand) : Prop where
  typed : operand.Typed Ty.Regular
  indexable : operand.segment.All Instruction.Indexable
  place : ∀ text position, operand = .name text position → P position

structure Ready (scopes : Scopes) : Prop where
  typed : scopes.Typed Ty.Regular
  indexable : scopes.Typed Ty.Indexable

variable {P : Position → Prop} {scopes : Scopes} {position : Position}
  {operand left right callee argument : Operand}

-- A mistake in the program at most.
def Clean {α : Type} (P : Position → Prop) (outcome : Except Failure α) : Prop :=
  Meets (fun _ => True) (Failure.Blames P) outcome

theorem meets_settle (hscopes : Ready scopes) (hoperand : operand.Ready P) :
    Meets (fun found => found.1.Handy) (Failure.Blames P) (operand.settle scopes) := by
  obtain ⟨htyped, hindexable, hplace⟩ := hoperand
  cases operand with
  | value ty segment =>
      exact ⟨htyped.1, fun htuple => htyped.2.indexable htuple hindexable⟩
  | name text place =>
      simp only [Operand.settle]
      split
      · exact Failure.blames_located (by rintro ⟨⟩) rfl (hplace text place rfl)
      · rename_i binding hlookup
        exact ⟨hscopes.typed.lookup hlookup, fun _ => hscopes.indexable.lookup hlookup⟩

theorem handy_of_settle {ty : Ty} {segment : Segment} (hscopes : Ready scopes)
    (hoperand : operand.Ready P) (h : operand.settle scopes = .ok (ty, segment)) : ty.Handy := by
  have hmeets := meets_settle hscopes hoperand
  rwa [h] at hmeets

theorem calleeProblem_kind (scopes : Scopes) (name : String) (argument : Ty) :
    (calleeProblem scopes name argument).kind ≠ .defect ∧
      (calleeProblem scopes name argument).remarks = [] := by
  unfold calleeProblem
  split
  · exact ⟨nofun, rfl⟩
  · split
    · exact ⟨nofun, rfl⟩
    · exact ⟨nofun, rfl⟩

theorem meets_settleCallee {ty : Ty} (hscopes : Ready scopes) (hcallee : callee.Ready P)
    (hty : ty.Regular) (hposition : P position) :
    Meets (fun found => found.1.Regular ∧ found.1.isFunc = true) (Failure.Blames P)
      (callee.settleCallee scopes ty position) := by
  obtain ⟨htyped, -, hplace⟩ := hcallee
  cases callee with
  | value valueTy segment =>
      obtain ⟨isMatch, hmatch, -⟩ := htyped.1.exists_matches? hty
      simp only [Operand.settleCallee, hmatch, inRange, ok_bind]
      split
      · exact Failure.blames_located (by rintro ⟨⟩) rfl hposition
      · rename_i hfunc
        split
        · exact Failure.blames_located (by rintro ⟨⟩) rfl hposition
        · exact ⟨htyped.1, by simpa using hfunc⟩
  | name text place =>
      simp only [Operand.settleCallee]
      split
      · exact Failure.blames_located (calleeProblem_kind ..).1 (calleeProblem_kind ..).2
          (hplace text place rfl)
      · rename_i binding hlookup
        obtain ⟨scope, hscope, hmem, hfits⟩ := Scopes.mem_of_lookupMatching hlookup
        have hbinding := hscopes.typed.lookupMatching hlookup
        obtain ⟨isMatch, hmatch, hfunc⟩ := hbinding.exists_matches? hty
        cases hfits.symm.trans hmatch
        exact ⟨hbinding, hfunc rfl⟩

theorem clean_call {before behind : List Instruction} {placement : Int32} {ty : Ty}
    (hscopes : Ready scopes) (hcallee : callee.Ready P) (hty : ty.Regular)
    (hposition : P position) :
    Clean P (Piece.call before behind placement ty position callee scopes) := by
  refine (meets_settleCallee hscopes hcallee hty hposition).bind fun found hfound => ?_
  obtain ⟨result, hresult⟩ := hfound.1.exists_result? hfound.2
  simp only [hresult]
  trivial

-- Signs that settle both sides go on with two types.
theorem clean_two {next : Ty × Segment → Ty × Segment → Joined} (hscopes : Ready scopes)
    (hleft : left.Ready P) (hright : right.Ready P)
    (hnext : ∀ first second, first.1.Handy → second.1.Handy → Clean P (next first second)) :
    Clean P (do
      let first ← (Piece.single left).settle scopes
      let second ← (Piece.single right).settle scopes
      next first second) :=
  (meets_settle hscopes hleft).bind fun first hfirst =>
    (meets_settle hscopes hright).bind fun second hsecond => hnext first second hfirst hsecond

theorem clean_number {text : String} (hposition : P position) :
    Clean P (Piece.number text position scopes) := by
  unfold Piece.number
  split
  · split
    · exact Failure.blames_located nofun rfl hposition
    · trivial
  · split
    · exact Failure.blames_located nofun rfl hposition
    · split
      · trivial
      · exact Failure.blames_located nofun rfl hposition

theorem clean_declare {name : String} {binding : Binding} (hposition : P position) :
    Clean P (scopes.declare name binding position) := by
  unfold Scopes.declare
  split
  · exact Failure.blames_located nofun rfl hposition
  · trivial

theorem clean_assign (hscopes : Ready scopes) (hleft : left.Ready P) (hright : right.Ready P)
    (hposition : P position) :
    Clean P (Piece.assign position (.single left) (.single right) scopes) := by
  refine (meets_settle hscopes hright).bind fun found hfound => ?_
  cases left with
  | value ty segment => exact Failure.blames_located nofun rfl hposition
  | name text place =>
      obtain ⟨size, hsize⟩ := (Ty.kept_regular.close hfound.toRegular).exists_size?
      simp only [hsize, inRange, ok_bind]
      exact Meets.bind (clean_declare (hleft.place text place rfl)) fun _ _ => trivial

theorem clean_arithmetic {op : Op} {sign : String} (hscopes : Ready scopes)
    (hleft : left.Ready P) (hright : right.Ready P) (hposition : P position) :
    Clean P (Piece.arithmetic op sign position (.single left) (.single right) scopes) := by
  refine clean_two hscopes hleft hright fun ⟨leftTy, _⟩ ⟨rightTy, _⟩ _ _ => ?_
  dsimp only
  split
  · split
    · trivial
    · exact Failure.blames_located nofun rfl hposition
  · exact Failure.blames_located nofun rfl hposition

theorem clean_tuple (hscopes : Ready scopes) (hleft : left.Ready P) (hright : right.Ready P) :
    Clean P (Piece.tuple position (.single left) (.single right) scopes) := by
  refine clean_two hscopes hleft hright fun ⟨leftTy, _⟩ ⟨rightTy, _⟩ hleft _ => ?_
  obtain ⟨whole, happend⟩ := hleft.exists_append? rightTy
  simp only [happend, inRange, ok_bind]
  trivial

theorem clean_applied (hscopes : Ready scopes) (hcallee : callee.Ready P)
    (hargument : argument.Ready P) (hposition : P position) :
    Clean P (Piece.applied position (.single callee) (.single argument) scopes) :=
  (meets_settle hscopes hargument).bind fun _ hfound =>
    clean_call hscopes hcallee hfound.toRegular hposition

theorem clean_appliedPiped {ty : Ty} {value : Segment} (hscopes : Ready scopes)
    (hty : ty.Regular) (hcallee : callee.Ready P) (hargument : argument.Ready P)
    (hposition : P position) :
    Clean P (Piece.applied position (.piped ty value callee) (.single argument) scopes) := by
  refine (meets_settle hscopes hargument).bind fun ⟨argumentTy, _⟩ hfound => ?_
  obtain ⟨whole, happend⟩ := hty.exists_append? argumentTy
  simp only [happend, inRange, ok_bind]
  exact clean_call hscopes hcallee (Ty.kept_regular.append hty hfound.toRegular happend) hposition

theorem clean_piping (hscopes : Ready scopes) (hoperand : operand.Ready P) :
    Clean P (operand.piping callee scopes) := by
  refine (meets_settle hscopes hoperand).bind fun ⟨ty, _⟩ hfound => ?_
  obtain ⟨size, hsize⟩ := hfound.exists_size?
  simp only [hsize, inRange, ok_bind]
  trivial

theorem clean_negate (hscopes : Ready scopes) (hoperand : operand.Ready P)
    (hposition : P position) : Clean P (Piece.negate position (.single operand) scopes) := by
  refine (meets_settle hscopes hoperand).bind fun ⟨ty, _⟩ _ => ?_
  dsimp only
  split
  · trivial
  · exact Failure.blames_located nofun rfl hposition

theorem clean_member {field : String} (hscopes : Ready scopes) (hoperand : operand.Ready P)
    (hposition : P position) :
    Clean P (Piece.member position (.single operand) (.single (.name field position)) scopes) := by
  refine (meets_settle hscopes hoperand).bind fun ⟨ty, _⟩ hfound => ?_
  dsimp only
  split
  · exact Failure.blames_located nofun rfl hposition
  · rename_i row hrow
    split at hrow
    · rename_i htuple
      obtain ⟨inner, hinner⟩ := hfound.exists_inner? htuple hrow
      simp only [hinner, inRange, ok_bind]
      trivial
    · contradiction

theorem clean_elementsOf {ty : Ty} (hty : ty.Handy) (hposition : P position) :
    Clean P (Piece.elementsOf ty position) := by
  unfold Piece.elementsOf
  split
  · rename_i hopen
    obtain ⟨first, rest, helements⟩ := hty.exists_elements? hopen
    simp only [helements, inRange, ok_bind]
    split
    · exact Failure.blames_located (by rintro ⟨⟩) rfl hposition
    · trivial
  · trivial

theorem clean_array (hscopes : Ready scopes) (hoperand : operand.Ready P)
    (hposition : P position) : Clean P (Piece.array position (.single operand) scopes) :=
  (meets_settle hscopes hoperand).bind fun _ hfound =>
    Meets.bind (clean_elementsOf hfound hposition) fun _ _ => trivial

theorem clean_blockEnd (hscopes : Ready scopes) (hoperand : operand.Ready P)
    (hdepth : 1 < scopes.depth) : Clean P (Piece.blockEnd (.single operand) scopes) := by
  refine (meets_settle hscopes hoperand).bind fun _ _ => ?_
  obtain ⟨current, outer, frameSize⟩ := scopes
  cases outer with
  | nil => contradiction
  | cons scope outer => trivial

theorem clean_finish {literals : Pool} {token : Token} (hscopes : Ready scopes)
    (hoperand : operand.Ready P) (hdepth : scopes.depth = 1) :
    Clean P (Plan.finish literals token ⟨[.single operand], scopes⟩) := by
  refine (meets_settle hscopes hoperand).bind fun _ _ => ?_
  simp only [hdepth, ne_eq, not_true_eq_false, if_false]
  trivial

end Signs

-- Only an assignment adds to the bindings, and what it binds is what its copy shows.
theorem Makes.indexable {scopes outer : Scopes} {kind : Token.Kind} {taken : List Piece}
    {operand : Operand} (h : Makes scopes kind taken operand outer)
    (hall : operand.segment.All Instruction.Indexable) (hscopes : scopes.Typed Ty.Indexable) :
    outer.Typed Ty.Indexable := by
  cases h with
  | assign position hright hsize hdeclare =>
      exact (hscopes.allocate _).declare (hall.2 _ (List.mem_cons_self ..)) hdeclare
  | blockEnd hsettle hleave => exact hscopes.leave hleave
  | _ => exact hscopes

theorem Makes.outer_eq {scopes outer : Scopes} {kind : Token.Kind} {taken : List Piece}
    {operand : Operand} (h : Makes scopes kind taken operand outer) (hkind : kind ≠ .blockEnd) :
    outer.outer = scopes.outer := by
  cases h with
  | assign position hright hsize hdeclare =>
      obtain ⟨-, rfl⟩ := Scopes.declare_eq_ok hdeclare
      rfl
  | blockEnd hsettle hleave => contradiction
  | _ => rfl

namespace Plan

-- All types of a plan are as the signs need them.
structure Ready (plan : Plan) : Prop where
  typed : plan.Typed Ty.Regular
  scopes : plan.scopes.Typed Ty.Indexable
  code : ∀ instruction ∈ plan.code, instruction.Indexable

namespace Ready

variable {plan next : Plan}

theorem step {token : Token} (hplan : plan.Ready) (h : plan.step token = .ok next)
    (hcode : ∀ instruction ∈ next.code, instruction.Indexable) : next.Ready := by
  have hstep := Plan.Step.of_step h
  refine ⟨hplan.typed.step Ty.kept_regular hstep hcode, ?_, hcode⟩
  cases hstep with
  | name text position pieces scopes => exact hplan.scopes
  | enter pieces scopes => exact hplan.scopes.enter
  | pipe hvalue hsize => exact hplan.scopes
  | made hmakes =>
      refine hmakes.indexable ?_ hplan.scopes
      simp only [Plan.code, codeOf, List.forall_mem_append, Piece.code, Operand.code,
        uniform_indexable.code_iff] at hcode
      exact hcode.2

theorem steps {tokens : List Token} (hplan : plan.Ready)
    (hsees : plan.Sees Instruction.Indexable tokens) (h : plan.steps tokens = .ok next) :
    next.Ready := by
  induction tokens generalizing plan with
  | nil =>
      cases h
      exact hplan
  | cons token rest ih =>
      rw [Plan.steps_cons] at h
      obtain ⟨middle, hstep, h⟩ := bind_eq_ok.mp h
      have hfirst : plan.steps [token] = .ok middle := by rw [Plan.steps_singleton, hstep]
      have hsees : plan.Sees Instruction.Indexable ([token] ++ rest) := hsees
      exact ih (hplan.step hstep (hsees.front.last hfirst)) (hsees.behind hfirst) h

theorem toScopes (hplan : plan.Ready) : Analysis.Ready plan.scopes :=
  ⟨hplan.typed.scopes, hplan.scopes⟩

theorem top {P : Position → Prop} {operand : Operand} {rest : List Piece} {scopes : Scopes}
    (hplan : Plan.Ready ⟨.single operand :: rest, scopes⟩)
    (hplace : ∀ text position, operand = .name text position → P position) : operand.Ready P := by
  refine ⟨hplan.typed.pieces _ (List.mem_cons_self ..), ?_, hplace⟩
  have hcode := hplan.code
  simp only [Plan.code, codeOf, List.forall_mem_append, Piece.code, Operand.code,
    uniform_indexable.code_iff] at hcode
  exact hcode.2

end Ready

end Plan

end Analysis

namespace Expr

open Analysis

-- Only a name, maybe in brackets, stays a name.
theorem bare?_of_build {expr : Expr} {scopes outer : Scopes} {text : String}
    {position : Position} (h : expr.build scopes = .ok (.name text position, outer)) :
    expr.bare? = some (text, position) := by
  induction expr generalizing scopes outer with
  | name found place =>
      cases h
      rfl
  | number found place => nomatch Makes.of_number h
  | negate operand place ih =>
      obtain ⟨value, middle, -, h⟩ := build_negate h
      nomatch Makes.of_negate h
  | binary operator left right place ihleft ihright =>
      obtain ⟨first, middle, second, built, -, -, h⟩ := build_binary h
      have hmakes := makes_of_sign h
      cases operator <;> nomatch hmakes
  | pipe value callee place ihvalue ihcallee =>
      obtain ⟨first, middle, second, built, piped, -, -, -, h⟩ := build_pipe h
      nomatch Makes.of_completed h
  | pipeWith value callee argument place ihvalue ihcallee ihargument =>
      obtain ⟨first, middle, second, behind, piped, third, built, -, -, -, -, h⟩ := build_pipeWith h
      nomatch Makes.of_applied h
  | member subject field place ih =>
      obtain ⟨value, middle, -, h⟩ := build_member h
      nomatch Makes.of_member h
  | bracketed bracket inner opened closed ih =>
      cases bracket with
      | round =>
          obtain ⟨value, middle, hinner, h⟩ := build_round h
          cases Makes.of_group h
          exact ih hinner
      | square =>
          obtain ⟨value, middle, -, h⟩ := build_square h
          nomatch Makes.of_array h
      | curly =>
          obtain ⟨value, middle, -, h⟩ := build_curly h
          nomatch Makes.of_blockEnd h

theorem mem_places_of_bare? {expr : Expr} {text : String} {position : Position}
    (h : expr.bare? = some (text, position)) : position ∈ expr.places := by
  induction expr with
  | name found place =>
      cases h
      exact List.mem_singleton_self _
  | bracketed bracket inner opened closed ih =>
      cases bracket with
      | round => exact List.mem_cons_of_mem _ (List.mem_cons_of_mem _ (ih h))
      | _ => contradiction
  | _ => contradiction

-- Every block that is entered is left, and what is around it stays as it was.
theorem outer_of_build {expr : Expr} {scopes outer : Scopes} {operand : Operand}
    (h : expr.build scopes = .ok (operand, outer)) : outer.outer = scopes.outer := by
  induction expr generalizing scopes outer operand with
  | name found place =>
      cases h
      rfl
  | number found place => exact (Makes.of_number h).outer_eq nofun
  | negate operand place ih =>
      obtain ⟨value, middle, hinner, h⟩ := build_negate h
      exact ((Makes.of_negate h).outer_eq nofun).trans (ih hinner)
  | binary operator left right place ihleft ihright =>
      obtain ⟨first, middle, second, built, hleft, hright, h⟩ := build_binary h
      have hkind : tokenKind operator ≠ .blockEnd := by cases operator <;> decide
      exact ((makes_of_sign h).outer_eq hkind).trans ((ihright hright).trans (ihleft hleft))
  | pipe value callee place ihvalue ihcallee =>
      obtain ⟨first, middle, second, built, piped, hvalue, hcallee, -, h⟩ := build_pipe h
      exact ((Makes.of_completed h).outer_eq nofun).trans ((ihcallee hcallee).trans (ihvalue hvalue))
  | pipeWith value callee argument place ihvalue ihcallee ihargument =>
      obtain ⟨first, middle, second, behind, piped, third, built, hvalue, hcallee, -, hargument, h⟩ :=
        build_pipeWith h
      exact ((Makes.of_applied h).outer_eq nofun).trans
        ((ihargument hargument).trans ((ihcallee hcallee).trans (ihvalue hvalue)))
  | member subject field place ih =>
      obtain ⟨value, middle, hsubject, h⟩ := build_member h
      exact ((Makes.of_member h).outer_eq nofun).trans (ih hsubject)
  | bracketed bracket inner opened closed ih =>
      cases bracket with
      | round =>
          obtain ⟨value, middle, hinner, h⟩ := build_round h
          exact ((Makes.of_group h).outer_eq nofun).trans (ih hinner)
      | square =>
          obtain ⟨value, middle, hinner, h⟩ := build_square h
          exact ((Makes.of_array h).outer_eq nofun).trans (ih hinner)
      | curly =>
          obtain ⟨value, middle, hinner, h⟩ := build_curly h
          have houter : middle.outer = scopes.current :: scopes.outer := ih hinner
          have hleave : middle.leave = .ok outer := by
            cases Makes.of_blockEnd h with
            | blockEnd hsettle hleave => exact hleave
          obtain ⟨current, around, frameSize⟩ := middle
          cases around with
          | nil => contradiction
          | cons scope around =>
              cases hleave
              exact (List.cons.inj houter).2

theorem depth_of_build {expr : Expr} {scopes outer : Scopes} {operand : Operand}
    (h : expr.build scopes = .ok (operand, outer)) : outer.depth = scopes.depth := by
  simp [Scopes.depth, Scopes.chain, outer_of_build h]

section Clean

variable {P : Position → Prop} {scopes : Scopes} {pieces : List Piece}

-- What an expression leaves on a plan.
theorem ready_of_build {expr : Expr} {operand : Operand} {outer : Scopes}
    (hplaces : ∀ place ∈ expr.places, P place) (hplan : Plan.Ready ⟨pieces, scopes⟩)
    (hsees : Plan.Sees Instruction.Indexable expr.postfixTokens ⟨pieces, scopes⟩)
    (h : expr.build scopes = .ok (operand, outer)) :
    operand.Ready P ∧ Plan.Ready ⟨.single operand :: pieces, outer⟩ := by
  have hnext := hplan.steps hsees (steps_of_build h pieces)
  refine ⟨hnext.top fun text position hname => ?_, hnext⟩
  exact hplaces position (mem_places_of_bare? (bare?_of_build (hname ▸ h)))

theorem clean_sign {operator : Operator} {position : Position} {left right : Operand}
    (hscopes : Ready scopes) (hleft : left.Ready P) (hright : right.Ready P)
    (hposition : P position) :
    Clean P (sign operator position (.single left) (.single right) scopes) := by
  cases operator with
  | sequence => exact clean_two hscopes hleft hright fun _ _ _ _ => trivial
  | assign => exact clean_assign hscopes hleft hright hposition
  | comma => exact clean_tuple hscopes hleft hright
  | plus => exact clean_arithmetic hscopes hleft hright hposition
  | minus => exact clean_arithmetic hscopes hleft hright hposition
  | star => exact clean_arithmetic hscopes hleft hright hposition
  | call => exact clean_applied hscopes hleft hright hposition

-- The induction follows the tree. What is built already stands on the plan, so that the journal can
-- be asked about it.
theorem clean_build (expr : Expr) {scopes : Scopes} {pieces : List Piece}
    (hplaces : ∀ place ∈ expr.places, P place) (hplan : Plan.Ready ⟨pieces, scopes⟩)
    (hsees : Plan.Sees Instruction.Indexable expr.postfixTokens ⟨pieces, scopes⟩) :
    Clean P (expr.build scopes) := by
  induction expr generalizing scopes pieces with
  | number text position => exact clean_number (hplaces position (List.mem_singleton_self _))
  | name text position => trivial
  | negate operand position ih =>
      obtain ⟨hposition, hplaces⟩ := List.forall_mem_cons.mp hplaces
      refine Meets.chain (ih hplaces hplan hsees.front) fun ⟨value, middle⟩ hvalue => ?_
      obtain ⟨hready, hnext⟩ := ready_of_build hplaces hplan hsees.front hvalue
      exact clean_negate hnext.toScopes hready hposition
  | binary operator left right position ihleft ihright =>
      obtain ⟨hposition, hplaces⟩ := List.forall_mem_cons.mp hplaces
      obtain ⟨hleftPlaces, hrightPlaces⟩ := List.forall_mem_append.mp hplaces
      have hsees := hsees.front
      refine Meets.chain (ihleft hleftPlaces hplan hsees.front) fun ⟨first, middle⟩ hfirst => ?_
      obtain ⟨hleft, hplan⟩ := ready_of_build hleftPlaces hplan hsees.front hfirst
      have hsees := hsees.behind (steps_of_build hfirst pieces)
      refine Meets.chain (ihright hrightPlaces hplan hsees) fun ⟨second, built⟩ hsecond => ?_
      obtain ⟨hright, hplan⟩ := ready_of_build hrightPlaces hplan hsees hsecond
      exact clean_sign hplan.toScopes hleft hright hposition
  | pipe value callee position ihvalue ihcallee =>
      obtain ⟨hposition, hplaces⟩ := List.forall_mem_cons.mp hplaces
      obtain ⟨hvaluePlaces, hcalleePlaces⟩ := List.forall_mem_append.mp hplaces
      have hsees := hsees.front
      refine Meets.chain (ihvalue hvaluePlaces hplan hsees.front) fun ⟨first, middle⟩ hfirst => ?_
      obtain ⟨hvalue, hplan⟩ := ready_of_build hvaluePlaces hplan hsees.front hfirst
      have hsees := hsees.behind (steps_of_build hfirst pieces)
      refine Meets.chain (ihcallee hcalleePlaces hplan hsees) fun ⟨second, built⟩ hsecond => ?_
      obtain ⟨hcallee, hplan⟩ := ready_of_build hcalleePlaces hplan hsees hsecond
      refine Meets.chain (clean_piping hplan.toScopes hvalue) fun piped hpiped => ?_
      obtain ⟨ty, segment, size, hsettle, -, rfl⟩ := Operand.piping_eq_ok hpiped
      have hty := handy_of_settle hplan.toScopes hvalue hsettle
      exact clean_call hplan.toScopes hcallee hty.toRegular hposition
  | pipeWith value callee argument position ihvalue ihcallee ihargument =>
      obtain ⟨hposition, hplaces⟩ := List.forall_mem_cons.mp hplaces
      obtain ⟨hplaces, hargumentPlaces⟩ := List.forall_mem_append.mp hplaces
      obtain ⟨hvaluePlaces, hcalleePlaces⟩ := List.forall_mem_append.mp hplaces
      have hpipe := hsees.front.front
      have hoperands := hpipe.front
      refine Meets.chain (ihvalue hvaluePlaces hplan hoperands.front) fun ⟨first, middle⟩ hfirst => ?_
      obtain ⟨hvalue, hplan'⟩ := ready_of_build hvaluePlaces hplan hoperands.front hfirst
      have hoperands := hoperands.behind (steps_of_build hfirst pieces)
      refine Meets.chain (ihcallee hcalleePlaces hplan' hoperands) fun ⟨second, behind⟩ hsecond => ?_
      obtain ⟨hcallee, hplan'⟩ := ready_of_build hcalleePlaces hplan' hoperands hsecond
      refine Meets.chain (clean_piping hplan'.toScopes hvalue) fun piped hpiped => ?_
      have hsteps := steps_pipe hfirst hsecond hpiped position pieces
      obtain ⟨ty, segment, size, hsettle, -, rfl⟩ := Operand.piping_eq_ok hpiped
      have hty := handy_of_settle hplan'.toScopes hvalue hsettle
      have hplan := hplan.steps hpipe hsteps
      have hsees := hsees.front.behind hsteps
      refine Meets.chain (ihargument hargumentPlaces hplan hsees) fun ⟨third, built⟩ hthird => ?_
      obtain ⟨hargument, hplan⟩ := ready_of_build hargumentPlaces hplan hsees hthird
      exact clean_appliedPiped hplan.toScopes hty.toRegular hcallee hargument hposition
  | member subject field position ih =>
      obtain ⟨hposition, hplaces⟩ := List.forall_mem_cons.mp hplaces
      refine Meets.chain (ih hplaces hplan hsees.front) fun ⟨value, middle⟩ hvalue => ?_
      obtain ⟨hready, hnext⟩ := ready_of_build hplaces hplan hsees.front hvalue
      exact clean_member hnext.toScopes hready hposition
  | bracketed bracket inner opened closed ih =>
      obtain ⟨hopened, hbehind⟩ := List.forall_mem_cons.mp hplaces
      have hinner : ∀ place ∈ inner.places, P place := (List.forall_mem_cons.mp hbehind).2
      cases bracket with
      | round =>
          refine Meets.chain (ih hinner hplan hsees.front) fun ⟨value, middle⟩ hvalue => ?_
          cases value <;> trivial
      | square =>
          refine Meets.chain (ih hinner hplan hsees.front) fun ⟨value, middle⟩ hvalue => ?_
          obtain ⟨hready, hnext⟩ := ready_of_build hinner hplan hsees.front hvalue
          exact clean_array hnext.toScopes hready hopened
      | curly =>
          have hsees : Plan.Sees Instruction.Indexable ([⟨.blockBegin, .nullary, "\x7b", opened⟩] ++
            (inner.postfixTokens ++ [⟨.blockEnd, .leftUnary, "\x7d", closed⟩]))
            ⟨pieces, scopes⟩ := hsees
          have henter : Plan.steps [⟨.blockBegin, .nullary, "\x7b", opened⟩] ⟨pieces, scopes⟩ =
              .ok ⟨pieces, scopes.enter⟩ := rfl
          have hplan := hplan.steps hsees.front henter
          have hsees := (hsees.behind henter).front
          refine Meets.chain (ih hinner hplan hsees) fun ⟨value, middle⟩ hvalue => ?_
          obtain ⟨hready, hnext⟩ := ready_of_build hinner hplan hsees hvalue
          refine clean_blockEnd hnext.toScopes hready ?_
          rw [depth_of_build hvalue]
          exact Nat.succ_lt_succ (Nat.succ_pos _)

end Clean

end Expr

end Sluice

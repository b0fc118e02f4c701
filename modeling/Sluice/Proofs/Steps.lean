import Mathlib
import Sluice.Proofs.Pieces

namespace Sluice

-- The instruction of a sign between two numbers.
def Token.Kind.arithmetic? : Token.Kind → Option Op
  | .plus => some .add
  | .minus => some .sub
  | .star => some .mul
  | _ => none

-- The signs that add no instruction of their own.
def Token.Kind.isBracket : Token.Kind → Bool
  | .group | .array | .blockEnd => true
  | _ => false

namespace Analysis

-- The sign, the pieces that it takes, topmost first, the operand that it makes of them and the
-- scopes afterwards.
inductive Makes (scopes : Scopes) : Token.Kind → List Piece → Operand → Scopes → Prop
  | int {value : Int} (position : Position)
      (hleast : Primitive.i32.least ≤ value) (hgreatest : value ≤ Primitive.i32.greatest) :
      Makes scopes .number []
        (.made [] .loadI (.ofPrimitive .i32) [] (.immediate (.int (Int64.ofInt value))) position)
        scopes
  | float (bits : UInt64) (position : Position) :
      Makes scopes .number [] (.made [] .loadI (.ofPrimitive .f64) [] (.immediate (.float bits)) position)
        scopes
  | assign {right : Piece} {ty : Ty} {segment : Segment} {name : String} {place : Position}
      {size : UInt32} {declared : Scopes} (position : Position)
      (hright : right.settle scopes = .ok (ty, segment)) (hsize : ty.close.size? = some size)
      (hdeclare : (scopes.allocate size).2.declare name
        ⟨ty.close, .stack (scopes.allocate size).1⟩ place = .ok declared) :
      Makes scopes .assign [right, .single (.name name place)]
        (.made (Piece.spent name place ty.close :: segment.code 0) .copy ty.close [ty.close]
          (.stack (scopes.allocate size).1) position)
        declared
  | arithmetic {left right : Piece} {leftTy rightTy : Ty} {leftSegment rightSegment : Segment}
      {primitive : Primitive} {kind : Token.Kind} (op : Op) (position : Position)
      (hop : kind.arithmetic? = some op)
      (hleft : left.settle scopes = .ok (leftTy, leftSegment))
      (hright : right.settle scopes = .ok (rightTy, rightSegment))
      (hnumeric : leftTy.numeric? = some primitive) (hsame : leftTy.same rightTy = true) :
      Makes scopes kind [right, left]
        (.made (leftSegment.code 0 ++ rightSegment.code 0) op (.ofPrimitive primitive)
          [leftTy, rightTy] .none position)
        scopes
  | negate {piece : Piece} {ty : Ty} {segment : Segment} (position : Position)
      (hsettle : piece.settle scopes = .ok (ty, segment)) (hnumeric : ty.numeric?.isSome = true) :
      Makes scopes .minus [piece] (.made (segment.code 0) .neg ty [ty] .none position) scopes
  | tuple {left right : Piece} {leftTy rightTy whole : Ty} {leftSegment rightSegment : Segment}
      (position : Position) (hleft : left.settle scopes = .ok (leftTy, leftSegment))
      (hright : right.settle scopes = .ok (rightTy, rightSegment))
      (happend : leftTy.append? rightTy = some whole) :
      Makes scopes .comma [right, left]
        (.made (leftSegment.code 0 ++ rightSegment.code 0) .tuple whole [leftTy, rightTy] .none
          position)
        scopes
  | sequence {left right : Piece} {leftTy rightTy : Ty} {leftSegment rightSegment : Segment}
      (position : Position) (hleft : left.settle scopes = .ok (leftTy, leftSegment))
      (hright : right.settle scopes = .ok (rightTy, rightSegment)) :
      Makes scopes .sequence [right, left]
        (.made (leftSegment.code 0 ++ rightSegment.code 0) .seq rightTy [leftTy, rightTy] .none
          position)
        scopes
  | call {callee : Operand} {argument : Piece} {ty calleeTy result : Ty}
      {segment calleeSegment : Segment} (position : Position)
      (hargument : argument.settle scopes = .ok (ty, segment))
      (hcallee : callee.settleCallee scopes ty position = .ok (calleeTy, calleeSegment))
      (hresult : calleeTy.result? = some result) :
      Makes scopes .call [argument, .single callee]
        (.made (calleeSegment.code 0 ++ segment.code 0) .call result [calleeTy, ty] .none position)
        scopes
  | callPiped {callee : Operand} {argument : Piece} {ty valueTy whole calleeTy result : Ty}
      {value segment calleeSegment : Segment} (position : Position)
      (hargument : argument.settle scopes = .ok (ty, segment))
      (happend : valueTy.append? ty = some whole)
      (hcallee : callee.settleCallee scopes whole position = .ok (calleeTy, calleeSegment))
      (hresult : calleeTy.result? = some result) :
      Makes scopes .call [argument, .piped valueTy value callee]
        (.made (value.code gap ++ calleeSegment.code (backward valueTy) ++ segment.code 0) .call
          result [calleeTy, whole] .none position)
        scopes
  | completed {callee : Operand} {ty calleeTy result : Ty} {value calleeSegment : Segment}
      (position : Position)
      (hcallee : callee.settleCallee scopes ty position = .ok (calleeTy, calleeSegment))
      (hresult : calleeTy.result? = some result) :
      Makes scopes .call [.piped ty value callee]
        (.made (value.code gap ++ calleeSegment.code (backward ty)) .call result [calleeTy, ty]
          .none position)
        scopes
  | member {subject : Piece} {ty inner : Ty} {segment : Segment} {name : String}
      {place : Position} {row : Member} (position : Position)
      (hsubject : subject.settle scopes = .ok (ty, segment)) (htuple : ty.isTuple = true)
      (hrow : ty.member? name = some row)
      (hinner : Ty.inner? ty.atoms row.index.toNat = some inner) :
      Makes scopes .member [.single (.name name place), subject]
        (.made (segment.code 0 ++ [Piece.spent name place .undecided]) .member inner [ty]
          (.member row.offset) position)
        scopes
  | group (ty : Ty) (segment : Segment) :
      Makes scopes .group [.single (.value ty segment)] (.value ty.close segment) scopes
  | groupName (text : String) (position : Position) :
      Makes scopes .group [.single (.name text position)] (.name text position) scopes
  | array {piece : Piece} {ty element : Ty} {segment : Segment} {count : Nat}
      {position : Position} (hsettle : piece.settle scopes = .ok (ty, segment))
      (helements : Piece.elementsOf ty position = .ok (element, count)) :
      Makes scopes .array [piece] (.value (.array element (UInt32.ofNat count)) segment) scopes
  | blockEnd {piece : Piece} {ty : Ty} {segment : Segment} {outer : Scopes}
      (hsettle : piece.settle scopes = .ok (ty, segment)) (hleave : scopes.leave = .ok outer) :
      Makes scopes .blockEnd [piece] (.value ty.close segment) outer

inductive Plan.Step : Plan → Plan → Prop
  | name (text : String) (position : Position) (pieces : List Piece) (scopes : Scopes) :
      Step ⟨pieces, scopes⟩ ⟨.single (.name text position) :: pieces, scopes⟩
  | enter (pieces : List Piece) (scopes : Scopes) :
      Step ⟨pieces, scopes⟩ ⟨pieces, scopes.enter⟩
  | pipe {value : Piece} {callee : Operand} {rest : List Piece} {scopes : Scopes} {ty : Ty}
      {segment : Segment} {size : UInt32} (hvalue : value.settle scopes = .ok (ty, segment))
      (hsize : ty.size? = some size) :
      Step ⟨.single callee :: value :: rest, scopes⟩ ⟨.piped ty segment callee :: rest, scopes⟩
  | made {kind : Token.Kind} {taken rest : List Piece} {scopes outer : Scopes} {operand : Operand}
      (h : Makes scopes kind taken operand outer) :
      Step ⟨taken ++ rest, scopes⟩ ⟨.single operand :: rest, outer⟩

section Inversion

variable {scopes outer : Scopes} {operand : Operand} {position : Position}

theorem join_eq_ok {before : List Instruction} {op : Op} {result : Ty} {operands : List Ty}
    {payload : Payload} :
    join scopes before op result operands payload position = .ok (operand, outer) ↔
      .made before op result operands payload position = operand ∧ scopes = outer := by
  simp [join]

theorem Makes.of_number {text : String}
    (h : Piece.number text position scopes = .ok (operand, outer)) :
    Makes scopes .number [] operand outer := by
  unfold Piece.number at h
  split at h
  · split at h
    · contradiction
    · obtain ⟨rfl, rfl⟩ := join_eq_ok.mp h
      exact .float _ position
  · split at h
    · contradiction
    · split at h
      · rename_i hrange
        obtain ⟨rfl, rfl⟩ := join_eq_ok.mp h
        exact .int position hrange.1 hrange.2
      · contradiction

theorem Makes.of_assign {left right : Piece}
    (h : Piece.assign position left right scopes = .ok (operand, outer)) :
    Makes scopes .assign [right, left] operand outer := by
  obtain ⟨⟨ty, segment⟩, hright, h⟩ := bind_eq_ok.mp h
  match left with
  | .single (.name name place) =>
      obtain ⟨size, hsize, h⟩ := bind_eq_ok.mp h
      obtain ⟨declared, hdeclare, h⟩ := bind_eq_ok.mp h
      obtain ⟨rfl, rfl⟩ := join_eq_ok.mp h
      exact .assign position hright (inRange_eq_ok.mp hsize) hdeclare
  | .single (.value _ _) => contradiction
  | .piped _ _ _ => contradiction

theorem Makes.of_arithmetic {kind : Token.Kind} {op : Op} {sign : String} {left right : Piece}
    (hop : kind.arithmetic? = some op)
    (h : Piece.arithmetic op sign position left right scopes = .ok (operand, outer)) :
    Makes scopes kind [right, left] operand outer := by
  obtain ⟨⟨leftTy, leftSegment⟩, hleft, h⟩ := bind_eq_ok.mp h
  obtain ⟨⟨rightTy, rightSegment⟩, hright, h⟩ := bind_eq_ok.mp h
  dsimp only at h
  split at h
  · split at h
    · rename_i hnumeric hsame
      obtain ⟨rfl, rfl⟩ := join_eq_ok.mp h
      exact .arithmetic op position hop hleft hright hnumeric hsame
    · contradiction
  · contradiction

theorem Makes.of_negate {piece : Piece}
    (h : Piece.negate position piece scopes = .ok (operand, outer)) :
    Makes scopes .minus [piece] operand outer := by
  obtain ⟨⟨ty, segment⟩, hsettle, h⟩ := bind_eq_ok.mp h
  dsimp only at h
  split at h
  · rename_i hnumeric
    obtain ⟨rfl, rfl⟩ := join_eq_ok.mp h
    exact .negate position hsettle hnumeric
  · contradiction

theorem Makes.of_tuple {left right : Piece}
    (h : Piece.tuple position left right scopes = .ok (operand, outer)) :
    Makes scopes .comma [right, left] operand outer := by
  obtain ⟨⟨leftTy, leftSegment⟩, hleft, h⟩ := bind_eq_ok.mp h
  obtain ⟨⟨rightTy, rightSegment⟩, hright, h⟩ := bind_eq_ok.mp h
  obtain ⟨whole, happend, h⟩ := bind_eq_ok.mp h
  obtain ⟨rfl, rfl⟩ := join_eq_ok.mp h
  exact .tuple position hleft hright (inRange_eq_ok.mp happend)

theorem Makes.of_sequence {left right : Piece}
    (h : Piece.sequence position left right scopes = .ok (operand, outer)) :
    Makes scopes .sequence [right, left] operand outer := by
  obtain ⟨⟨leftTy, leftSegment⟩, hleft, h⟩ := bind_eq_ok.mp h
  obtain ⟨⟨rightTy, rightSegment⟩, hright, h⟩ := bind_eq_ok.mp h
  obtain ⟨rfl, rfl⟩ := join_eq_ok.mp h
  exact .sequence position hleft hright

theorem call_eq_ok {before behind : List Instruction} {placement : Int32} {argument : Ty}
    {callee : Operand}
    (h : Piece.call before behind placement argument position callee scopes =
      .ok (operand, outer)) :
    ∃ ty segment result, callee.settleCallee scopes argument position = .ok (ty, segment) ∧
      ty.result? = some result ∧ scopes = outer ∧
      .made (before ++ segment.code placement ++ behind) .call result [ty, argument] .none position =
        operand := by
  obtain ⟨⟨ty, segment⟩, hcallee, h⟩ := bind_eq_ok.mp h
  dsimp only at h
  split at h
  · contradiction
  · rename_i result hresult
    obtain ⟨hmade, hscopes⟩ := join_eq_ok.mp h
    exact ⟨ty, segment, result, hcallee, hresult, hscopes, hmade⟩

theorem Makes.of_applied {left argument : Piece}
    (h : Piece.applied position left argument scopes = .ok (operand, outer)) :
    Makes scopes .call [argument, left] operand outer := by
  obtain ⟨⟨ty, segment⟩, hargument, h⟩ := bind_eq_ok.mp h
  match left with
  | .single callee =>
      obtain ⟨calleeTy, calleeSegment, result, hcallee, hresult, rfl, rfl⟩ := call_eq_ok h
      exact .call position hargument hcallee hresult
  | .piped valueTy value callee =>
      obtain ⟨whole, happend, h⟩ := bind_eq_ok.mp h
      obtain ⟨calleeTy, calleeSegment, result, hcallee, hresult, rfl, rfl⟩ := call_eq_ok h
      exact .callPiped position hargument (inRange_eq_ok.mp happend) hcallee hresult

theorem Makes.of_completed {piece : Piece}
    (h : Piece.completed position piece scopes = .ok (operand, outer)) :
    Makes scopes .call [piece] operand outer := by
  match piece with
  | .single _ => contradiction
  | .piped ty value callee =>
      obtain ⟨calleeTy, calleeSegment, result, hcallee, hresult, rfl, rfl⟩ := call_eq_ok h
      rw [List.append_nil]
      exact .completed position hcallee hresult

theorem Makes.of_member {subject field : Piece}
    (h : Piece.member position subject field scopes = .ok (operand, outer)) :
    Makes scopes .member [field, subject] operand outer := by
  match field with
  | .single (.name name place) =>
      obtain ⟨⟨ty, segment⟩, hsubject, h⟩ := bind_eq_ok.mp h
      dsimp only at h
      split at h
      · contradiction
      · rename_i row hrow
        obtain ⟨inner, hinner, h⟩ := bind_eq_ok.mp h
        obtain ⟨rfl, rfl⟩ := join_eq_ok.mp h
        split at hrow
        · rename_i htuple
          exact .member position hsubject htuple hrow (inRange_eq_ok.mp hinner)
        · contradiction
  | .single (.value _ _) => contradiction
  | .piped _ _ _ => contradiction

theorem Makes.of_group {piece : Piece} (h : Piece.group piece scopes = .ok (operand, outer)) :
    Makes scopes .group [piece] operand outer := by
  match piece with
  | .single (.value ty segment) => cases h; exact .group ty segment
  | .single (.name text position) => cases h; exact .groupName text position
  | .piped _ _ _ => contradiction

theorem Makes.of_array {piece : Piece}
    (h : Piece.array position piece scopes = .ok (operand, outer)) :
    Makes scopes .array [piece] operand outer := by
  obtain ⟨⟨ty, segment⟩, hsettle, h⟩ := bind_eq_ok.mp h
  obtain ⟨⟨element, count⟩, helements, h⟩ := bind_eq_ok.mp h
  cases h
  exact .array hsettle helements

theorem Makes.of_blockEnd {piece : Piece}
    (h : Piece.blockEnd piece scopes = .ok (operand, outer)) :
    Makes scopes .blockEnd [piece] operand outer := by
  obtain ⟨⟨ty, segment⟩, hsettle, h⟩ := bind_eq_ok.mp h
  obtain ⟨left, hleave, h⟩ := bind_eq_ok.mp h
  cases h
  exact .blockEnd hsettle hleave

end Inversion

theorem Plan.Step.of_unary {kind : Token.Kind} {sign : Piece → Scopes → Joined} {plan next : Plan}
    (hsign : ∀ {piece operand outer}, sign piece plan.scopes = .ok (operand, outer) →
      Makes plan.scopes kind [piece] operand outer)
    (h : plan.unary sign = .ok next) : plan.Step next := by
  obtain ⟨pieces, scopes⟩ := plan
  match pieces with
  | [] => contradiction
  | piece :: rest =>
      obtain ⟨⟨operand, outer⟩, hjoined, rfl⟩ := map_eq_ok.mp h
      exact .made (hsign hjoined)

theorem Plan.Step.of_binary {kind : Token.Kind} {sign : Piece → Piece → Scopes → Joined}
    {plan next : Plan}
    (hsign : ∀ {left right operand outer}, sign left right plan.scopes = .ok (operand, outer) →
      Makes plan.scopes kind [right, left] operand outer)
    (h : plan.binary sign = .ok next) : plan.Step next := by
  obtain ⟨pieces, scopes⟩ := plan
  match pieces with
  | [] => contradiction
  | [_] => contradiction
  | right :: left :: rest =>
      obtain ⟨⟨operand, outer⟩, hjoined, rfl⟩ := map_eq_ok.mp h
      exact .made (hsign hjoined)

private theorem Plan.Step.of_pipe {plan next : Plan} (h : plan.pipe = .ok next) :
    plan.Step next := by
  obtain ⟨pieces, scopes⟩ := plan
  match pieces with
  | [] => contradiction
  | [_] => contradiction
  | callee :: value :: rest =>
      obtain ⟨piece, hpiece, rfl⟩ := map_eq_ok.mp h
      obtain ⟨⟨ty, segment⟩, hvalue, hpiece⟩ := bind_eq_ok.mp hpiece
      obtain ⟨size, hsize, hpiece⟩ := bind_eq_ok.mp hpiece
      match callee with
      | .single callee =>
          cases hpiece
          exact .pipe hvalue (inRange_eq_ok.mp hsize)
      | .piped _ _ _ => contradiction

-- Every token that is accepted does one of these steps.
theorem Plan.Step.of_step {token : Token} {plan next : Plan} (h : plan.step token = .ok next) :
    plan.Step next := by
  unfold Plan.step at h
  split at h
  · obtain ⟨⟨operand, outer⟩, hjoined, rfl⟩ := map_eq_ok.mp h
    exact .made (Makes.of_number hjoined)
  · cases h
    exact .name _ _ _ _
  · exact .of_binary Makes.of_assign h
  · have hop : Token.Kind.plus.arithmetic? = some .add := rfl
    exact .of_binary (Makes.of_arithmetic hop) h
  · have hop : Token.Kind.minus.arithmetic? = some .sub := rfl
    exact .of_binary (Makes.of_arithmetic hop) h
  · have hop : Token.Kind.star.arithmetic? = some .mul := rfl
    exact .of_binary (Makes.of_arithmetic hop) h
  · exact .of_unary Makes.of_negate h
  · exact .of_binary Makes.of_tuple h
  · exact .of_binary Makes.of_applied h
  · exact .of_unary Makes.of_completed h
  · exact .of_pipe h
  · exact .of_binary Makes.of_member h
  · exact .of_unary Makes.of_group h
  · exact .of_unary Makes.of_array h
  · exact .of_binary Makes.of_sequence h
  · cases h
    exact .enter _ _
  · exact .of_unary Makes.of_blockEnd h
  · contradiction

-- A program comes from some steps and a token at the end.
theorem Plan.assemble_eq_ok {literals : Pool} {tokens : List Token} {plan : Plan}
    {program : Program} (h : plan.assemble literals tokens = .ok program) :
    ∃ final token, Relation.ReflTransGen Plan.Step plan final ∧
      final.finish literals token = .ok program := by
  induction tokens generalizing plan with
  | nil => contradiction
  | cons token rest ih =>
      rw [Plan.assemble] at h
      split at h
      · obtain ⟨found, hfinish, h⟩ := bind_eq_ok.mp h
        split at h
        · cases h
          exact ⟨plan, token, .refl, hfinish⟩
        · contradiction
      · obtain ⟨next, hstep, h⟩ := bind_eq_ok.mp h
        obtain ⟨final, last, hsteps, hfinish⟩ := ih h
        exact ⟨final, last, .head (.of_step hstep) hsteps, hfinish⟩

theorem Plan.finish_eq_ok {literals : Pool} {token : Token} {plan : Plan} {program : Program}
    (h : plan.finish literals token = .ok program) :
    ∃ piece ty segment, plan.pieces = [piece] ∧ piece.settle plan.scopes = .ok (ty, segment) ∧
      plan.scopes.depth = 1 ∧
      program = ⟨(segment.code 0 ++
        [(⟨.finish, ty, [ty], .none, 0, token.position⟩ : Instruction)]).toArray, literals,
        plan.scopes.frameSize⟩ := by
  unfold Plan.finish at h
  split at h
  · contradiction
  · rename_i piece rest hpieces
    obtain ⟨⟨ty, segment⟩, hsettle, h⟩ := bind_eq_ok.mp h
    dsimp only at h
    split at h
    · contradiction
    · rename_i hrest
      split at h
      · contradiction
      · rename_i hdepth
        cases h
        exact ⟨piece, ty, segment, by rw [hpieces, not_not.mp hrest], hsettle, not_not.mp hdepth,
          rfl⟩

-- Properties of instructions that do not look at the placement and that every placeholder has.
structure Uniform (P : Instruction → Prop) : Prop where
  placed : ∀ {instruction : Instruction} (placement : Int32),
    P (instruction.placed placement) ↔ P instruction
  placeholder : ∀ (text : String) (position : Position), P (.placeholder text position)

section Backward

variable {P : Instruction → Prop}

def Segment.All (P : Instruction → Prop) (segment : Segment) : Prop :=
  (∀ instruction ∈ segment.init, P instruction) ∧ P segment.last

theorem Uniform.code_iff (hP : Uniform P) (segment : Segment) (placement : Int32) :
    (∀ instruction ∈ segment.code placement, P instruction) ↔ segment.All P := by
  simp only [Segment.code, Segment.All, List.forall_mem_append, List.forall_mem_singleton,
    hP.placed]

-- A name that is settled was a placeholder before.
theorem Uniform.piece_of_settle (hP : Uniform P) {piece : Piece} {scopes : Scopes} {ty : Ty}
    {segment : Segment} (h : piece.settle scopes = .ok (ty, segment)) (hall : segment.All P) :
    ∀ instruction ∈ piece.code, P instruction := by
  match piece with
  | .single (.value valueTy code) =>
      cases h
      exact (hP.code_iff segment 0).mpr hall
  | .single (.name text position) =>
      simp only [Piece.code, Operand.code, hP.code_iff]
      exact ⟨by simp [Operand.segment], hP.placeholder text position⟩
  | .piped _ _ _ => contradiction

theorem Uniform.callee_of_settle (hP : Uniform P) {callee : Operand} {scopes : Scopes}
    {argument ty : Ty} {position : Position} {segment : Segment}
    (h : callee.settleCallee scopes argument position = .ok (ty, segment))
    (hall : segment.All P) : callee.segment.All P := by
  match callee with
  | .value valueTy code =>
      obtain ⟨-, rfl, -⟩ := Operand.eq_of_settleCallee_value h
      exact hall
  | .name text place => exact ⟨by simp [Operand.segment], hP.placeholder text place⟩

theorem Uniform.pieces_of_settle (hP : Uniform P) {left right : Piece} {scopes : Scopes}
    {leftTy rightTy : Ty} {leftSegment rightSegment : Segment}
    (hleft : left.settle scopes = .ok (leftTy, leftSegment))
    (hright : right.settle scopes = .ok (rightTy, rightSegment))
    (hall : ∀ instruction ∈ leftSegment.code 0 ++ rightSegment.code 0, P instruction) :
    ∀ piece ∈ [right, left], ∀ instruction ∈ piece.code, P instruction := by
  simp only [List.forall_mem_append, hP.code_iff] at hall
  simp only [List.forall_mem_cons, List.not_mem_nil, false_imp_iff, implies_true, and_true]
  exact ⟨hP.piece_of_settle hright hall.2, hP.piece_of_settle hleft hall.1⟩

-- What holds of the code that a sign leaves held of the code that it took.
theorem Makes.forall_taken (hP : Uniform P) {scopes outer : Scopes} {kind : Token.Kind}
    {taken : List Piece} {operand : Operand} (h : Makes scopes kind taken operand outer)
    (hall : operand.segment.All P) :
    ∀ piece ∈ taken, ∀ instruction ∈ piece.code, P instruction := by
  have hname : ∀ text position, ∀ instruction ∈ (Piece.single (.name text position)).code,
      P instruction := fun text position => by
    simp only [Piece.code, Operand.code, hP.code_iff]
    exact ⟨by simp [Operand.segment], hP.placeholder text position⟩
  cases h with
  | int position hleast hgreatest => simp
  | float bits position => simp
  | assign position hright hsize hdeclare =>
      have hinit := hall.1
      simp only [Operand.made, Operand.segment, List.forall_mem_cons, hP.code_iff] at hinit
      simp only [List.forall_mem_cons, List.not_mem_nil, false_imp_iff, implies_true, and_true]
      exact ⟨hP.piece_of_settle hright hinit.2, hname _ _⟩
  | arithmetic op position hop hleft hright hnumeric hsame =>
      exact hP.pieces_of_settle hleft hright hall.1
  | negate position hsettle hnumeric =>
      have hinit := hall.1
      simp only [Operand.made, Operand.segment, hP.code_iff] at hinit
      simp only [List.forall_mem_cons, List.not_mem_nil, false_imp_iff, implies_true, and_true]
      exact hP.piece_of_settle hsettle hinit
  | tuple position hleft hright happend =>
      exact hP.pieces_of_settle hleft hright hall.1
  | sequence position hleft hright =>
      exact hP.pieces_of_settle hleft hright hall.1
  | call position hargument hcallee hresult =>
      have hinit := hall.1
      simp only [Operand.made, Operand.segment, List.forall_mem_append, hP.code_iff] at hinit
      simp only [List.forall_mem_cons, List.not_mem_nil, false_imp_iff, implies_true, and_true,
        Piece.code, Operand.code, hP.code_iff]
      exact ⟨hP.piece_of_settle hargument hinit.2, hP.callee_of_settle hcallee hinit.1⟩
  | callPiped position hargument happend hcallee hresult =>
      have hinit := hall.1
      simp only [Operand.made, Operand.segment, List.forall_mem_append, hP.code_iff] at hinit
      simp only [List.forall_mem_cons, List.not_mem_nil, false_imp_iff, implies_true, and_true,
        Piece.code, Operand.code, List.forall_mem_append, hP.code_iff]
      exact ⟨hP.piece_of_settle hargument hinit.2, hinit.1.1,
        hP.callee_of_settle hcallee hinit.1.2⟩
  | completed position hcallee hresult =>
      have hinit := hall.1
      simp only [Operand.made, Operand.segment, List.forall_mem_append, hP.code_iff] at hinit
      simp only [List.forall_mem_cons, List.not_mem_nil, false_imp_iff, implies_true, and_true,
        Piece.code, Operand.code, List.forall_mem_append, hP.code_iff]
      exact ⟨hinit.1, hP.callee_of_settle hcallee hinit.2⟩
  | member position hsubject htuple hrow hinner =>
      have hinit := hall.1
      simp only [Operand.made, Operand.segment, List.forall_mem_append, hP.code_iff] at hinit
      simp only [List.forall_mem_cons, List.not_mem_nil, false_imp_iff, implies_true, and_true]
      exact ⟨hname _ _, hP.piece_of_settle hsubject hinit.1⟩
  | group ty segment =>
      simp only [List.forall_mem_singleton, Piece.code, Operand.code, hP.code_iff]
      exact hall
  | groupName text position => simpa using hname text position
  | array hsettle helements =>
      simp only [List.forall_mem_singleton]
      exact hP.piece_of_settle hsettle hall
  | blockEnd hsettle hleave =>
      simp only [List.forall_mem_singleton]
      exact hP.piece_of_settle hsettle hall

theorem mem_codeOf {pieces : List Piece} {instruction : Instruction} :
    instruction ∈ codeOf pieces ↔ ∃ piece ∈ pieces, instruction ∈ piece.code := by
  induction pieces with
  | nil => simp [codeOf]
  | cons piece rest ih => simp [codeOf, ih, or_comm]

theorem Plan.Step.forall_code (hP : Uniform P) {plan next : Plan} (h : plan.Step next)
    (hnext : ∀ instruction ∈ next.code, P instruction) :
    ∀ instruction ∈ plan.code, P instruction := by
  cases h with
  | name text position pieces scopes =>
      intro instruction hmem
      exact hnext instruction (List.mem_append_left _ hmem)
  | enter pieces scopes => exact hnext
  | @pipe value callee rest scopes ty segment size hvalue hsize =>
      simp only [Plan.code, codeOf, List.forall_mem_append, Piece.code, Operand.code,
        hP.code_iff] at hnext ⊢
      exact ⟨⟨hnext.1, hP.piece_of_settle hvalue hnext.2.1⟩, hnext.2.2⟩
  | @made kind taken rest scopes outer operand hmakes =>
      simp only [Plan.code, codeOf, List.forall_mem_append, Piece.code, Operand.code,
        hP.code_iff] at hnext
      intro instruction hmem
      obtain ⟨piece, hpiece, hmem⟩ := mem_codeOf.mp hmem
      rcases List.mem_append.mp hpiece with htaken | hrest
      · exact hmakes.forall_taken hP hnext.2 piece htaken instruction hmem
      · exact hnext.1 instruction (mem_codeOf.mpr ⟨piece, hrest, hmem⟩)

-- A run keeps what every step keeps. The code of the last plan bounds that of every earlier one, so
-- the steps are taken from the end.
theorem Plan.keeps {invariant : Plan → Prop} (hP : Uniform P)
    (hstep : ∀ {plan next : Plan}, plan.Step next → (∀ instruction ∈ next.code, P instruction) →
      invariant plan → invariant next)
    {plan final : Plan} (h : Relation.ReflTransGen Plan.Step plan final)
    (hall : ∀ instruction ∈ final.code, P instruction) (hplan : invariant plan) :
    invariant final := by
  induction h with
  | refl => exact hplan
  | tail hsteps hlast ih => exact hstep hlast hall (ih (hlast.forall_code hP hall))

end Backward

end Analysis

end Sluice

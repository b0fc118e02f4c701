import Mathlib
import Sluice.Proofs.Pieces
import Sluice.Source.Compile

namespace Sluice

-- What a name is bound to. An assignment is known by the index of its COPY, and what the library
-- offers has none.
structure Origin where
  ty : Ty
  copy : Option Nat
deriving DecidableEq, Repr

-- The number of instructions in front of a place, and the names that can be seen there: those of the
-- innermost block in the order of their binding, then those of the blocks around it.
structure Place where
  index : Nat
  current : List (String × Origin)
  outer : List (List (String × Origin))
deriving DecidableEq, Repr

namespace Place

def chain (place : Place) : List (List (String × Origin)) :=
  place.current :: place.outer

def root (library : Library) : Place :=
  ⟨0, library.natives.map (fun native => (native.name, ⟨native.ty, none⟩)) ++
    library.constants.map (fun constant => (constant.name, ⟨constant.ty, none⟩)), []⟩

def next (place : Place) : Place :=
  { place with index := place.index + 1 }

-- The COPY at a place binds the name.
def bind (place : Place) (name : String) (ty : Ty) : Place :=
  ⟨place.index + 1, place.current ++ [(name, ⟨ty, some place.index⟩)], place.outer⟩

def enter (place : Place) : Place :=
  ⟨place.index, [], place.chain⟩

def leave (place : Place) : Place :=
  match place.outer with
  | [] => place
  | names :: outer => ⟨place.index, names, outer⟩

@[simp] theorem index_leave (place : Place) : place.leave.index = place.index := by
  unfold leave
  split <;> rfl

end Place

-- A name is used as it is, or called with an argument.
inductive Role
  | plain
  | callee (argument : Ty)
deriving DecidableEq, Repr

def Role.accepts : Role → Ty → Bool
  | .plain, _ => true
  | .callee argument, ty => (Ty.func .undecided argument).matches? ty = some true

-- A name between the place where it is written and the place where a sign takes it.
structure Use where
  name : String
  position : Position
  role : Role
  before : Place
  after : Place
deriving DecidableEq, Repr

namespace Use

def accepts (use : Use) (entry : String × Origin) : Bool :=
  entry.1 = use.name && use.role.accepts entry.2.ty

-- What the name stands for at a place: the first binding that the role accepts, of the innermost
-- block that has one.
def found (use : Use) (place : Place) : Option Origin :=
  (place.chain.findSome? fun names => names.find? use.accepts).map Prod.snd

end Use

namespace Expr

-- A name, maybe in brackets.
def bare? : Expr → Option (String × Position)
  | .name text position => some (text, position)
  | .bracketed .round inner _ _ => inner.bare?
  | _ => none

section Walk

variable (code : List Instruction)

def typeAt (index : Nat) : Ty :=
  (code[index]?.map Instruction.result).getD .undecided

-- The type of what is passed to the function that is called at an index.
def argumentAt (index : Nat) : Ty :=
  (code[index]?.bind fun instruction => instruction.operands[1]?).getD .undecided

-- The place behind an expression.
def after : Expr → Place → Place
  | .number _ _, place => place.next
  | .name _ _, place => place.next
  | .negate operand _, place => (operand.after place).next
  | .binary .assign left right _, place =>
      let behind := right.after (left.after place)
      match left.bare? with
      | some (text, _) => behind.bind text (typeAt code behind.index)
      | none => behind.next
  | .binary _ left right _, place => (right.after (left.after place)).next
  | .pipe value callee _, place => (callee.after (value.after place)).next
  | .pipeWith value callee argument _, place =>
      (argument.after (callee.after (value.after place))).next
  | .member subject _ _, place => (subject.after place).next.next
  | .bracketed .round inner _ _, place => inner.after place
  | .bracketed .square inner _ _, place => inner.after place
  | .bracketed .curly inner _ _, place => (inner.after place.enter).leave

-- The use of an operand that is only a name.
def taken (expr : Expr) (role : Role) (before after : Place) : List Use :=
  match expr.bare? with
  | some (text, position) => [⟨text, position, role, before, after⟩]
  | none => []

-- The left operand of a sign, written at `before`. The name of an assignment is not used.
def takenLeft (operator : Operator) (left : Expr) (before after : Place) : List Use :=
  match operator with
  | .assign => []
  | .call => left.taken (.callee (argumentAt code after.index)) before after
  | _ => left.taken .plain before after

-- The names that are taken inside of an expression.
def uses : Expr → Place → List Use
  | .number _ _, _ => []
  | .name _ _, _ => []
  | .negate operand _, place =>
      operand.uses place ++ operand.taken .plain place (operand.after code place)
  | .binary operator left right _, place =>
      let middle := left.after code place
      let behind := right.after code middle
      left.uses place ++ right.uses middle ++ takenLeft code operator left place behind ++
        right.taken .plain middle behind
  | .pipe value callee _, place =>
      let middle := value.after code place
      let behind := callee.after code middle
      value.uses place ++ callee.uses middle ++ value.taken .plain place behind ++
        callee.taken (.callee (argumentAt code behind.index)) middle behind
  | .pipeWith value callee argument _, place =>
      let middle := value.after code place
      let piped := callee.after code middle
      let behind := argument.after code piped
      value.uses place ++ callee.uses middle ++ argument.uses piped ++
        value.taken .plain place piped ++
        callee.taken (.callee (argumentAt code behind.index)) middle behind ++
        argument.taken .plain piped behind
  | .member subject _ _, place =>
      subject.uses place ++ subject.taken .plain place (subject.after code place)
  | .bracketed .round inner _ _, place => inner.uses place
  | .bracketed .square inner _ _, place =>
      inner.uses place ++ inner.taken .plain place (inner.after code place)
  | .bracketed .curly inner _ _, place =>
      inner.uses place.enter ++
        inner.taken .plain place.enter (inner.after code place.enter)

-- All names of a program. The value of the program is taken at its end.
def programUses (expr : Expr) (library : Library) : List Use :=
  expr.uses code (.root library) ++
    expr.taken .plain (.root library) (expr.after code (.root library))

end Walk

end Expr

namespace Place

def Sees (place : Place) (entry : String × Origin) : Prop :=
  ∃ names ∈ place.chain, entry ∈ names

theorem sees_of_found {place : Place} {use : Use} {origin : Origin}
    (h : use.found place = some origin) : ∃ name, place.Sees (name, origin) := by
  obtain ⟨⟨name, origin⟩, hentry, rfl⟩ := Option.map_eq_some_iff.mp h
  obtain ⟨names, hnames, hfind⟩ := List.exists_of_findSome?_eq_some hentry
  exact ⟨name, names, hnames, List.mem_of_find?_eq_some hfind⟩

-- A later place in the same block. Whatever was bound in between has its COPY in between.
structure Extends (place later : Place) : Prop where
  index : place.index ≤ later.index
  outer : later.outer = place.outer
  current : ∃ added, later.current = place.current ++ added ∧
    ∀ entry ∈ added, ∃ copy, entry.2.copy = some copy ∧ place.index ≤ copy

namespace Extends

variable {place middle later : Place}

theorem refl (place : Place) : place.Extends place :=
  ⟨Nat.le_refl _, rfl, [], by simp, by simp⟩

theorem trans (hfirst : place.Extends middle) (hsecond : middle.Extends later) :
    place.Extends later := by
  obtain ⟨added, hcurrent, hadded⟩ := hfirst.current
  obtain ⟨more, hmore, hlater⟩ := hsecond.current
  refine ⟨hfirst.index.trans hsecond.index, hsecond.outer.trans hfirst.outer, added ++ more, ?_, ?_⟩
  · rw [hmore, hcurrent, List.append_assoc]
  · intro entry hentry
    rcases List.mem_append.mp hentry with hentry | hentry
    · exact hadded entry hentry
    · obtain ⟨copy, hcopy, hindex⟩ := hlater entry hentry
      exact ⟨copy, hcopy, hfirst.index.trans hindex⟩

theorem next (h : place.Extends later) : place.Extends later.next :=
  ⟨Nat.le_succ_of_le h.index, h.outer, h.current⟩

theorem bind (h : place.Extends later) (name : String) (ty : Ty) :
    place.Extends (later.bind name ty) := by
  refine h.trans ⟨Nat.le_succ _, rfl, [(name, ⟨ty, some later.index⟩)], rfl, ?_⟩
  intro entry hentry
  cases List.mem_singleton.mp hentry
  exact ⟨later.index, rfl, Nat.le_refl _⟩

-- A block leaves nothing behind but its instructions.
theorem leave (h : place.enter.Extends later) : place.Extends later.leave := by
  have hleave : later.leave = ⟨later.index, place.current, place.outer⟩ := by
    simp only [Place.leave, h.outer, Place.enter, chain]
  rw [hleave]
  exact ⟨h.index, rfl, [], by simp, by simp⟩

theorem sees (h : place.Extends later) {entry : String × Origin} (hsees : place.Sees entry) :
    later.Sees entry := by
  obtain ⟨added, hcurrent, -⟩ := h.current
  obtain ⟨names, hnames, hentry⟩ := hsees
  rcases List.mem_cons.mp hnames with rfl | hnames
  · exact ⟨later.current, List.mem_cons_self .., hcurrent ▸ List.mem_append_left _ hentry⟩
  · exact ⟨names, List.mem_cons_of_mem _ (h.outer ▸ hnames), hentry⟩

-- A binding that is older than a place can be seen there if it is seen later.
theorem found_eq (h : place.Extends later) {use : Use} {ty : Ty} {copy : Nat}
    (hfound : use.found later = some ⟨ty, some copy⟩) (hcopy : copy < place.index) :
    use.found place = some ⟨ty, some copy⟩ := by
  obtain ⟨added, hcurrent, hadded⟩ := h.current
  simp only [Use.found, chain, h.outer, hcurrent, List.findSome?_cons, List.find?_append] at hfound ⊢
  cases hfirst : place.current.find? use.accepts with
  | some entry => simpa only [hfirst, Option.some_or] using hfound
  | none =>
      rw [hfirst, Option.none_or] at hfound
      cases hnew : added.find? use.accepts with
      | none => simpa only [hnew] using hfound
      | some entry =>
          obtain ⟨found, hfound', hindex⟩ := hadded entry (List.mem_of_find?_eq_some hnew)
          simp only [hnew, Option.map_some, Option.some.injEq] at hfound
          rw [hfound] at hfound'
          cases hfound'
          omega

end Extends

end Place

namespace Expr

-- Every expression stays in the block where it begins.
theorem extends_after (code : List Instruction) (expr : Expr) (place : Place) :
    place.Extends (expr.after code place) := by
  induction expr generalizing place with
  | number text position => exact (Place.Extends.refl place).next
  | name text position => exact (Place.Extends.refl place).next
  | negate operand position ih => exact (ih place).next
  | binary operator left right position ihleft ihright =>
      have hboth := (ihleft place).trans (ihright (left.after code place))
      cases operator with
      | assign =>
          rw [after]
          split
          · exact hboth.bind _ _
          · exact hboth.next
      | sequence => exact hboth.next
      | comma => exact hboth.next
      | plus => exact hboth.next
      | minus => exact hboth.next
      | star => exact hboth.next
      | call => exact hboth.next
  | pipe value callee position ihvalue ihcallee =>
      exact ((ihvalue place).trans (ihcallee _)).next
  | pipeWith value callee argument position ihvalue ihcallee ihargument =>
      exact (((ihvalue place).trans (ihcallee _)).trans (ihargument _)).next
  | member subject field position ih => exact (ih place).next.next
  | bracketed bracket inner opened closed ih =>
      cases bracket with
      | round => exact ih place
      | square => exact ih place
      | curly => exact (ih place.enter).leave

end Expr

end Sluice

import Mathlib
import Sluice.Proofs.Pieces
import Sluice.Source.Compile

namespace Sluice

theorem toOption_bind {ε α β : Type} (first : Except ε α) (next : α → Except ε β) :
    (first >>= next).toOption = first.toOption.bind fun value => (next value).toOption := by
  cases first <;> rfl

namespace Expr

-- The parser without its reasons to fail.
def operand? (last : Position) (lexemes : List Lexeme) : Option (Expr × List Lexeme) :=
  (parseOperand last lexemes).toOption.map fun parsed => (parsed.expr, parsed.rest)

def read? (last : Position) (least : Nat) (lexemes : List Lexeme) : Option (Expr × List Lexeme) :=
  (parseExpr last least lexemes).toOption.map fun parsed => (parsed.expr, parsed.rest)

def extend? (last : Position) (least : Nat) (left : Expr) (lexemes : List Lexeme) :
    Option (Expr × List Lexeme) :=
  (extend last least left lexemes).toOption.map fun whole => (whole.expr, whole.rest)

def closer? (bracket : Bracket) : List Lexeme → Option (Position × List Lexeme)
  | [] => none
  | lexeme :: rest =>
      if lexeme.word = .mark (.closing bracket) then some (lexeme.position, rest) else none

def field? : List Lexeme → Option (String × List Lexeme)
  | ⟨.name text, _⟩ :: rest => if isMemberName text then some (text, rest) else none
  | _ => none

-- The right side of a link, joined to what stands on the left.
def side? (last : Position) (link : Link) (lexemes : List Lexeme) (join : Expr → Expr) :
    Option (Expr × List Lexeme) :=
  (read? last link.rightPower lexemes).map fun found => (join found.1, found.2)

def joined? (last : Position) (left : Expr) (lexeme : Lexeme) (rest : List Lexeme) :
    Link → Option (Expr × List Lexeme)
  | .sign .call =>
      side? last (.sign .call) (lexeme :: rest) (applied left · lexeme.position)
  | .sign operator =>
      side? last (.sign operator) rest (.binary operator left · lexeme.position)
  | .pipe => side? last .pipe rest (.pipe left · lexeme.position)
  | .dot =>
      match field? rest with
      | some (field, behind) => some (.member left field lexeme.position, behind)
      | none => side? last .dot rest (.pipe left · lexeme.position)

section Equations

variable {last : Position} {least : Nat} {left : Expr}

theorem closer?_eq (bracket : Bracket) (opened : Position) (lexemes : List Lexeme) :
    (closing bracket opened lexemes).toOption.map (fun found => (found.1, found.2.val)) =
      closer? bracket lexemes := by
  match lexemes with
  | [] => rfl
  | lexeme :: rest =>
      simp only [closing, closer?]
      split <;> rfl

theorem field?_eq (lexemes : List Lexeme) :
    (memberName? lexemes).map (fun found => (found.1, found.2.val)) = field? lexemes := by
  match lexemes with
  | [] => rfl
  | ⟨.name text, place⟩ :: rest =>
      simp only [memberName?, field?]
      split <;> rfl
  | ⟨.number text, place⟩ :: rest => rfl
  | ⟨.mark sign, place⟩ :: rest => rfl

@[simp] theorem operand?_nil : operand? last [] = none := by
  rw [operand?, parseOperand]
  rfl

theorem operand?_cons (lexeme : Lexeme) (rest : List Lexeme) :
    operand? last (lexeme :: rest) =
      match lexeme.word with
      | .number text => some (.number text lexeme.position, rest)
      | .name text => some (.name text lexeme.position, rest)
      | .mark .minus =>
          (read? last negatePower rest).map fun found => (.negate found.1 lexeme.position, found.2)
      | .mark (.opening bracket) =>
          (read? last 0 rest).bind fun found => (closer? bracket found.2).map fun closed =>
            (.bracketed bracket found.1 lexeme.position closed.1, closed.2)
      | .mark _ => none := by
  rw [operand?, parseOperand]
  obtain ⟨word, place⟩ := lexeme
  cases word with
  | number text => rfl
  | name text => rfl
  | mark mark =>
      cases mark with
      | minus =>
          dsimp only
          rw [toOption_bind, read?]
          cases (parseExpr last negatePower rest).toOption <;> rfl
      | opening bracket =>
          dsimp only
          rw [toOption_bind, read?]
          cases (parseExpr last 0 rest).toOption with
          | none => rfl
          | some parsed =>
              simp only [Option.bind_some, Option.map_some, toOption_bind]
              rw [← closer?_eq bracket place]
              cases (closing bracket place parsed.rest).toOption <;> rfl
      | _ => rfl

theorem read?_eq (lexemes : List Lexeme) :
    read? last least lexemes =
      (operand? last lexemes).bind fun found => extend? last least found.1 found.2 := by
  rw [read?, parseExpr, operand?, toOption_bind]
  cases (parseOperand last lexemes).toOption with
  | none => rfl
  | some parsed =>
      simp only [Option.bind_some, Option.map_some, toOption_bind, extend?]
      cases (extend last least parsed.expr parsed.rest).toOption <;> rfl

@[simp] theorem extend?_nil : extend? last least left [] = some (left, []) := by
  rw [extend?, extend]
  rfl

-- The right side of a link is joined to the left one, and then the whole goes on.
theorem extending_eq {before outer : List Lexeme} (first : Except Failure (Parsed before))
    (join : Expr → Expr)
    (hle : ∀ (parsed : Parsed before) (whole : Extended parsed.rest),
      whole.rest.length ≤ outer.length) :
    (first >>= fun parsed => extend last least (join parsed.expr) parsed.rest >>= fun whole =>
        (.ok ⟨whole.expr, whole.rest, hle parsed whole⟩ :
          Except Failure (Extended outer))).toOption.map (fun whole => (whole.expr, whole.rest)) =
      ((first.toOption.map fun parsed => (parsed.expr, parsed.rest)).map fun found =>
        (join found.1, found.2)).bind fun found => extend? last least found.1 found.2 := by
  rw [toOption_bind]
  cases first.toOption with
  | none => rfl
  | some parsed =>
      simp only [Option.bind_some, Option.map_some, toOption_bind, extend?]
      cases (extend last least (join parsed.expr) parsed.rest).toOption <;> rfl

theorem extend?_cons (lexeme : Lexeme) (rest : List Lexeme) :
    extend? last least left (lexeme :: rest) =
      match Link.ofWord? lexeme.word with
      | none => some (left, lexeme :: rest)
      | some link =>
          if link.leftPower < least then some (left, lexeme :: rest)
          else (joined? last left lexeme rest link).bind fun found =>
            extend? last least found.1 found.2 := by
  rw [extend?, extend]
  cases Link.ofWord? lexeme.word with
  | none => rfl
  | some link =>
      dsimp only
      split
      · rfl
      · cases link with
        | sign operator =>
            cases operator with
            | call => exact extending_eq _ (applied left · lexeme.position) _
            | _ => exact extending_eq _ (.binary _ left · lexeme.position) _
        | pipe => exact extending_eq _ (.pipe left · lexeme.position) _
        | dot =>
            dsimp only
            rw [joined?, ← field?_eq]
            cases memberName? rest with
            | none => exact extending_eq _ (.pipe left · lexeme.position) _
            | some found =>
                obtain ⟨field, behind, hbehind⟩ := found
                simp only [Option.map_some, Option.bind_some, toOption_bind, extend?]
                cases (extend last least (.member left field lexeme.position) behind).toOption <;>
                  rfl

end Equations

section Lengths

variable {last : Position} {least : Nat} {left expr : Expr} {lexemes rest : List Lexeme}

theorem operand?_shorter (h : operand? last lexemes = some (expr, rest)) :
    rest.length < lexemes.length := by
  obtain ⟨parsed, -, hparsed⟩ := Option.map_eq_some_iff.mp h
  cases hparsed
  exact parsed.shorter

private theorem read?_shorter (h : read? last least lexemes = some (expr, rest)) :
    rest.length < lexemes.length := by
  obtain ⟨parsed, -, hparsed⟩ := Option.map_eq_some_iff.mp h
  cases hparsed
  exact parsed.shorter

private theorem field?_shorter {field : String} (h : field? lexemes = some (field, rest)) :
    rest.length < lexemes.length := by
  rw [← field?_eq] at h
  obtain ⟨⟨name, behind⟩, -, hfound⟩ := Option.map_eq_some_iff.mp h
  cases hfound
  exact behind.property

theorem side?_shorter {link : Link} {join : Expr → Expr}
    (h : side? last link lexemes join = some (expr, rest)) : rest.length < lexemes.length := by
  obtain ⟨⟨right, found⟩, hright, hfound⟩ := Option.map_eq_some_iff.mp h
  cases hfound
  exact read?_shorter hright

theorem joined?_shorter {lexeme : Lexeme} {behind : List Lexeme} {link : Link}
    (h : joined? last left lexeme rest link = some (expr, behind)) :
    behind.length ≤ rest.length := by
  match link with
  | .sign .call =>
      simp only [joined?] at h
      exact Nat.le_of_lt_succ (side?_shorter h)
  | .sign .sequence | .sign .assign | .sign .comma | .sign .plus | .sign .minus | .sign .star
  | .pipe =>
      simp only [joined?] at h
      exact Nat.le_of_lt (side?_shorter h)
  | .dot =>
      rw [joined?] at h
      split at h
      · rename_i field found hfield
        cases h
        exact Nat.le_of_lt (field?_shorter hfield)
      · exact Nat.le_of_lt (side?_shorter h)

end Lengths

section Behind

-- The first of these lexemes, if it makes a link, is left to a sign of less power.
def Weaker (power : Nat) (behind : List Lexeme) : Prop :=
  ∀ lexeme ∈ behind.head?, ∀ link ∈ Link.ofWord? lexeme.word, link.leftPower < power

theorem weaker_nil (power : Nat) : Weaker power [] := by
  intro lexeme hlexeme
  contradiction

theorem weaker_cons_of_none {power : Nat} {lexeme : Lexeme} {rest : List Lexeme}
    (h : Link.ofWord? lexeme.word = none) : Weaker power (lexeme :: rest) := by
  rintro found hfound link hlink
  cases hfound
  rw [h] at hlink
  contradiction

theorem weaker_cons_iff {power : Nat} {lexeme : Lexeme} {rest : List Lexeme} {link : Link}
    (h : Link.ofWord? lexeme.word = some link) :
    Weaker power (lexeme :: rest) ↔ link.leftPower < power := by
  simp [Weaker, h]

theorem Weaker.mono {power least : Nat} {behind : List Lexeme} (h : Weaker power behind)
    (hle : power ≤ least) : Weaker least behind := by
  intro lexeme hlexeme link hlink
  exact Nat.lt_of_lt_of_le (h lexeme hlexeme link hlink) hle

theorem Weaker.extend?_eq {last : Position} {least : Nat} {left : Expr} {behind : List Lexeme}
    (h : Weaker least behind) :
    extend? last least left behind = some (left, behind) := by
  match behind with
  | [] => exact extend?_nil
  | lexeme :: rest =>
      rw [extend?_cons]
      cases hlink : Link.ofWord? lexeme.word with
      | none => rfl
      | some link => exact if_pos ((weaker_cons_iff hlink).mp h)

-- Nothing that an operand of a sign could take.
def Stops (behind : List Lexeme) : Prop :=
  ∀ lexeme ∈ behind.head?, ∀ link ∈ Link.ofWord? lexeme.word, link.leftPower < 2

theorem stops_iff_weaker {behind : List Lexeme} : Stops behind ↔ Weaker 2 behind := Iff.rfl

theorem stops_closing (bracket : Bracket) (place : Position) (rest : List Lexeme) :
    Stops (⟨.mark (.closing bracket), place⟩ :: rest) :=
  stops_iff_weaker.mpr (weaker_cons_of_none rfl)

theorem stops_semicolon (place : Position) (rest : List Lexeme) :
    Stops (⟨.mark .semicolon, place⟩ :: rest) :=
  stops_iff_weaker.mpr ((weaker_cons_iff rfl).mpr (by decide))

variable {last : Position} {behind : List Lexeme}

theorem Stops.extend?_eq {least : Nat} (h : Stops behind) (hleast : 2 ≤ least) (left : Expr) :
    extend? last least left behind = some (left, behind) :=
  ((stops_iff_weaker.mp h).mono hleast).extend?_eq

-- What was read goes on with what stands behind it only if nothing was left.
def resume (last : Position) (least : Nat) (found : Expr × List Lexeme) (behind : List Lexeme) :
    Option (Expr × List Lexeme) :=
  if found.2 = [] then extend? last least found.1 behind else some (found.1, found.2 ++ behind)

theorem Stops.resume_eq {least : Nat} (h : Stops behind) (hleast : 2 ≤ least)
    (found : Expr × List Lexeme) :
    resume last least found behind = some (found.1, found.2 ++ behind) := by
  unfold resume
  split
  · rename_i hnil
    rw [h.extend?_eq hleast, hnil, List.nil_append]
  · rfl

theorem two_le_rightPower (link : Link) : 2 ≤ link.rightPower := by
  match link with
  | .pipe | .dot => decide
  | .sign operator => cases operator <;> decide

theorem closer?_append {bracket : Bracket} {lexemes : List Lexeme}
    {found : Position × List Lexeme} (h : closer? bracket lexemes = some found) :
    closer? bracket (lexemes ++ behind) = some (found.1, found.2 ++ behind) := by
  match lexemes with
  | [] => contradiction
  | lexeme :: rest =>
      simp only [closer?, List.cons_append] at h ⊢
      split at h
      · rename_i hword
        cases h
        exact if_pos hword
      · contradiction

theorem field?_append {lexemes rest : List Lexeme} {field : String}
    (h : field? lexemes = some (field, rest)) :
    field? (lexemes ++ behind) = some (field, rest ++ behind) := by
  match lexemes with
  | [] | ⟨.number _, _⟩ :: _ | ⟨.mark _, _⟩ :: _ => contradiction
  | ⟨.name text, place⟩ :: rest =>
      simp only [field?, List.cons_append] at h ⊢
      split at h
      · rename_i hname
        cases h
        exact if_pos hname
      · contradiction

theorem field?_append_of_none {lexemes : List Lexeme} (hlexemes : lexemes ≠ [])
    (h : field? lexemes = none) : field? (lexemes ++ behind) = none := by
  match lexemes with
  | [] => contradiction
  | ⟨.number _, _⟩ :: _ | ⟨.mark _, _⟩ :: _ => rfl
  | ⟨.name text, place⟩ :: rest =>
      simp only [field?, List.cons_append] at h ⊢
      split at h
      · contradiction
      · rename_i hname
        exact if_neg hname

mutual

theorem operand?_append (hstops : Stops behind) (lexemes : List Lexeme)
    {found : Expr × List Lexeme} (h : operand? last lexemes = some found) :
    operand? last (lexemes ++ behind) = some (found.1, found.2 ++ behind) := by
  match lexemes with
  | [] => rw [operand?_nil] at h; contradiction
  | ⟨word, place⟩ :: rest =>
      rw [operand?_cons] at h
      rw [List.cons_append, operand?_cons]
      match word with
      | .number text =>
          cases h
          rfl
      | .name text =>
          cases h
          rfl
      | .mark .minus =>
          obtain ⟨inner, hinner, rfl⟩ := Option.map_eq_some_iff.mp h
          have hread := read?_append hstops negatePower rest hinner
          rw [hstops.resume_eq (by decide)] at hread
          simp only [hread, Option.map_some]
      | .mark (.opening bracket) =>
          obtain ⟨inner, hinner, h⟩ := Option.bind_eq_some_iff.mp h
          obtain ⟨closed, hclosed, rfl⟩ := Option.map_eq_some_iff.mp h
          have hread := read?_append hstops 0 rest hinner
          have hleft : inner.2 ≠ [] := by
            intro hnil
            rw [hnil] at hclosed
            contradiction
          rw [resume, if_neg hleft] at hread
          simp only [hread, Option.bind_some, closer?_append hclosed, Option.map_some]
      | .mark .assign | .mark .pipe | .mark .plus | .mark .star | .mark .comma | .mark .dot
      | .mark .semicolon | .mark (.closing _) => contradiction
termination_by 4 * lexemes.length

theorem read?_append (hstops : Stops behind) (least : Nat) (lexemes : List Lexeme)
    {found : Expr × List Lexeme} (h : read? last least lexemes = some found) :
    read? last least (lexemes ++ behind) = resume last least found behind := by
  rw [read?_eq] at h ⊢
  obtain ⟨⟨operand, rest⟩, hoperand, h⟩ := Option.bind_eq_some_iff.mp h
  have hshorter := operand?_shorter hoperand
  rw [operand?_append hstops lexemes hoperand]
  exact extend?_append hstops least operand rest h
termination_by 4 * lexemes.length + 1

theorem side?_append (hstops : Stops behind) (link : Link) (lexemes : List Lexeme)
    (join : Expr → Expr) {found : Expr × List Lexeme}
    (h : side? last link lexemes join = some found) :
    side? last link (lexemes ++ behind) join = some (found.1, found.2 ++ behind) := by
  obtain ⟨right, hright, rfl⟩ := Option.map_eq_some_iff.mp h
  have hread := read?_append hstops link.rightPower lexemes hright
  rw [hstops.resume_eq (two_le_rightPower link)] at hread
  rw [side?, hread, Option.map_some]
termination_by 4 * lexemes.length + 2

theorem extend?_append (hstops : Stops behind) (least : Nat) (left : Expr) (lexemes : List Lexeme)
    {found : Expr × List Lexeme} (h : extend? last least left lexemes = some found) :
    extend? last least left (lexemes ++ behind) = resume last least found behind := by
  match lexemes with
  | [] =>
      rw [extend?_nil] at h
      cases h
      rfl
  | lexeme :: rest =>
      rw [extend?_cons] at h
      rw [List.cons_append, extend?_cons]
      cases hlink : Link.ofWord? lexeme.word with
      | none =>
          rw [hlink] at h
          cases h
          rfl
      | some link =>
          simp only [hlink] at h ⊢
          split at h
          · rename_i hpower
            cases h
            rw [if_pos hpower]
            rfl
          · rename_i hpower
            obtain ⟨⟨joined, after⟩, hjoined, h⟩ := Option.bind_eq_some_iff.mp h
            have hshorter := joined?_shorter hjoined
            have hlonger : joined? last left lexeme (rest ++ behind) link =
                some (joined, after ++ behind) := by
              match link with
              | .sign .call =>
                  simp only [joined?] at hjoined ⊢
                  exact side?_append hstops _ (lexeme :: rest) _ hjoined
              | .sign .sequence | .sign .assign | .sign .comma | .sign .plus | .sign .minus
              | .sign .star | .pipe =>
                  simp only [joined?] at hjoined ⊢
                  exact side?_append hstops _ rest _ hjoined
              | .dot =>
                  rw [joined?] at hjoined ⊢
                  split at hjoined
                  · rename_i field found hfield
                    cases hjoined
                    rw [field?_append hfield]
                  · rename_i hfield
                    have hrest : rest ≠ [] := by
                      rintro rfl
                      exact Nat.not_lt_zero _ (side?_shorter hjoined)
                    rw [field?_append_of_none hrest hfield]
                    exact side?_append hstops _ rest _ hjoined
            rw [if_neg hpower, hlonger]
            exact extend?_append hstops least joined after h
termination_by 4 * lexemes.length + 3

end

end Behind

end Expr

-- Without its place.
def Lexeme.unlocated (lexeme : Lexeme) : Lexeme := ⟨lexeme.word, .start⟩

namespace Expr

def unlocated : Expr → Expr
  | .number text _ => .number text .start
  | .name text _ => .name text .start
  | .negate operand _ => .negate operand.unlocated .start
  | .binary operator left right _ => .binary operator left.unlocated right.unlocated .start
  | .pipe value callee _ => .pipe value.unlocated callee.unlocated .start
  | .pipeWith value callee argument _ =>
      .pipeWith value.unlocated callee.unlocated argument.unlocated .start
  | .member subject field _ => .member subject.unlocated field .start
  | .bracketed bracket inner _ _ => .bracketed bracket inner.unlocated .start .start

section Unlocated

variable {last : Position}

-- What was read, without places.
def forget (found : Expr × List Lexeme) : Expr × List Lexeme :=
  (found.1.unlocated, found.2.map Lexeme.unlocated)

theorem unlocated_applied (callee argument : Expr) (position : Position) :
    (applied callee argument position).unlocated =
      applied callee.unlocated argument.unlocated .start := by
  cases callee <;> rfl

theorem closer?_unlocated (bracket : Bracket) (lexemes : List Lexeme) :
    closer? bracket (lexemes.map Lexeme.unlocated) =
      (closer? bracket lexemes).map fun found => (.start, found.2.map Lexeme.unlocated) := by
  match lexemes with
  | [] => rfl
  | lexeme :: rest =>
      have hword : lexeme.unlocated.word = lexeme.word := rfl
      simp only [closer?, List.map_cons, hword]
      split <;> rfl

theorem field?_unlocated (lexemes : List Lexeme) :
    field? (lexemes.map Lexeme.unlocated) =
      (field? lexemes).map fun found => (found.1, found.2.map Lexeme.unlocated) := by
  match lexemes with
  | [] | ⟨.number _, _⟩ :: _ | ⟨.mark _, _⟩ :: _ => rfl
  | ⟨.name text, place⟩ :: rest =>
      simp only [field?, List.map_cons, Lexeme.unlocated]
      split <;> rfl

mutual

theorem operand?_unlocated (lexemes : List Lexeme) :
    operand? .start (lexemes.map Lexeme.unlocated) = (operand? last lexemes).map forget := by
  match lexemes with
  | [] => simp
  | ⟨word, place⟩ :: rest =>
      rw [List.map_cons, operand?_cons, operand?_cons]
      match word with
      | .number text => rfl
      | .name text => rfl
      | .mark .minus =>
          simp only [Lexeme.unlocated, read?_unlocated negatePower rest, Option.map_map]
          rfl
      | .mark (.opening bracket) =>
          simp only [Lexeme.unlocated, read?_unlocated 0 rest]
          cases read? last 0 rest with
          | none => rfl
          | some inner =>
              simp only [Option.map_some, Option.bind_some, forget, closer?_unlocated,
                Option.map_map]
              rfl
      | .mark .assign | .mark .pipe | .mark .plus | .mark .star | .mark .comma | .mark .dot
      | .mark .semicolon | .mark (.closing _) => rfl
termination_by 4 * lexemes.length

theorem read?_unlocated (least : Nat) (lexemes : List Lexeme) :
    read? .start least (lexemes.map Lexeme.unlocated) = (read? last least lexemes).map forget := by
  rw [read?_eq, read?_eq, operand?_unlocated lexemes]
  cases hoperand : operand? last lexemes with
  | none => rfl
  | some found =>
      obtain ⟨operand, rest⟩ := found
      have hshorter := operand?_shorter hoperand
      exact extend?_unlocated least operand rest
termination_by 4 * lexemes.length + 1

theorem side?_unlocated (link : Link) (lexemes : List Lexeme) {join joinUnlocated : Expr → Expr}
    (hjoin : ∀ right, (join right).unlocated = joinUnlocated right.unlocated) :
    side? .start link (lexemes.map Lexeme.unlocated) joinUnlocated =
      (side? last link lexemes join).map forget := by
  rw [side?, side?, read?_unlocated link.rightPower lexemes]
  cases read? last link.rightPower lexemes with
  | none => rfl
  | some found => simp only [Option.map_some, forget, hjoin]
termination_by 4 * lexemes.length + 2

theorem extend?_unlocated (least : Nat) (left : Expr) (lexemes : List Lexeme) :
    extend? .start least left.unlocated (lexemes.map Lexeme.unlocated) =
      (extend? last least left lexemes).map forget := by
  match lexemes with
  | [] => simp [forget]
  | lexeme :: rest =>
      have hword : lexeme.unlocated.word = lexeme.word := rfl
      rw [List.map_cons, extend?_cons, extend?_cons, hword]
      cases Link.ofWord? lexeme.word with
      | none => rfl
      | some link =>
          dsimp only
          split
          · rfl
          · have hjoined : joined? .start left.unlocated lexeme.unlocated
                (rest.map Lexeme.unlocated) link =
                  (joined? last left lexeme rest link).map forget := by
              match link with
              | .sign .call =>
                  simp only [joined?]
                  exact side?_unlocated _ (lexeme :: rest) fun _ => unlocated_applied _ _ _
              | .sign .sequence | .sign .assign | .sign .comma | .sign .plus | .sign .minus
              | .sign .star | .pipe =>
                  simp only [joined?]
                  exact side?_unlocated _ rest fun _ => rfl
              | .dot =>
                  simp only [joined?, field?_unlocated]
                  cases field? rest with
                  | none => exact side?_unlocated _ rest fun _ => rfl
                  | some found => rfl
            rw [hjoined]
            cases hfound : joined? last left lexeme rest link with
            | none => rfl
            | some found =>
                obtain ⟨joined, after⟩ := found
                have hshorter := joined?_shorter hfound
                exact extend?_unlocated least joined after
termination_by 4 * lexemes.length + 3

end

end Unlocated

end Expr

end Sluice

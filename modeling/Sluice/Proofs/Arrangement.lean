import Mathlib
import Sluice.Proofs.Phrases

namespace Sluice

-- The signs that stand between two operands.
inductive Sign
  | sequence
  | assign
  | comma
  | plus
  | minus
  | star
  | pipe
  | dot
deriving DecidableEq, Repr

namespace Sign

def mark : Sign → Mark
  | .sequence => .semicolon
  | .assign => .assign
  | .comma => .comma
  | .plus => .plus
  | .minus => .minus
  | .star => .star
  | .pipe => .pipe
  | .dot => .dot

def link : Sign → Expr.Link
  | .sequence => .sign .sequence
  | .assign => .sign .assign
  | .comma => .sign .comma
  | .plus => .sign .plus
  | .minus => .sign .minus
  | .star => .sign .star
  | .pipe => .pipe
  | .dot => .dot

-- The expression that a sign makes of its operands.
def joined (sign : Sign) (left right : Expr) (position : Position) : Expr :=
  match sign.link with
  | .sign operator => .binary operator left right position
  | .pipe | .dot => .pipe left right position

@[simp] theorem ofWord?_mark (sign : Sign) : Expr.Link.ofWord? (.mark sign.mark) = some sign.link := by
  cases sign <;> rfl

theorem mark_inj {sign other : Sign} (h : sign.mark = other.mark) : sign = other := by
  cases sign <;> cases other <;> simp_all [mark]

end Sign

-- A number, a name or an opening bracket.
def Word.begins : Word → Bool
  | .number _ | .name _ | .mark (.opening _) => true
  | .mark _ => false

-- A member name. Right behind a dot it is no callee.
def Word.isMember : Word → Bool
  | .name text => Expr.isMemberName text
  | _ => false

theorem Word.ofWord?_of_begins {word : Word} (h : word.begins = true) :
    Expr.Link.ofWord? word = some (.sign .call) := by
  match word with
  | .number _ | .name _ | .mark (.opening _) => rfl
  | .mark .assign | .mark .pipe | .mark .plus | .mark .minus | .mark .star | .mark .comma
  | .mark .dot | .mark .semicolon | .mark (.closing _) => contradiction

-- A link is a sign, or the beginning of an argument.
theorem Word.link_cases {word : Word} {link : Expr.Link} (h : Expr.Link.ofWord? word = some link) :
    (∃ sign : Sign, word = .mark sign.mark ∧ link = sign.link) ∨
      word.begins = true ∧ link = .sign .call := by
  match word with
  | .number _ | .name _ | .mark (.opening _) =>
      cases h
      exact .inr ⟨rfl, rfl⟩
  | .mark .semicolon => cases h; exact .inl ⟨.sequence, rfl, rfl⟩
  | .mark .assign => cases h; exact .inl ⟨.assign, rfl, rfl⟩
  | .mark .comma => cases h; exact .inl ⟨.comma, rfl, rfl⟩
  | .mark .plus => cases h; exact .inl ⟨.plus, rfl, rfl⟩
  | .mark .minus => cases h; exact .inl ⟨.minus, rfl, rfl⟩
  | .mark .star => cases h; exact .inl ⟨.star, rfl, rfl⟩
  | .mark .pipe => cases h; exact .inl ⟨.pipe, rfl, rfl⟩
  | .mark .dot => cases h; exact .inl ⟨.dot, rfl, rfl⟩
  | .mark (.closing _) => contradiction

-- A tree over lexemes. Juxtaposition has no lexeme of its own, and a member name belongs to the dot
-- in front of it.
inductive Arrangement
  | number (text : String) (position : Position)
  | name (text : String) (position : Position)
  | negated (position : Position) (operand : Arrangement)
  | linked (sign : Sign) (position : Position) (left right : Arrangement)
  | juxtaposed (left right : Arrangement)
  | member (subject : Arrangement) (dot : Position) (field : String) (position : Position)
      (isMember : Expr.isMemberName field = true)
  | bracketed (bracket : Bracket) (opened closed : Position) (inner : Arrangement)
deriving DecidableEq

namespace Arrangement

-- The leaves, from left to right.
def lexemes : Arrangement → List Lexeme
  | .number text position => [⟨.number text, position⟩]
  | .name text position => [⟨.name text, position⟩]
  | .negated position operand => ⟨.mark .minus, position⟩ :: operand.lexemes
  | .linked sign position left right => left.lexemes ++ ⟨.mark sign.mark, position⟩ :: right.lexemes
  | .juxtaposed left right => left.lexemes ++ right.lexemes
  | .member subject dot field position _ =>
      subject.lexemes ++ [⟨.mark .dot, dot⟩, ⟨.name field, position⟩]
  | .bracketed bracket opened closed inner =>
      ⟨.mark (.opening bracket), opened⟩ :: (inner.lexemes ++ [⟨.mark (.closing bracket), closed⟩])

def first : Arrangement → Lexeme
  | .number text position => ⟨.number text, position⟩
  | .name text position => ⟨.name text, position⟩
  | .negated position _ => ⟨.mark .minus, position⟩
  | .linked _ _ left _ => left.first
  | .juxtaposed left _ => left.first
  | .member subject _ _ _ _ => subject.first
  | .bracketed bracket opened _ _ => ⟨.mark (.opening bracket), opened⟩

-- The left powers along the left edge: of the links that could be cut off from the left end.
def leftPowers : Arrangement → List Nat
  | .number _ _ | .name _ _ | .negated _ _ | .bracketed _ _ _ _ => []
  | .linked sign _ left _ => sign.link.leftPower :: left.leftPowers
  | .juxtaposed left _ => (Expr.Link.sign .call).leftPower :: left.leftPowers
  | .member subject _ _ _ _ => Expr.Link.dot.leftPower :: subject.leftPowers

-- The right powers along the right edge.
def rightPowers : Arrangement → List Nat
  | .number _ _ | .name _ _ | .member _ _ _ _ _ | .bracketed _ _ _ _ => []
  | .negated _ operand => Expr.negatePower :: operand.rightPowers
  | .linked sign _ _ right => sign.link.rightPower :: right.rightPowers
  | .juxtaposed _ right => (Expr.Link.sign .call).rightPower :: right.rightPowers

-- A link between its operands. What ends the left one takes more than the link gives way to, and what
-- begins the right one is strong enough for the link to take.
structure Binds (link : Expr.Link) (left right : Arrangement) : Prop where
  left : ∀ power ∈ left.rightPowers, link.leftPower < power
  right : ∀ power ∈ right.leftPowers, link.rightPower ≤ power

-- Every sign keeps to its powers. A member name behind a dot is always the field, and an argument
-- does not begin with a minus sign.
def Prescribed : Arrangement → Prop
  | .number _ _ | .name _ _ => True
  | .negated _ operand =>
      operand.Prescribed ∧ ∀ power ∈ operand.leftPowers, Expr.negatePower ≤ power
  | .linked sign _ left right =>
      left.Prescribed ∧ right.Prescribed ∧ Binds sign.link left right ∧
        (sign = .dot → right.first.word.isMember = false)
  | .juxtaposed left right =>
      left.Prescribed ∧ right.Prescribed ∧ Binds (.sign .call) left right ∧
        right.first.word ≠ .mark .minus
  | .member subject _ _ _ _ =>
      subject.Prescribed ∧ ∀ power ∈ subject.rightPowers, Expr.Link.dot.leftPower < power
  | .bracketed _ _ _ inner => inner.Prescribed

instance (link : Expr.Link) (left right : Arrangement) : Decidable (Binds link left right) :=
  decidable_of_iff ((∀ power ∈ left.rightPowers, link.leftPower < power) ∧
      ∀ power ∈ right.leftPowers, link.rightPower ≤ power)
    ⟨fun h => ⟨h.1, h.2⟩, fun h => ⟨h.left, h.right⟩⟩

instance decidablePrescribed : (tree : Arrangement) → Decidable tree.Prescribed
  | .number _ _ | .name _ _ => .isTrue trivial
  | .negated _ operand =>
      have := decidablePrescribed operand
      inferInstanceAs (Decidable (operand.Prescribed ∧ _))
  | .linked _ _ left right =>
      have := decidablePrescribed left
      have := decidablePrescribed right
      inferInstanceAs (Decidable (left.Prescribed ∧ right.Prescribed ∧ _))
  | .juxtaposed left right =>
      have := decidablePrescribed left
      have := decidablePrescribed right
      inferInstanceAs (Decidable (left.Prescribed ∧ right.Prescribed ∧ _))
  | .member subject _ _ _ _ =>
      have := decidablePrescribed subject
      inferInstanceAs (Decidable (subject.Prescribed ∧ _))
  | .bracketed _ _ _ inner => decidablePrescribed inner

-- An argument goes to the pipe or the dot that stands directly on its left.
def expr : Arrangement → Expr
  | .number text position => .number text position
  | .name text position => .name text position
  | .negated position operand => .negate operand.expr position
  | .linked sign position left right => sign.joined left.expr right.expr position
  | .juxtaposed (.linked .pipe position value callee) right
  | .juxtaposed (.linked .dot position value callee) right =>
      .pipeWith value.expr callee.expr right.expr position
  | .juxtaposed left right => .binary .call left.expr right.expr right.first.position
  | .member subject dot field _ _ => .member subject.expr field dot
  | .bracketed bracket opened closed inner => .bracketed bracket inner.expr opened closed

theorem applied_applied (callee argument other : Expr) (position place : Position) :
    Expr.applied (Expr.applied callee argument position) other place =
      .binary .call (Expr.applied callee argument position) other place := by
  cases callee <;> rfl

theorem expr_juxtaposed (left right : Arrangement) :
    (juxtaposed left right).expr = Expr.applied left.expr right.expr right.first.position := by
  match left with
  | .number _ _ | .name _ _ | .negated _ _ | .member _ _ _ _ _ | .bracketed _ _ _ _
  | .linked .sequence _ _ _ | .linked .assign _ _ _ | .linked .comma _ _ _ | .linked .plus _ _ _
  | .linked .minus _ _ _ | .linked .star _ _ _ | .linked .pipe _ _ _ | .linked .dot _ _ _ =>
      simp [expr, Expr.applied, Sign.joined, Sign.link]
  | .juxtaposed callee argument =>
      rw [expr, expr_juxtaposed callee argument, applied_applied]
      all_goals rintro _ _ _ ⟨⟩

theorem expr_juxtaposed_eq_pipeWith_iff (left right : Arrangement) :
    (∃ value callee argument place,
      (juxtaposed left right).expr = .pipeWith value callee argument place) ↔
    ∃ sign place value callee, left = linked sign place value callee ∧
      (sign = .pipe ∨ sign = .dot) := by
  constructor
  · rintro ⟨value, callee, argument, place, h⟩
    match left with
    | .linked .pipe place value callee => exact ⟨.pipe, place, value, callee, rfl, .inl rfl⟩
    | .linked .dot place value callee => exact ⟨.dot, place, value, callee, rfl, .inr rfl⟩
    | .number _ _ | .name _ _ | .negated _ _ | .member _ _ _ _ _ | .bracketed _ _ _ _
    | .linked .sequence _ _ _ | .linked .assign _ _ _ | .linked .comma _ _ _ | .linked .plus _ _ _
    | .linked .minus _ _ _ | .linked .star _ _ _ => contradiction
    | .juxtaposed callee argument =>
        rw [expr_juxtaposed, expr_juxtaposed, applied_applied] at h
        contradiction
  · rintro ⟨sign, place, value, callee, rfl, rfl | rfl⟩
    · exact ⟨_, _, _, _, rfl⟩
    · exact ⟨_, _, _, _, rfl⟩

-- The postfix form: a sign behind its operands. The call of a pipe stands behind the argument of the
-- pipe, and directly behind the pipe if it has none.
def tokens : Arrangement → List Token
  | .number text position => [⟨.number, .nullary, text, position⟩]
  | .name text position => [⟨.name, .nullary, text, position⟩]
  | .negated position operand => operand.tokens ++ [⟨.minus, .rightUnary, "-", position⟩]
  | .linked sign position left right =>
      left.tokens ++ right.tokens ++
        match sign.link with
        | .sign operator => [⟨Expr.tokenKind operator, .binary, "", position⟩]
        | .pipe | .dot => [⟨.pipe, .binary, "|>", position⟩, ⟨.call, .leftUnary, "", position⟩]
  | .juxtaposed (.linked .pipe position value callee) right
  | .juxtaposed (.linked .dot position value callee) right =>
      value.tokens ++ callee.tokens ++ [⟨.pipe, .binary, "|>", position⟩] ++ right.tokens ++
        [⟨.call, .binary, "", position⟩]
  | .juxtaposed left right =>
      left.tokens ++ right.tokens ++ [⟨.call, .binary, "", right.first.position⟩]
  | .member subject dot field _ _ =>
      subject.tokens ++ [⟨.name, .nullary, field, dot⟩, ⟨.member, .binary, ".", dot⟩]
  | .bracketed .round opened _ inner => inner.tokens ++ [⟨.group, .leftUnary, "()", opened⟩]
  | .bracketed .square opened _ inner => inner.tokens ++ [⟨.array, .leftUnary, "[]", opened⟩]
  | .bracketed .curly opened closed inner =>
      ⟨.blockBegin, .nullary, "\x7b", opened⟩ ::
        (inner.tokens ++ [⟨.blockEnd, .leftUnary, "\x7d", closed⟩])

theorem postfixTokens_expr (tree : Arrangement) : tree.expr.postfixTokens = tree.tokens := by
  fun_induction tokens tree with
  | case1 text position => rfl
  | case2 text position => rfl
  | case3 position operand ih => rw [expr, Expr.postfixTokens, ih]
  | case4 sign position left right ihleft ihright =>
      rw [expr, Sign.joined]
      cases sign.link with
      | sign operator => rw [Expr.postfixTokens, ihleft, ihright]
      | pipe => rw [Expr.postfixTokens, ihleft, ihright]
      | dot => rw [Expr.postfixTokens, ihleft, ihright]
  | case5 position value callee right ihvalue ihcallee ihright =>
      rw [expr, Expr.postfixTokens, ihvalue, ihcallee, ihright]
  | case6 position value callee right ihvalue ihcallee ihright =>
      rw [expr, Expr.postfixTokens, ihvalue, ihcallee, ihright]
  | case7 left right hpipe hdot ihleft ihright =>
      rw [expr, Expr.postfixTokens, ihleft, ihright]
      · rfl
      · exact hpipe
      · exact hdot
  | case8 subject dot field position hfield ih => rw [expr, Expr.postfixTokens, ih]
  | case9 opened closed inner ih => rw [expr, Expr.postfixTokens, ih]
  | case10 opened closed inner ih => rw [expr, Expr.postfixTokens, ih]
  | case11 opened closed inner ih => rw [expr, Expr.postfixTokens, ih]

theorem exists_lexemes_eq (tree : Arrangement) : ∃ rest, tree.lexemes = tree.first :: rest := by
  induction tree with
  | number text position => exact ⟨[], rfl⟩
  | name text position => exact ⟨[], rfl⟩
  | negated position operand => exact ⟨_, rfl⟩
  | linked sign position left right ihleft =>
      obtain ⟨rest, hrest⟩ := ihleft
      exact ⟨_, congrArg (· ++ _) hrest⟩
  | juxtaposed left right ihleft =>
      obtain ⟨rest, hrest⟩ := ihleft
      exact ⟨_, congrArg (· ++ _) hrest⟩
  | member subject dot field position hfield ih =>
      obtain ⟨rest, hrest⟩ := ih
      exact ⟨_, congrArg (· ++ _) hrest⟩
  | bracketed bracket opened closed inner => exact ⟨_, rfl⟩

theorem begins_first {tree : Arrangement} (h : tree.first.word ≠ .mark .minus) :
    tree.first.word.begins = true := by
  induction tree with
  | number text position => rfl
  | name text position => rfl
  | negated position operand => contradiction
  | linked sign position left right ihleft => exact ihleft h
  | juxtaposed left right ihleft => exact ihleft h
  | member subject dot field position hfield ih => exact ih h
  | bracketed bracket opened closed inner => rfl

end Arrangement

namespace Expr

section Joined

variable {last : Position} {left : Expr}

theorem field?_eq_none_iff {lexeme : Lexeme} {rest : List Lexeme} :
    field? (lexeme :: rest) = none ↔ lexeme.word.isMember = false := by
  obtain ⟨word, place⟩ := lexeme
  cases word with
  | name text => simp [field?, Word.isMember]
  | number text => exact ⟨fun _ => rfl, fun _ => rfl⟩
  | mark sign => exact ⟨fun _ => rfl, fun _ => rfl⟩

theorem joined?_sign {sign : Sign} {lexeme : Lexeme} {rest : List Lexeme}
    (h : sign = .dot → field? rest = none) :
    joined? last left lexeme rest sign.link =
      side? last sign.link rest (sign.joined left · lexeme.position) := by
  cases sign with
  | dot =>
      simp only [Sign.link, joined?, h rfl]
      rfl
  | _ => rfl

end Joined

-- The parser reads the leaves of an arrangement as one operand of any sign that the arrangement is
-- strong enough for, if what comes behind them is not for the arrangement to take.
theorem read?_lexemes {last : Position} {tree : Arrangement} (h : tree.Prescribed) {least : Nat}
    (hleast : ∀ power ∈ tree.leftPowers, least ≤ power) {rest : List Lexeme}
    (hrest : ∀ power ∈ tree.rightPowers, Weaker power rest) :
    read? last least (tree.lexemes ++ rest) = extend? last least tree.expr rest := by
  induction tree generalizing least rest with
  | number text position => rw [read?_eq, Arrangement.lexemes, List.singleton_append, operand?_cons]; rfl
  | name text position => rw [read?_eq, Arrangement.lexemes, List.singleton_append, operand?_cons]; rfl
  | negated position operand ih =>
      obtain ⟨hoperand, hpowers⟩ := h
      obtain ⟨hweaker, hrest⟩ := List.forall_mem_cons.mp hrest
      have hread := ih hoperand hpowers hrest
      rw [hweaker.extend?_eq] at hread
      rw [read?_eq, Arrangement.lexemes, List.cons_append, operand?_cons]
      simp only [hread, Option.map_some, Option.bind_some]
      rfl
  | linked sign position left right ihleft ihright =>
      obtain ⟨hleft, hright, hbinds, hmember⟩ := h
      obtain ⟨hpower, hleast⟩ := List.forall_mem_cons.mp hleast
      obtain ⟨hweaker, hrest⟩ := List.forall_mem_cons.mp hrest
      have hside := ihright hright hbinds.right hrest
      rw [hweaker.extend?_eq] at hside
      have hfield : sign = .dot → field? (right.lexemes ++ rest) = none := by
        intro hdot
        obtain ⟨more, hmore⟩ := right.exists_lexemes_eq
        rw [hmore]
        exact field?_eq_none_iff.mpr (hmember hdot)
      have hlink := sign.ofWord?_mark
      have hnext : ∀ power ∈ left.rightPowers,
          Weaker power (⟨.mark sign.mark, position⟩ :: (right.lexemes ++ rest)) := fun power hmem =>
        (weaker_cons_iff hlink).mpr (hbinds.left power hmem)
      rw [Arrangement.lexemes, List.append_assoc, List.cons_append, ihleft hleft hleast hnext,
        extend?_cons]
      simp only [hlink, if_neg (Nat.not_lt_of_le hpower), joined?_sign hfield, side?, hside,
        Option.map_some, Option.bind_some]
      rfl
  | juxtaposed left right ihleft ihright =>
      obtain ⟨hleft, hright, hbinds, hminus⟩ := h
      obtain ⟨hpower, hleast⟩ := List.forall_mem_cons.mp hleast
      obtain ⟨hweaker, hrest⟩ := List.forall_mem_cons.mp hrest
      have hside := ihright hright hbinds.right hrest
      rw [hweaker.extend?_eq] at hside
      obtain ⟨more, hmore⟩ := right.exists_lexemes_eq
      have hlink := Word.ofWord?_of_begins (Arrangement.begins_first hminus)
      rw [hmore, List.cons_append] at hside
      have hnext : ∀ power ∈ left.rightPowers, Weaker power (right.first :: (more ++ rest)) :=
        fun power hmem => (weaker_cons_iff hlink).mpr (hbinds.left power hmem)
      rw [Arrangement.lexemes, List.append_assoc, hmore, List.cons_append,
        ihleft hleft hleast hnext, extend?_cons]
      simp only [hlink, if_neg (Nat.not_lt_of_le hpower), joined?, side?, hside, Option.map_some,
        Option.bind_some, Arrangement.expr_juxtaposed]
  | member subject dot field position hfield ih =>
      obtain ⟨hsubject, hpowers⟩ := h
      obtain ⟨hpower, hleast⟩ := List.forall_mem_cons.mp hleast
      have hlink : Link.ofWord? (.mark .dot) = some .dot := rfl
      have hnext : ∀ power ∈ subject.rightPowers,
          Weaker power (⟨.mark .dot, dot⟩ :: ⟨.name field, position⟩ :: rest) := fun power hmem =>
        (weaker_cons_iff hlink).mpr (hpowers power hmem)
      rw [Arrangement.lexemes, List.append_assoc, List.cons_append, List.singleton_append,
        ih hsubject hleast hnext, extend?_cons]
      simp only [hlink, if_neg (Nat.not_lt_of_le hpower), joined?, field?, if_pos hfield,
        Option.bind_some]
      rfl
  | bracketed bracket opened closed inner ih =>
      have hclosing : ∀ power, Weaker power (⟨.mark (.closing bracket), closed⟩ :: rest) :=
        fun power => weaker_cons_of_none rfl
      have hread := ih h (fun power _ => Nat.zero_le power) fun power _ => hclosing power
      rw [(hclosing 0).extend?_eq] at hread
      rw [read?_eq, Arrangement.lexemes, List.cons_append, List.append_assoc, operand?_cons]
      simp only [List.singleton_append, hread, Option.bind_some, closer?, if_true, Option.map_some]
      rfl

-- An expression with its arrangement, and what stands behind its leaves. Nothing on the right edge
-- could have taken more.
structure Arranged (tree : Arrangement) (expr : Expr) (lexemes rest : List Lexeme) : Prop where
  prescribed : tree.Prescribed
  expr : tree.expr = expr
  lexemes : tree.lexemes ++ rest = lexemes
  right : ∀ power ∈ tree.rightPowers, Weaker power rest

-- All links on the left edge, and none behind, are strong enough for `least`.
structure Complete (tree : Arrangement) (least : Nat) (rest : List Lexeme) : Prop where
  left : ∀ power ∈ tree.leftPowers, least ≤ power
  rest : Weaker least rest

section Arranged

variable {last : Position}

theorem closer?_eq_some {bracket : Bracket} {lexemes rest : List Lexeme} {closed : Position}
    (h : closer? bracket lexemes = some (closed, rest)) :
    lexemes = ⟨.mark (.closing bracket), closed⟩ :: rest := by
  match lexemes with
  | [] => contradiction
  | ⟨word, place⟩ :: behind =>
      simp only [closer?] at h
      split at h
      · rename_i hword
        cases h
        rw [hword]
      · contradiction

theorem field?_eq_some {lexemes rest : List Lexeme} {field : String}
    (h : field? lexemes = some (field, rest)) :
    isMemberName field = true ∧ ∃ place, lexemes = ⟨.name field, place⟩ :: rest := by
  match lexemes with
  | [] | ⟨.number _, _⟩ :: _ | ⟨.mark _, _⟩ :: _ => contradiction
  | ⟨.name text, place⟩ :: behind =>
      simp only [field?] at h
      split at h
      · rename_i hname
        cases h
        exact ⟨hname, place, rfl⟩
      · contradiction

-- A sign and its right operand behind a left one.
theorem Arranged.linked {left right : Arrangement} {sign : Sign} {leftExpr rightExpr : Expr}
    {position : Position} {lexemes behind rest : List Lexeme}
    (hleft : Arranged left leftExpr lexemes (⟨.mark sign.mark, position⟩ :: behind))
    (hright : Arranged right rightExpr behind rest) (hcomplete : Complete right sign.link.rightPower rest)
    (hmember : sign = .dot → right.first.word.isMember = false) :
    Arranged (.linked sign position left right) (sign.joined leftExpr rightExpr position)
      lexemes rest := by
  refine ⟨⟨hleft.prescribed, hright.prescribed, ⟨?_, hcomplete.left⟩, hmember⟩, ?_, ?_, ?_⟩
  · intro power hmem
    exact (weaker_cons_iff sign.ofWord?_mark).mp (hleft.right power hmem)
  · rw [Arrangement.expr, hleft.expr, hright.expr]
  · rw [Arrangement.lexemes, List.append_assoc, List.cons_append, hright.lexemes, hleft.lexemes]
  · exact List.forall_mem_cons.mpr ⟨hcomplete.rest, hright.right⟩

theorem Arranged.juxtaposed {left right : Arrangement} {leftExpr rightExpr : Expr}
    {lexeme : Lexeme} {lexemes behind rest : List Lexeme}
    (hleft : Arranged left leftExpr lexemes (lexeme :: behind)) (hbegins : lexeme.word.begins = true)
    (hright : Arranged right rightExpr (lexeme :: behind) rest)
    (hcomplete : Complete right (Link.sign .call).rightPower rest) :
    Arranged (.juxtaposed left right) (applied leftExpr rightExpr lexeme.position)
      lexemes rest := by
  obtain ⟨more, hmore⟩ := right.exists_lexemes_eq
  have hlexemes := hright.lexemes
  rw [hmore, List.cons_append] at hlexemes
  obtain ⟨hfirst, -⟩ := List.cons.inj hlexemes
  refine ⟨⟨hleft.prescribed, hright.prescribed, ⟨?_, hcomplete.left⟩, ?_⟩, ?_, ?_, ?_⟩
  · intro power hmem
    exact (weaker_cons_iff (Word.ofWord?_of_begins hbegins)).mp (hleft.right power hmem)
  · rw [hfirst]
    intro hminus
    rw [hminus] at hbegins
    contradiction
  · rw [Arrangement.expr_juxtaposed, hleft.expr, hright.expr, hfirst]
  · rw [Arrangement.lexemes, List.append_assoc, hright.lexemes, hleft.lexemes]
  · exact List.forall_mem_cons.mpr ⟨hcomplete.rest, hright.right⟩

theorem Arranged.member {subject : Arrangement} {expr : Expr} {dot place : Position} {field : String}
    {lexemes rest : List Lexeme}
    (h : Arranged subject expr lexemes (⟨.mark .dot, dot⟩ :: ⟨.name field, place⟩ :: rest))
    (hfield : isMemberName field = true) :
    Arranged (.member subject dot field place hfield) (.member expr field dot) lexemes rest := by
  refine ⟨⟨h.prescribed, ?_⟩, ?_, ?_, ?_⟩
  · intro power hmem
    have hlink : Link.ofWord? (.mark .dot) = some .dot := rfl
    exact (weaker_cons_iff hlink).mp (h.right power hmem)
  · rw [Arrangement.expr, h.expr]
  · rw [Arrangement.lexemes, List.append_assoc]
    exact h.lexemes
  · intro power hmem
    contradiction

mutual

private theorem arranged_of_operand? (lexemes : List Lexeme) {expr : Expr} {rest : List Lexeme}
    (h : operand? last lexemes = some (expr, rest)) :
    ∃ tree, Arranged tree expr lexemes rest ∧ tree.leftPowers = [] := by
  match lexemes with
  | [] =>
      rw [operand?_nil] at h
      contradiction
  | ⟨word, place⟩ :: behind =>
      rw [operand?_cons] at h
      match word with
      | .number text =>
          cases h
          exact ⟨.number text place, ⟨trivial, rfl, rfl, by rintro _ ⟨⟩⟩, rfl⟩
      | .name text =>
          cases h
          exact ⟨.name text place, ⟨trivial, rfl, rfl, by rintro _ ⟨⟩⟩, rfl⟩
      | .mark .minus =>
          obtain ⟨⟨operand, after⟩, hoperand, h⟩ := Option.map_eq_some_iff.mp h
          cases h
          obtain ⟨tree, htree, hcomplete⟩ := arranged_of_read? negatePower behind hoperand
          refine ⟨.negated place tree, ⟨⟨htree.prescribed, hcomplete.left⟩, ?_, ?_, ?_⟩, rfl⟩
          · rw [Arrangement.expr, htree.expr]
          · rw [Arrangement.lexemes, List.cons_append, htree.lexemes]
          · exact List.forall_mem_cons.mpr ⟨hcomplete.rest, htree.right⟩
      | .mark (.opening bracket) =>
          obtain ⟨⟨inner, after⟩, hinner, h⟩ := Option.bind_eq_some_iff.mp h
          obtain ⟨⟨closed, found⟩, hclosed, h⟩ := Option.map_eq_some_iff.mp h
          cases h
          obtain ⟨tree, htree, -⟩ := arranged_of_read? 0 behind hinner
          have hafter := closer?_eq_some hclosed
          refine ⟨.bracketed bracket place closed tree, ⟨htree.prescribed, ?_, ?_, ?_⟩, rfl⟩
          · rw [Arrangement.expr, htree.expr]
          · rw [Arrangement.lexemes, List.cons_append, List.append_assoc, List.singleton_append,
              ← hafter, htree.lexemes]
          · rintro _ ⟨⟩
      | .mark .assign | .mark .pipe | .mark .plus | .mark .star | .mark .comma | .mark .dot
      | .mark .semicolon | .mark (.closing _) => contradiction
termination_by 2 * lexemes.length

theorem arranged_of_read? (least : Nat) (lexemes : List Lexeme) {expr : Expr} {rest : List Lexeme}
    (h : read? last least lexemes = some (expr, rest)) :
    ∃ tree, Arranged tree expr lexemes rest ∧ Complete tree least rest := by
  rw [read?_eq] at h
  obtain ⟨⟨operand, behind⟩, hoperand, h⟩ := Option.bind_eq_some_iff.mp h
  have hshorter := operand?_shorter hoperand
  obtain ⟨left, hleft, hpowers⟩ := arranged_of_operand? lexemes hoperand
  refine arranged_of_extend? least behind hleft ?_ h
  rw [hpowers]
  rintro _ ⟨⟩
termination_by 2 * lexemes.length + 1

-- Every link that is taken makes the arrangement larger, and keeps it as prescribed.
theorem arranged_of_extend? (least : Nat) (lexemes : List Lexeme) {left : Arrangement}
    {leftExpr expr : Expr} {whole rest : List Lexeme} (hleft : Arranged left leftExpr whole lexemes)
    (hleast : ∀ power ∈ left.leftPowers, least ≤ power)
    (h : extend? last least leftExpr lexemes = some (expr, rest)) :
    ∃ tree, Arranged tree expr whole rest ∧ Complete tree least rest := by
  match lexemes with
  | [] =>
      rw [extend?_nil] at h
      cases h
      exact ⟨left, hleft, hleast, weaker_nil least⟩
  | ⟨word, place⟩ :: behind =>
      rw [extend?_cons] at h
      cases hlink : Link.ofWord? word with
      | none =>
          rw [hlink] at h
          cases h
          exact ⟨left, hleft, hleast, weaker_cons_of_none hlink⟩
      | some link =>
          simp only [hlink] at h
          split at h
          · rename_i hpower
            cases h
            exact ⟨left, hleft, hleast, (weaker_cons_iff hlink).mpr hpower⟩
          · rename_i hpower
            obtain ⟨⟨joined, after⟩, hjoined, hextend⟩ := Option.bind_eq_some_iff.mp h
            have hshorter := joined?_shorter hjoined
            have hstrong : least ≤ link.leftPower := Nat.le_of_not_lt hpower
            rcases Word.link_cases hlink with ⟨sign, rfl, rfl⟩ | ⟨hbegins, rfl⟩
            · by_cases hfield : sign = .dot → field? behind = none
              · rw [joined?_sign hfield] at hjoined
                obtain ⟨⟨right, found⟩, hright, hside⟩ := Option.map_eq_some_iff.mp hjoined
                cases hside
                obtain ⟨tree, htree, hcomplete⟩ := arranged_of_read? _ behind hright
                have hmember : sign = .dot → tree.first.word.isMember = false := by
                  intro hdot
                  obtain ⟨more, hmore⟩ := tree.exists_lexemes_eq
                  have hnone := hfield hdot
                  rw [← htree.lexemes, hmore] at hnone
                  exact field?_eq_none_iff.mp hnone
                exact arranged_of_extend? least found
                  (hleft.linked htree hcomplete hmember)
                  (List.forall_mem_cons.mpr ⟨hstrong, hleast⟩) hextend
              · obtain ⟨rfl, hsome⟩ := Classical.not_imp.mp hfield
                obtain ⟨⟨field, found⟩, hfound⟩ := Option.ne_none_iff_exists'.mp hsome
                obtain ⟨hname, position, rfl⟩ := field?_eq_some hfound
                simp only [Sign.link, joined?, hfound] at hjoined
                cases hjoined
                exact arranged_of_extend? least after (hleft.member hname)
                  (List.forall_mem_cons.mpr ⟨hstrong, hleast⟩) hextend
            · obtain ⟨⟨right, found⟩, hright, hside⟩ := Option.map_eq_some_iff.mp hjoined
              cases hside
              obtain ⟨tree, htree, hcomplete⟩ := arranged_of_read? _ (⟨word, place⟩ :: behind) hright
              exact arranged_of_extend? least found
                (hleft.juxtaposed hbegins htree hcomplete)
                (List.forall_mem_cons.mpr ⟨hstrong, hleast⟩) hextend
termination_by 2 * lexemes.length + 2
decreasing_by all_goals simp only [List.length_cons] at *; omega

end

end Arranged

-- How many lexemes an expression was read from.
def width : Expr → Nat
  | .number _ _ | .name _ _ => 1
  | .negate operand _ => operand.width + 1
  | .binary .call left right _ => left.width + right.width
  | .binary _ left right _ => left.width + right.width + 1
  | .pipe value callee _ => value.width + callee.width + 1
  | .pipeWith value callee argument _ => value.width + callee.width + argument.width + 1
  | .member subject _ _ => subject.width + 2
  | .bracketed _ inner _ _ => inner.width + 2

theorem width_applied (callee argument : Expr) (position : Position) :
    (applied callee argument position).width = callee.width + argument.width := by
  cases callee with
  | pipe value callee place =>
      simp only [applied, width]
      omega
  | _ => rfl

-- An expression of two operands or more.
def joins : Expr → Bool
  | .binary _ _ _ _ | .pipe _ _ _ | .pipeWith _ _ _ _ => true
  | _ => false

theorem joins_applied (callee argument : Expr) (position : Position) :
    (applied callee argument position).joins = true := by
  cases callee <;> rfl

theorem applied_inj {callee argument callee' argument' : Expr} {position position' : Position}
    (h : applied callee argument position = applied callee' argument' position') :
    callee = callee' ∧ argument = argument' := by
  cases callee <;> cases callee' <;> simp_all [applied]

end Expr

theorem Sign.width_joined (sign : Sign) (left right : Expr) (position : Position) :
    (sign.joined left right position).width = left.width + right.width + 1 := by
  cases sign <;> rfl

theorem Sign.joins_joined (sign : Sign) (left right : Expr) (position : Position) :
    (sign.joined left right position).joins = true := by
  cases sign <;> rfl

theorem Sign.joined_inj {sign other : Sign} {left right left' right' : Expr}
    {position position' : Position}
    (h : sign.joined left right position = other.joined left' right' position') :
    left = left' ∧ right = right' := by
  cases sign <;> cases other <;> simp_all [joined, link]

theorem Sign.joined_ne_applied {sign : Sign} {left right callee argument : Expr}
    {position place : Position} :
    sign.joined left right position ≠ Expr.applied callee argument place := by
  cases sign <;> cases callee <;> simp [joined, link, Expr.applied]

namespace Arrangement

theorem length_lexemes (tree : Arrangement) : tree.lexemes.length = tree.expr.width := by
  induction tree with
  | number text position => rfl
  | name text position => rfl
  | negated position operand ih => simp [lexemes, expr, Expr.width, ih]
  | linked sign position left right ihleft ihright =>
      simp only [lexemes, expr, Sign.width_joined, List.length_append, List.length_cons, ihleft,
        ihright]
      omega
  | juxtaposed left right ihleft ihright =>
      rw [lexemes, expr_juxtaposed, Expr.width_applied, List.length_append, ihleft, ihright]
  | member subject dot field position hfield ih => simp [lexemes, expr, Expr.width, ih]
  | bracketed bracket opened closed inner ih => simp [lexemes, expr, Expr.width, ih]

def joins : Arrangement → Bool
  | .linked _ _ _ _ | .juxtaposed _ _ => true
  | _ => false

theorem joins_expr (tree : Arrangement) : tree.expr.joins = tree.joins := by
  cases tree with
  | linked sign position left right => exact sign.joins_joined left.expr right.expr position
  | juxtaposed left right =>
      rw [expr_juxtaposed]
      exact Expr.joins_applied left.expr right.expr right.first.position
  | _ => rfl

-- Two left operands with something behind them, written in the same way.
theorem append_lexemes_inj {left left' : Arrangement} {behind behind' : List Lexeme}
    (h : left.lexemes ++ behind = left'.lexemes ++ behind') (hexpr : left.expr = left'.expr) :
    left.lexemes = left'.lexemes ∧ behind = behind' := by
  refine List.append_inj h ?_
  rw [length_lexemes, length_lexemes, hexpr]

theorem joins_eq {tree other : Arrangement} (h : tree.expr = other.expr) :
    tree.joins = other.joins := by
  rw [← joins_expr, ← joins_expr, h]

-- An expression forgets which sign a pipe was written with, but its leaves tell.
theorem eq_of_expr_eq {tree other : Arrangement} (hlexemes : tree.lexemes = other.lexemes)
    (hexpr : tree.expr = other.expr) : tree = other := by
  induction tree generalizing other with
  | number text position =>
      have hjoins := joins_eq hexpr
      cases other with
      | number found place => cases hlexemes; rfl
      | _ => contradiction
  | name text position =>
      have hjoins := joins_eq hexpr
      cases other with
      | name found place => cases hlexemes; rfl
      | _ => contradiction
  | negated position operand ih =>
      have hjoins := joins_eq hexpr
      cases other with
      | negated place found =>
          obtain ⟨hsign, hoperand⟩ := List.cons.inj hlexemes
          cases hsign
          rw [ih hoperand (Expr.negate.inj hexpr).1]
      | _ => contradiction
  | linked sign position left right ihleft ihright =>
      have hjoins := joins_eq hexpr
      cases other with
      | linked found place left' right' =>
          obtain ⟨hleft, hright⟩ := Sign.joined_inj hexpr
          obtain ⟨hfront, hback⟩ := append_lexemes_inj hlexemes hleft
          obtain ⟨hsign, hback⟩ := List.cons.inj hback
          rw [Lexeme.mk.injEq, Word.mark.injEq] at hsign
          rw [ihleft hfront hleft, ihright hback hright, Sign.mark_inj hsign.1, hsign.2]
      | juxtaposed left' right' =>
          rw [expr_juxtaposed] at hexpr
          exact absurd hexpr Sign.joined_ne_applied
      | _ => contradiction
  | juxtaposed left right ihleft ihright =>
      have hjoins := joins_eq hexpr
      rw [expr_juxtaposed] at hexpr
      cases other with
      | juxtaposed left' right' =>
          rw [expr_juxtaposed] at hexpr
          obtain ⟨hleft, hright⟩ := Expr.applied_inj hexpr
          obtain ⟨hfront, hback⟩ := append_lexemes_inj hlexemes hleft
          rw [ihleft hfront hleft, ihright hback hright]
      | linked found place left' right' => exact absurd hexpr.symm Sign.joined_ne_applied
      | _ => contradiction
  | member subject dot field position hfield ih =>
      have hjoins := joins_eq hexpr
      cases other with
      | member found dot' field' position' hfield' =>
          obtain ⟨hsubject, -, -⟩ := Expr.member.inj hexpr
          obtain ⟨hfront, hback⟩ := append_lexemes_inj hlexemes hsubject
          cases hback
          cases ih hfront hsubject
          rfl
      | _ => contradiction
  | bracketed bracket opened closed inner ih =>
      have hjoins := joins_eq hexpr
      cases other with
      | bracketed bracket' opened' closed' found =>
          obtain ⟨rfl, hinner, rfl, rfl⟩ := Expr.bracketed.inj hexpr
          obtain ⟨-, hback⟩ := List.cons.inj hlexemes
          rw [ih (List.append_cancel_right hback) hinner]
      | _ => contradiction

theorem parse_lexemes {tree : Arrangement} (h : tree.Prescribed) :
    Expr.parse tree.lexemes = .ok tree.expr := by
  obtain ⟨last, hlast⟩ : ∃ last, tree.lexemes.getLast? = some last := by
    obtain ⟨rest, hrest⟩ := tree.exists_lexemes_eq
    rw [hrest]
    exact ⟨_, List.getLast?_eq_some_getLast (List.cons_ne_nil _ _)⟩
  have hread : Expr.read? last.position 0 (tree.lexemes ++ []) =
      Expr.extend? last.position 0 tree.expr [] :=
    Expr.read?_lexemes h (fun power _ => Nat.zero_le power) fun power _ => Expr.weaker_nil power
  rw [List.append_nil, Expr.extend?_nil] at hread
  exact Expr.parse_eq_ok.mpr ⟨last, hlast, hread⟩

theorem exists_of_parse {lexemes : List Lexeme} {expr : Expr}
    (h : Expr.parse lexemes = .ok expr) :
    ∃ tree : Arrangement, tree.lexemes = lexemes ∧ tree.Prescribed ∧ tree.expr = expr := by
  obtain ⟨last, -, hread⟩ := Expr.parse_eq_ok.mp h
  obtain ⟨tree, htree, -⟩ := Expr.arranged_of_read? 0 lexemes hread
  refine ⟨tree, ?_, htree.prescribed, htree.expr⟩
  rw [← htree.lexemes, List.append_nil]

end Arrangement

-- The parser builds the one arrangement of the lexemes that keeps to the powers, and the tokens are
-- its postfix form.
theorem parse_eq_prescribed (lexemes : List Lexeme) :
    (∀ expr, Expr.parse lexemes = .ok expr ↔
      ∃ tree : Arrangement, tree.lexemes = lexemes ∧ tree.Prescribed ∧ tree.expr = expr) ∧
    (∀ tree other : Arrangement, tree.lexemes = lexemes → tree.Prescribed →
      other.lexemes = lexemes → other.Prescribed → tree = other) ∧
    (∀ left right : Arrangement,
      (∃ value callee argument place,
        (Arrangement.juxtaposed left right).expr = .pipeWith value callee argument place) ↔
      ∃ sign place value callee, left = .linked sign place value callee ∧
        (sign = .pipe ∨ sign = .dot)) ∧
    ∀ tree : Arrangement, tree.lexemes = lexemes → tree.Prescribed → ∀ source last,
      Lexeme.scan source = .ok lexemes → lexemes.getLast? = some last →
        Source.tokens source = .ok (tree.tokens ++ [⟨.finish, .leftUnary, "", last.position⟩]) := by
  have hparse : ∀ tree : Arrangement, tree.lexemes = lexemes → tree.Prescribed →
      Expr.parse lexemes = .ok tree.expr := by
    rintro tree rfl htree
    exact Arrangement.parse_lexemes htree
  refine ⟨fun expr => ⟨Arrangement.exists_of_parse, ?_⟩, ?_,
    Arrangement.expr_juxtaposed_eq_pipeWith_iff, ?_⟩
  · rintro ⟨tree, hlexemes, htree, rfl⟩
    exact hparse tree hlexemes htree
  · intro tree other hlexemes htree hothers hother
    have hexpr := (hparse tree hlexemes htree).symm.trans (hparse other hothers hother)
    exact Arrangement.eq_of_expr_eq (hlexemes.trans hothers.symm) (Except.ok.inj hexpr)
  · intro tree hlexemes htree source last hscan hlast
    rw [Source.tokens, hscan, ok_bind, hparse tree hlexemes htree, ok_bind, hlast,
      Arrangement.postfixTokens_expr]
    rfl

example : (Lexeme.scan "1 + 2 * 3".toUTF8.toList >>= Expr.parse) =
    .ok (.binary .plus (.number "1" ⟨1, 1, 0⟩)
      (.binary .star (.number "2" ⟨1, 5, 4⟩) (.number "3" ⟨1, 9, 8⟩) ⟨1, 7, 6⟩) ⟨1, 3, 2⟩) := by
  decide +kernel

example : (Lexeme.scan "-1 + 2".toUTF8.toList >>= Expr.parse) =
    .ok (.binary .plus (.negate (.number "1" ⟨1, 2, 1⟩) ⟨1, 1, 0⟩) (.number "2" ⟨1, 6, 5⟩)
      ⟨1, 4, 3⟩) := by
  decide +kernel

-- An assignment, a pipe with an argument, and a minus sign in front of a call.
def Source.piping : Bytes := "y := v._1 |> f x - -z w".toUTF8.toList

def Arrangement.piping : Arrangement :=
  .linked .assign ⟨1, 3, 2⟩ (.name "y" ⟨1, 1, 0⟩)
    (.linked .minus ⟨1, 18, 17⟩
      (.juxtaposed
        (.linked .pipe ⟨1, 11, 10⟩ (.member (.name "v" ⟨1, 6, 5⟩) ⟨1, 7, 6⟩ "_1" ⟨1, 8, 7⟩ (by decide))
          (.name "f" ⟨1, 14, 13⟩))
        (.name "x" ⟨1, 16, 15⟩))
      (.negated ⟨1, 20, 19⟩ (.juxtaposed (.name "z" ⟨1, 21, 20⟩) (.name "w" ⟨1, 23, 22⟩))))

theorem parse_eq_prescribed_piping :
    Lexeme.scan Source.piping = .ok Arrangement.piping.lexemes ∧ Arrangement.piping.Prescribed ∧
    Expr.parse Arrangement.piping.lexemes = .ok Arrangement.piping.expr ∧
    (∀ other : Arrangement, other.lexemes = Arrangement.piping.lexemes → other.Prescribed →
      Arrangement.piping = other) ∧
    Source.tokens Source.piping =
      .ok (Arrangement.piping.tokens ++ [⟨.finish, .leftUnary, "", ⟨1, 23, 22⟩⟩]) := by
  have hscan : Lexeme.scan Source.piping = .ok Arrangement.piping.lexemes := by decide +kernel
  have htree : Arrangement.piping.Prescribed := by decide +kernel
  obtain ⟨hparse, hunique, -, htokens⟩ := parse_eq_prescribed Arrangement.piping.lexemes
  exact ⟨hscan, htree, (hparse _).mpr ⟨_, rfl, htree, rfl⟩, fun other => hunique _ other rfl htree,
    htokens _ rfl htree _ _ hscan rfl⟩

end Sluice

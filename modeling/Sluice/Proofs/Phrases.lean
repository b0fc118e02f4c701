import Mathlib
import Sluice.Proofs.Reading

namespace Sluice

namespace Word

def bracketed (words : List Word) : List Word :=
  .mark (.opening .round) :: (words ++ [.mark (.closing .round)])

-- `name (argument)`
def call (name : String) (argument : List Word) : List Word := .name name :: bracketed argument

-- `(first), (second)`
def pair (first second : List Word) : List Word :=
  bracketed first ++ .mark .comma :: bracketed second

-- `(value) |> name`, with any sign for the pipe.
def pipe (sign : Mark) (value : List Word) (name : String) : List Word :=
  bracketed value ++ [.mark sign, .name name]

-- `(value) |> name (argument)`
def pipeWith (sign : Mark) (value : List Word) (name : String) (argument : List Word) : List Word :=
  bracketed value ++ .mark sign :: call name argument

-- Words behind statements, if there are any.
def behind : Option (List Word) → List Word → List Word
  | none, words => words
  | some statements, words => statements ++ .mark .semicolon :: words

-- The two signs of a pipe. A dot in front of a member name is no pipe.
def Pipes (sign : Mark) (name : String) : Prop :=
  sign = .pipe ∨ sign = .dot ∧ Expr.isMemberName name = false

end Word

def Lexeme.ofWord (word : Word) : Lexeme := ⟨word, .start⟩

theorem Lexeme.map_unlocated (lexemes : List Lexeme) :
    lexemes.map Lexeme.unlocated = (lexemes.map Lexeme.word).map Lexeme.ofWord := by
  rw [List.map_map]
  rfl

namespace Expr

-- Words without places.
def ofWords (words : List Word) : Except Failure Expr := parse (words.map Lexeme.ofWord)

theorem parse_eq_ok {lexemes : List Lexeme} {expr : Expr} :
    parse lexemes = .ok expr ↔
      ∃ last, lexemes.getLast? = some last ∧ read? last.position 0 lexemes = some (expr, []) := by
  unfold parse read?
  cases lexemes.getLast? with
  | none => simp
  | some last =>
      simp only [Option.some.injEq, exists_eq_left']
      cases parseExpr last.position 0 lexemes with
      | error failure => simp [Except.toOption]
      | ok parsed =>
          obtain ⟨found, rest, hrest⟩ := parsed
          cases rest with
          | nil => simp [Except.toOption]
          | cons lexeme rest => simp [Except.toOption]

theorem read?_of_ofWords {words : List Word} {expr : Expr} (h : ofWords words = .ok expr) :
    read? .start 0 (words.map Lexeme.ofWord) = some (expr, []) := by
  obtain ⟨last, hlast, hread⟩ := parse_eq_ok.mp h
  have hplace : last.position = .start := by
    obtain ⟨word, -, rfl⟩ := List.mem_map.mp (List.mem_of_getLast? hlast)
    rfl
  rwa [hplace] at hread

-- A text is read as its words are.
theorem parse_of_words {lexemes : List Lexeme} {words : List Word} {expr : Expr}
    (hwords : lexemes.map Lexeme.word = words)
    (h : read? .start 0 (words.map Lexeme.ofWord) = some (expr, [])) :
    ∃ found, parse lexemes = .ok found ∧ found.unlocated = expr := by
  cases hlast : lexemes.getLast? with
  | none =>
      rw [List.getLast?_eq_none_iff] at hlast
      subst hlast hwords
      rw [List.map_nil, List.map_nil, read?_eq, operand?_nil] at h
      contradiction
  | some last =>
      rw [← hwords, ← Lexeme.map_unlocated, @read?_unlocated last.position] at h
      obtain ⟨⟨found, rest⟩, hread, hfound⟩ := Option.map_eq_some_iff.mp h
      simp only [forget, Prod.mk.injEq, List.map_eq_nil_iff] at hfound
      obtain ⟨rfl, rfl⟩ := hfound
      exact ⟨found, parse_eq_ok.mpr ⟨last, hlast, hread⟩, rfl⟩

section Phrases

variable {last : Position} {least : Nat} {name : String} {sign : Mark}

-- An expression behind statements.
def behind : Option Expr → Expr → Position → Expr
  | none, expr, _ => expr
  | some statements, expr, position => .binary .sequence statements expr position

theorem operand?_bracketed {words : List Word} {expr : Expr}
    (h : read? last 0 (words.map Lexeme.ofWord) = some (expr, [])) (rest : List Lexeme) :
    operand? last ((Word.bracketed words).map Lexeme.ofWord ++ rest) =
      some (.bracketed .round expr .start .start, rest) := by
  have hread := read?_append (stops_closing .round .start rest) 0 _ h
  have hresume : resume last 0 (expr, []) (⟨.mark (.closing .round), .start⟩ :: rest) =
      some (expr, ⟨.mark (.closing .round), .start⟩ :: rest) := extend?_cons _ _
  have hwords : (Word.bracketed words).map Lexeme.ofWord ++ rest =
      Lexeme.ofWord (.mark (.opening .round)) :: (words.map Lexeme.ofWord ++
        (⟨.mark (.closing .round), .start⟩ :: rest)) := by
    simp [Word.bracketed, Lexeme.ofWord]
  rw [hwords, operand?_cons]
  simp only [Lexeme.ofWord] at hread ⊢
  rw [hread, hresume]
  rfl

theorem read?_bracketed {words : List Word} {expr : Expr}
    (h : read? last 0 (words.map Lexeme.ofWord) = some (expr, [])) :
    read? last least ((Word.bracketed words).map Lexeme.ofWord) =
      some (.bracketed .round expr .start .start, []) := by
  have hoperand := operand?_bracketed h []
  rw [List.append_nil] at hoperand
  rw [read?_eq, hoperand, Option.bind_some, extend?_nil]

-- An argument in brackets behind what is called.
theorem extend?_bracketed {words : List Word} {expr : Expr} (hleast : least ≤ 15)
    (h : read? last 0 (words.map Lexeme.ofWord) = some (expr, [])) (callee : Expr) :
    extend? last least callee ((Word.bracketed words).map Lexeme.ofWord) =
      some (applied callee (.bracketed .round expr .start .start) .start, []) := by
  have hread := @read?_bracketed last (Link.sign .call).rightPower words expr h
  have hpower : ¬ (Link.sign .call).leftPower < least := Nat.not_lt_of_le hleast
  simp only [Word.bracketed, List.map_cons] at hread ⊢
  rw [extend?_cons]
  simp only [Lexeme.ofWord, Link.ofWord?, if_neg hpower, joined?, side?] at hread ⊢
  rw [hread]
  exact extend?_nil

theorem read?_call {words : List Word} {expr : Expr} (hleast : least ≤ 15)
    (h : read? last 0 (words.map Lexeme.ofWord) = some (expr, [])) :
    read? last least ((Word.call name words).map Lexeme.ofWord) =
      some (.binary .call (.name name .start) (.bracketed .round expr .start .start) .start,
        []) := by
  rw [Word.call, List.map_cons, read?_eq, operand?_cons]
  exact extend?_bracketed hleast h _

-- The callee of a pipe is only the name. An argument behind it is left to the pipe.
theorem extend?_pipe {words : List Word} (hleast : least ≤ 7) (hsign : Word.Pipes sign name)
    (value : Expr) (hwords : words = [] ∨ ∃ argument, words = Word.bracketed argument) :
    extend? last least value ((.mark sign :: .name name :: words).map Lexeme.ofWord) =
      extend? last least (.pipe value (.name name .start) .start) (words.map Lexeme.ofWord) := by
  have hname : ∀ power, 15 < power → read? last power ((.name name :: words).map Lexeme.ofWord) =
      some (.name name .start, words.map Lexeme.ofWord) := by
    intro power hpower
    rw [List.map_cons, read?_eq, operand?_cons]
    rcases hwords with rfl | ⟨argument, rfl⟩
    · exact extend?_nil
    · simp only [Lexeme.ofWord, Word.bracketed, List.map_cons, Option.bind_some]
      rw [extend?_cons]
      exact if_pos hpower
  rw [List.map_cons, extend?_cons]
  rcases hsign with rfl | ⟨rfl, hmember⟩
  · have hpower : ¬ Link.pipe.leftPower < least := Nat.not_lt_of_le hleast
    simp only [Lexeme.ofWord, Link.ofWord?, if_neg hpower, joined?, side?] at hname ⊢
    rw [hname _ (by decide)]
    rfl
  · have hpower : ¬ Link.dot.leftPower < least := Nat.not_lt_of_le (by
      have hdot : Link.dot.leftPower = 19 := rfl
      omega)
    have hfield : field? ((.name name :: words).map Lexeme.ofWord) = none := by
      rw [List.map_cons, Lexeme.ofWord, field?, hmember]
      rfl
    simp only [Lexeme.ofWord, Link.ofWord?, if_neg hpower, joined?, side?] at hname hfield ⊢
    rw [hfield]
    dsimp only
    rw [hname _ (by decide)]
    rfl

theorem read?_pipe {words : List Word} {expr : Expr} (hleast : least ≤ 7)
    (hsign : Word.Pipes sign name)
    (h : read? last 0 (words.map Lexeme.ofWord) = some (expr, [])) :
    read? last least ((Word.pipe sign words name).map Lexeme.ofWord) =
      some (.pipe (.bracketed .round expr .start .start) (.name name .start) .start, []) := by
  rw [Word.pipe, List.map_append, read?_eq, operand?_bracketed h, Option.bind_some,
    extend?_pipe hleast hsign _ (.inl rfl)]
  exact extend?_nil

theorem read?_pipeWith {words argument : List Word} {expr second : Expr} (hleast : least ≤ 7)
    (hsign : Word.Pipes sign name)
    (h : read? last 0 (words.map Lexeme.ofWord) = some (expr, []))
    (hsecond : read? last 0 (argument.map Lexeme.ofWord) = some (second, [])) :
    read? last least ((Word.pipeWith sign words name argument).map Lexeme.ofWord) =
      some (.pipeWith (.bracketed .round expr .start .start) (.name name .start)
        (.bracketed .round second .start .start) .start, []) := by
  rw [Word.pipeWith, Word.call, List.map_append, read?_eq, operand?_bracketed h, Option.bind_some,
    extend?_pipe hleast hsign _ (.inr ⟨argument, rfl⟩), extend?_bracketed (by omega) hsecond]
  rfl

theorem read?_pair {first second : List Word} {left right : Expr}
    (hleft : read? last 0 (first.map Lexeme.ofWord) = some (left, []))
    (hright : read? last 0 (second.map Lexeme.ofWord) = some (right, [])) :
    read? last 0 ((Word.pair first second).map Lexeme.ofWord) =
      some (.binary .comma (.bracketed .round left .start .start)
        (.bracketed .round right .start .start) .start, []) := by
  rw [Word.pair, List.map_append, read?_eq, operand?_bracketed hleft, Option.bind_some,
    List.map_cons, extend?_cons]
  simp only [Lexeme.ofWord, Link.ofWord?, Nat.not_lt_zero, if_false, joined?, side?]
  rw [@read?_bracketed last (Link.sign .comma).rightPower second right hright]
  exact extend?_nil

-- Statements in front of a phrase whose signs bind more strongly than a semicolon.
theorem exists_behind {before : Option (List Word)}
    (hbefore : ∀ statements ∈ before, ∃ first, ofWords statements = .ok first) :
    ∃ statements, ∀ {words : List Word} {expr : Expr},
      (∀ least ≤ 2, read? .start least (words.map Lexeme.ofWord) = some (expr, [])) →
      read? .start 0 ((Word.behind before words).map Lexeme.ofWord) =
        some (behind statements expr .start, []) := by
  cases before with
  | none => exact ⟨none, fun h => h 0 (by decide)⟩
  | some statements =>
      obtain ⟨first, hfirst⟩ := hbefore statements rfl
      refine ⟨some first, fun {words expr} h => ?_⟩
      have hread := read?_append
        (stops_semicolon .start (words.map Lexeme.ofWord)) 0 _ (read?_of_ofWords hfirst)
      rw [Word.behind, List.map_append, List.map_cons]
      refine hread.trans ?_
      rw [resume, if_pos rfl, extend?_cons]
      simp only [Link.ofWord?, Nat.not_lt_zero, if_false, joined?, side?]
      rw [h _ (by decide)]
      exact extend?_nil

end Phrases

end Expr

end Sluice

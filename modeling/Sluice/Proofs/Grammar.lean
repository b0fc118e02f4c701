import Mathlib
import Sluice.Proofs.Arrangement
import Sluice.Proofs.Places

namespace Sluice

-- An expression, the links that follow its first operand, an operand with its minus signs, and an
-- operand without.
inductive Phrase
  | expression
  | links
  | operand
  | atom

inductive Derives : Phrase → List Word → Prop
  | expression {first rest : List Word} (hfirst : Derives .operand first)
      (hrest : Derives .links rest) : Derives .expression (first ++ rest)
  | stop : Derives .links []
  | sign (sign : Sign) {right rest : List Word} (hright : Derives .operand right)
      (hrest : Derives .links rest) : Derives .links (.mark sign.mark :: (right ++ rest))
  | argument {argument rest : List Word} (hargument : Derives .atom argument)
      (hrest : Derives .links rest) : Derives .links (argument ++ rest)
  | plain {words : List Word} (h : Derives .atom words) : Derives .operand words
  | minus {words : List Word} (h : Derives .operand words) :
      Derives .operand (.mark .minus :: words)
  | number (text : String) : Derives .atom [.number text]
  | name (text : String) : Derives .atom [.name text]
  | bracketed (bracket : Bracket) {words : List Word} (h : Derives .expression words) :
      Derives .atom (.mark (.opening bracket) :: (words ++ [.mark (.closing bracket)]))

namespace Derives

theorem append {front back : List Word} (hfront : Derives .links front)
    (hback : Derives .links back) : Derives .links (front ++ back) := by
  generalize hphrase : Phrase.links = phrase at hfront
  induction hfront with
  | stop => exact hback
  | sign sign hright hrest ihright ihrest =>
      rw [List.cons_append, List.append_assoc]
      exact .sign sign hright (ihrest hphrase)
  | argument hargument hrest ihargument ihrest =>
      rw [List.append_assoc]
      exact .argument hargument (ihrest hphrase)
  | _ => contradiction

-- An atom has a first word, and that can begin an argument.
theorem exists_begins {words : List Word} (h : Derives .atom words) :
    ∃ word rest, words = word :: rest ∧ word.begins = true := by
  cases h with
  | number text => exact ⟨.number text, [], rfl, rfl⟩
  | name text => exact ⟨.name text, [], rfl, rfl⟩
  | bracketed bracket hinner => exact ⟨.mark (.opening bracket), _, rfl, rfl⟩

theorem ne_nil {words : List Word} (h : Derives .operand words) : words ≠ [] := by
  cases h with
  | plain hatom =>
      obtain ⟨word, rest, rfl, -⟩ := hatom.exists_begins
      exact List.cons_ne_nil word rest
  | minus hwords => exact List.cons_ne_nil _ _

-- An operand that begins with a name is that name.
theorem eq_name_of_field? {words more : List Word} {behind rest : List Lexeme} {field : String}
    (h : Derives .operand words)
    (hfield : Expr.field? ((words ++ more).map Lexeme.ofWord ++ rest) = some (field, behind)) :
    words = [.name field] ∧ behind = more.map Lexeme.ofWord ++ rest := by
  obtain ⟨-, place, hlexemes⟩ := Expr.field?_eq_some hfield
  cases h with
  | minus hwords => cases hlexemes
  | plain hatom =>
      cases hatom with
      | number text => cases hlexemes
      | name text =>
          cases hlexemes
          exact ⟨rfl, rfl⟩
      | bracketed bracket hinner => cases hlexemes

-- Links are taken if nothing keeps them back.
theorem eq_nil_of_weaker {words : List Word} {rest : List Lexeme} (h : Derives .links words)
    (hweaker : Expr.Weaker 0 (words.map Lexeme.ofWord ++ rest)) : words = [] := by
  cases h with
  | stop => rfl
  | sign sign hright hrest =>
      have hlink : Expr.Link.ofWord? (.mark sign.mark) = some sign.link := sign.ofWord?_mark
      exact absurd ((Expr.weaker_cons_iff hlink).mp hweaker) (Nat.not_lt_zero _)
  | argument hargument hrest =>
      obtain ⟨word, more, rfl, hbegins⟩ := hargument.exists_begins
      exact absurd ((Expr.weaker_cons_iff (Word.ofWord?_of_begins hbegins)).mp hweaker)
        (Nat.not_lt_zero _)

end Derives

namespace Arrangement

def words (tree : Arrangement) : List Word := tree.lexemes.map Lexeme.word

theorem words_linked (sign : Sign) (position : Position) (left right : Arrangement) :
    (linked sign position left right).words =
      left.words ++ .mark sign.mark :: right.words := List.map_append

theorem words_juxtaposed (left right : Arrangement) :
    (juxtaposed left right).words = left.words ++ right.words := List.map_append

theorem words_member (subject : Arrangement) (dot position : Position) (field : String)
    (hfield : Expr.isMemberName field = true) :
    (member subject dot field position hfield).words =
      subject.words ++ [.mark .dot, .name field] := List.map_append

theorem words_bracketed (bracket : Bracket) (opened closed : Position) (inner : Arrangement) :
    (bracketed bracket opened closed inner).words =
      .mark (.opening bracket) :: (inner.words ++ [.mark (.closing bracket)]) :=
  congrArg (Word.mark (.opening bracket) :: ·) List.map_append

-- The leaves of an arrangement are an operand and links. If they do not begin with a minus sign, the
-- operand is an atom.
theorem derives_words {tree : Arrangement} (h : tree.Prescribed) :
    ∃ operand links, tree.words = operand ++ links ∧ Derives .operand operand ∧
      Derives .links links ∧ (tree.first.word ≠ .mark .minus → Derives .atom operand) := by
  induction tree with
  | number text position =>
      exact ⟨_, [], rfl, .plain (.number text), .stop, fun _ => .number text⟩
  | name text position => exact ⟨_, [], rfl, .plain (.name text), .stop, fun _ => .name text⟩
  | negated position operand ih =>
      obtain ⟨first, links, hwords, hfirst, hlinks, -⟩ := ih h.1
      refine ⟨.mark .minus :: first, links, ?_, .minus hfirst, hlinks, fun hne => absurd rfl hne⟩
      exact congrArg (Word.mark .minus :: ·) hwords
  | linked sign position left right ihleft ihright =>
      obtain ⟨first, links, hwords, hfirst, hlinks, hatom⟩ := ihleft h.1
      obtain ⟨second, more, hright, hsecond, hmore, -⟩ := ihright h.2.1
      refine ⟨first, links ++ .mark sign.mark :: (second ++ more), ?_, hfirst,
        hlinks.append (.sign sign hsecond hmore), hatom⟩
      rw [words_linked, hwords, hright, List.append_assoc]
  | juxtaposed left right ihleft ihright =>
      obtain ⟨first, links, hwords, hfirst, hlinks, hatom⟩ := ihleft h.1
      obtain ⟨second, more, hright, -, hmore, hsecond⟩ := ihright h.2.1
      refine ⟨first, links ++ (second ++ more), ?_, hfirst,
        hlinks.append (.argument (hsecond h.2.2.2) hmore), hatom⟩
      rw [words_juxtaposed, hwords, hright, List.append_assoc]
  | member subject dot field position hfield ih =>
      obtain ⟨first, links, hwords, hfirst, hlinks, hatom⟩ := ih h.1
      have hmember : Derives .links ([.mark .dot, .name field] : List Word) :=
        .sign .dot (.plain (.name field)) .stop
      refine ⟨first, links ++ [.mark .dot, .name field], ?_, hfirst, hlinks.append hmember, hatom⟩
      rw [words_member, hwords, List.append_assoc]
  | bracketed bracket opened closed inner ih =>
      obtain ⟨first, links, hwords, hfirst, hlinks, -⟩ := ih h
      have hatom : Derives .atom (bracketed bracket opened closed inner).words := by
        have hinner : Derives .expression inner.words := by
          rw [hwords]
          exact .expression hfirst hlinks
        rw [words_bracketed]
        exact .bracketed bracket hinner
      exact ⟨_, [], (List.append_nil _).symm, .plain hatom, .stop, fun _ => hatom⟩

end Arrangement

namespace Expr

variable {last : Position}

-- What is left of a derived text in front of `rest`: links again, and no more than there were.
def Leaves (found : Option (Expr × List Lexeme)) (links : List Word) (rest : List Lexeme) : Prop :=
  ∃ expr left, found = some (expr, left.map Lexeme.ofWord ++ rest) ∧ Derives .links left ∧
    left.length ≤ links.length

-- With the least power nothing is kept back.
theorem Leaves.all {lexemes rest : List Lexeme} {links : List Word}
    (h : Leaves (read? last 0 lexemes) links rest) :
    ∃ expr, read? last 0 lexemes = some (expr, rest) := by
  obtain ⟨expr, left, hread, hleft, -⟩ := h
  obtain ⟨tree, -, hcomplete⟩ := arranged_of_read? 0 _ hread
  have hnil := hleft.eq_nil_of_weaker hcomplete.rest
  subst hnil
  exact ⟨expr, hread⟩

mutual

theorem leaves_operand? {first links : List Word} {rest : List Lexeme}
    (hfirst : Derives .operand first) (hlinks : Derives .links links) (hrest : Weaker 0 rest) :
    Leaves (operand? last ((first ++ links).map Lexeme.ofWord ++ rest)) links rest := by
  cases hfirst with
  | minus hwords =>
      obtain ⟨expr, left, hread, hleft, hlength⟩ :=
        leaves_read? negatePower hwords hlinks hrest
      refine ⟨.negate expr .start, left, ?_, hleft, hlength⟩
      rw [List.cons_append, List.map_cons, List.cons_append, operand?_cons]
      simp only [Lexeme.ofWord] at hread ⊢
      rw [hread]
      rfl
  | plain hatom =>
      cases hatom with
      | number text =>
          refine ⟨.number text .start, links, ?_, hlinks, le_rfl⟩
          rw [List.singleton_append, List.map_cons, List.cons_append, operand?_cons]
          rfl
      | name text =>
          refine ⟨.name text .start, links, ?_, hlinks, le_rfl⟩
          rw [List.singleton_append, List.map_cons, List.cons_append, operand?_cons]
          rfl
      | @bracketed bracket words hwords =>
          cases hwords with
          | @expression inner more hinner hmore =>
              have hclosing : Weaker 0
                  (⟨.mark (.closing bracket), .start⟩ :: (links.map Lexeme.ofWord ++ rest)) :=
                weaker_cons_of_none rfl
              obtain ⟨expr, hread⟩ := (leaves_read? 0 hinner hmore hclosing).all
              refine ⟨.bracketed bracket expr .start .start, links, ?_, hlinks, le_rfl⟩
              rw [List.cons_append, List.map_cons, List.cons_append, operand?_cons]
              simp only [Lexeme.ofWord, List.append_assoc, List.map_append, List.map_cons,
                List.nil_append, List.cons_append] at hread ⊢
              rw [hread]
              simp only [Option.bind_some, closer?, if_true, Option.map_some]
termination_by 3 * (first ++ links).length

theorem leaves_read? (least : Nat) {first links : List Word} {rest : List Lexeme}
    (hfirst : Derives .operand first) (hlinks : Derives .links links) (hrest : Weaker 0 rest) :
    Leaves (read? last least ((first ++ links).map Lexeme.ofWord ++ rest)) links rest := by
  obtain ⟨operand, left, hoperand, hleft, hlength⟩ := leaves_operand? hfirst hlinks hrest
  have hpos := List.length_pos_of_ne_nil hfirst.ne_nil
  obtain ⟨expr, more, hextend, hmore, hless⟩ := leaves_extend? least operand hleft hrest
  refine ⟨expr, more, ?_, hmore, hless.trans hlength⟩
  rw [read?_eq, hoperand, Option.bind_some]
  exact hextend
termination_by 3 * (first ++ links).length + 1

theorem leaves_extend? (least : Nat) (left : Expr) {links : List Word} {rest : List Lexeme}
    (hlinks : Derives .links links) (hrest : Weaker 0 rest) :
    Leaves (extend? last least left (links.map Lexeme.ofWord ++ rest)) links rest := by
  cases hlinks with
  | stop => exact ⟨left, [], (hrest.mono (Nat.zero_le _)).extend?_eq, .stop, le_rfl⟩
  | @sign sign right more hright hmore =>
      by_cases hpower : sign.link.leftPower < least
      · refine ⟨left, .mark sign.mark :: (right ++ more), ?_, .sign sign hright hmore, le_rfl⟩
        exact ((weaker_cons_iff sign.ofWord?_mark).mpr hpower).extend?_eq
      · have hsplit : extend? last least left
            ((Word.mark sign.mark :: (right ++ more)).map Lexeme.ofWord ++ rest) =
            (joined? last left ⟨.mark sign.mark, .start⟩
              ((right ++ more).map Lexeme.ofWord ++ rest) sign.link).bind fun found =>
                extend? last least found.1 found.2 := by
          rw [List.map_cons, List.cons_append, extend?_cons]
          simp only [Lexeme.ofWord, sign.ofWord?_mark, if_neg hpower]
        by_cases hfield : sign = .dot → field? ((right ++ more).map Lexeme.ofWord ++ rest) = none
        · obtain ⟨expr, after, hread, hafter, hlength⟩ :=
            leaves_read? sign.link.rightPower hright hmore hrest
          obtain ⟨whole, last, hextend, hlast, hless⟩ :=
            leaves_extend? least (sign.joined left expr .start) hafter hrest
          refine ⟨whole, last, ?_, hlast, ?_⟩
          · rw [hsplit, joined?_sign hfield, side?, hread]
            exact hextend
          · simp only [List.length_cons, List.length_append]
            omega
        · obtain ⟨rfl, hsome⟩ := Classical.not_imp.mp hfield
          obtain ⟨⟨field, behind⟩, hfound⟩ := Option.ne_none_iff_exists'.mp hsome
          obtain ⟨rfl, rfl⟩ := hright.eq_name_of_field? hfound
          obtain ⟨whole, last, hextend, hlast, hless⟩ :=
            leaves_extend? least (.member left field .start) hmore hrest
          refine ⟨whole, last, ?_, hlast, ?_⟩
          · simp only [hsplit, Sign.link, joined?, hfound, Option.bind_some]
            exact hextend
          · simp only [List.length_cons, List.length_append]
            omega
  | @argument argument more hargument hmore =>
      obtain ⟨word, rest', rfl, hbegins⟩ := hargument.exists_begins
      have hlink := Word.ofWord?_of_begins hbegins
      by_cases hpower : (Link.sign .call).leftPower < least
      · refine ⟨left, word :: rest' ++ more, ?_, .argument hargument hmore, le_rfl⟩
        exact ((weaker_cons_iff hlink).mpr hpower).extend?_eq
      · obtain ⟨expr, after, hread, hafter, hlength⟩ :=
          leaves_read? (Link.sign .call).rightPower (.plain hargument) hmore hrest
        obtain ⟨whole, last, hextend, hlast, hless⟩ :=
          leaves_extend? least (applied left expr .start) hafter hrest
        refine ⟨whole, last, ?_, hlast, ?_⟩
        · rw [List.cons_append, List.map_cons, List.cons_append] at hread ⊢
          rw [extend?_cons]
          simp only [Lexeme.ofWord, hlink, if_neg hpower, joined?, side?] at hread ⊢
          rw [hread]
          exact hextend
        · simp only [List.length_cons, List.length_append]
          omega
termination_by 3 * links.length + 2
decreasing_by all_goals subst_vars; simp only [List.length_cons, List.length_append] at *; omega

end

theorem badText_closing (bracket : Bracket) (opened : Position) (lexemes : List Lexeme) :
    Meets (fun _ => True) (fun failure => failure.problem.kind = .badText)
      (closing bracket opened lexemes) := by
  unfold closing
  split
  · exact rfl
  · split
    · exact trivial
    · exact rfl

mutual

theorem badText_parseOperand (lexemes : List Lexeme) :
    Meets (fun _ => True) (fun failure => failure.problem.kind = .badText)
      (parseOperand last lexemes) := by
  match lexemes with
  | [] =>
      rw [parseOperand]
      exact rfl
  | ⟨word, place⟩ :: rest =>
      rw [parseOperand]
      match word with
      | .number _ | .name _ => exact trivial
      | .mark .minus => exact (badText_parseExpr negatePower rest).bind fun _ _ => trivial
      | .mark (.opening bracket) =>
          refine (badText_parseExpr 0 rest).bind fun parsed _ => ?_
          exact (badText_closing bracket place parsed.rest).bind fun _ _ => trivial
      | .mark .assign | .mark .pipe | .mark .plus | .mark .star | .mark .comma | .mark .dot
      | .mark .semicolon | .mark (.closing _) => exact rfl
termination_by 2 * lexemes.length

theorem badText_parseExpr (least : Nat) (lexemes : List Lexeme) :
    Meets (fun _ => True) (fun failure => failure.problem.kind = .badText)
      (parseExpr last least lexemes) := by
  rw [parseExpr]
  refine (badText_parseOperand lexemes).bind fun operand _ => ?_
  obtain ⟨operand, behind, hbehind⟩ := operand
  exact (badText_extend least operand behind).bind fun _ _ => trivial
termination_by 2 * lexemes.length + 1
decreasing_by all_goals omega

theorem badText_extend (least : Nat) (left : Expr) (lexemes : List Lexeme) :
    Meets (fun _ => True) (fun failure => failure.problem.kind = .badText)
      (extend last least left lexemes) := by
  match lexemes with
  | [] =>
      rw [extend]
      exact trivial
  | ⟨word, place⟩ :: rest =>
      rw [extend]
      split
      · exact trivial
      · rename_i link hlink
        split
        · exact trivial
        · match link with
          | .sign .call =>
              refine (badText_parseExpr _ _).bind fun argument _ => ?_
              obtain ⟨argument, behind, hbehind⟩ := argument
              have hshorter : behind.length ≤ rest.length := Nat.le_of_lt_succ hbehind
              exact (badText_extend least _ behind).bind fun _ _ => trivial
          | .sign .sequence | .sign .assign | .sign .comma | .sign .plus | .sign .minus
          | .sign .star | .pipe =>
              refine (badText_parseExpr _ _).bind fun right _ => ?_
              obtain ⟨right, behind, hbehind⟩ := right
              exact (badText_extend least _ behind).bind fun _ _ => trivial
          | .dot =>
              dsimp only
              split
              · rename_i field behind hbehind hfield
                exact (badText_extend least _ behind).bind fun _ _ => trivial
              · refine (badText_parseExpr _ _).bind fun right _ => ?_
                obtain ⟨right, behind, hbehind⟩ := right
                exact (badText_extend least _ behind).bind fun _ _ => trivial
termination_by 2 * lexemes.length + 2
decreasing_by all_goals simp only [List.length_cons] at *; omega

end

theorem badText_parse (lexemes : List Lexeme) :
    Meets (fun _ => True) (fun failure => failure.problem.kind = .badText) (parse lexemes) := by
  unfold parse
  split
  · exact rfl
  · rename_i last hlast
    refine (badText_parseExpr 0 lexemes).bind fun whole _ => ?_
    split
    · exact trivial
    · exact rfl

end Expr

-- A number, a name or a closing bracket: the end of an operand.
def Word.ends : Word → Bool
  | .number _ | .name _ | .mark (.closing _) => true
  | .mark _ => false

-- The minus signs of a text that stand in front of an operand: those that no operand ends before.
def Word.negations (ended : Bool) : List Word → List Bool
  | [] => []
  | word :: rest => (!ended && word = .mark .minus) :: negations word.ends rest

namespace Arrangement

-- The leaves that are minus signs of a single operand.
def negations : Arrangement → List Bool
  | .number _ _ | .name _ _ => [false]
  | .negated _ operand => true :: operand.negations
  | .linked _ _ left right => left.negations ++ false :: right.negations
  | .juxtaposed left right => left.negations ++ right.negations
  | .member subject _ _ _ _ => subject.negations ++ [false, false]
  | .bracketed _ _ _ inner => false :: (inner.negations ++ [false])

private theorem negations_sign (sign : Sign) (rest : List Word) :
    Word.negations true (.mark sign.mark :: rest) = false :: Word.negations false rest := by
  cases sign <;> rfl

-- An arrangement begins where no operand has ended, or with something else than a minus sign. It ends
-- an operand.
theorem negations_words {tree : Arrangement} (h : tree.Prescribed) {ended : Bool}
    (hended : tree.first.word = .mark .minus → ended = false) (rest : List Word) :
    Word.negations ended (tree.words ++ rest) = tree.negations ++ Word.negations true rest := by
  induction tree generalizing ended rest with
  | number text position => simp [words, lexemes, negations, Word.negations, Word.ends]
  | name text position => simp [words, lexemes, negations, Word.negations, Word.ends]
  | negated position operand ih =>
      rw [hended rfl]
      exact congrArg (true :: ·) (ih h.1 (fun _ => rfl) rest)
  | linked sign position left right ihleft ihright =>
      rw [words_linked, List.append_assoc, List.cons_append, ihleft h.1 hended, negations_sign,
        ihright h.2.1 fun _ => rfl, negations, List.append_assoc, List.cons_append]
  | juxtaposed left right ihleft ihright =>
      rw [words_juxtaposed, List.append_assoc, ihleft h.1 hended,
        ihright h.2.1 fun hminus => absurd hminus h.2.2.2, negations, List.append_assoc]
  | member subject dot field position hfield ih =>
      rw [words_member, List.append_assoc, ih h.1 hended, negations, List.append_assoc]
      rfl
  | bracketed bracket opened closed inner ih =>
      have hinner := ih h (fun _ => rfl : _ → false = false) (.mark (.closing bracket) :: rest)
      rw [words_bracketed, List.cons_append, List.append_assoc]
      simp [Word.negations, Word.ends, negations, hinner]

end Arrangement

private theorem exists_parse_of_derives {lexemes : List Lexeme}
    (h : Derives .expression (lexemes.map Lexeme.word)) :
    ∃ expr, Expr.parse lexemes = .ok expr := by
  generalize hwords : lexemes.map Lexeme.word = words at h
  cases h with
  | expression hfirst hlinks =>
      obtain ⟨expr, hread⟩ := (Expr.leaves_read? 0 hfirst hlinks (Expr.weaker_nil 0)).all
      rw [List.append_nil] at hread
      obtain ⟨found, hparse, -⟩ := Expr.parse_of_words hwords hread
      exact ⟨found, hparse⟩

private theorem derives_of_parse {lexemes : List Lexeme} {expr : Expr}
    (h : Expr.parse lexemes = .ok expr) : Derives .expression (lexemes.map Lexeme.word) := by
  obtain ⟨tree, rfl, htree, -⟩ := Arrangement.exists_of_parse h
  obtain ⟨first, links, hwords, hfirst, hlinks, -⟩ := tree.derives_words htree
  rw [← Arrangement.words, hwords]
  exact .expression hfirst hlinks

-- The parser accepts what the grammar derives, and anything else is a mistake in the text. A minus
-- sign behind an operand is between two.
theorem parse_accepts_grammar (lexemes : List Lexeme) :
    ((∃ expr, Expr.parse lexemes = .ok expr) ↔
      Derives .expression (lexemes.map Lexeme.word)) ∧
    ((∃ failure, Expr.parse lexemes = .error failure ∧ failure.problem.kind = .badText) ↔
      ¬ Derives .expression (lexemes.map Lexeme.word)) ∧
    ∀ expr, Expr.parse lexemes = .ok expr → ∃ tree : Arrangement, tree.lexemes = lexemes ∧
      tree.expr = expr ∧ tree.negations = Word.negations false (lexemes.map Lexeme.word) := by
  have haccepts : (∃ expr, Expr.parse lexemes = .ok expr) ↔
      Derives .expression (lexemes.map Lexeme.word) := by
    refine ⟨?_, exists_parse_of_derives⟩
    rintro ⟨expr, hparse⟩
    exact derives_of_parse hparse
  refine ⟨haccepts, ?_, ?_⟩
  · rw [← haccepts]
    have hbad := Expr.badText_parse lexemes
    cases hparse : Expr.parse lexemes with
    | ok expr => simp
    | error failure =>
        rw [hparse] at hbad
        have hkind : failure.problem.kind = .badText := hbad
        simp [hkind]
  · intro expr hparse
    obtain ⟨tree, rfl, htree, hexpr⟩ := Arrangement.exists_of_parse hparse
    have hnegations := tree.negations_words htree (fun _ => rfl : _ → false = false) []
    rw [List.append_nil, Word.negations, List.append_nil] at hnegations
    exact ⟨tree, rfl, hexpr, hnegations.symm⟩

-- In `a - -b` the first minus sign is between two operands, the second in front of one.
theorem parse_accepts_minus :
    Derives .expression [.name "a", .mark .minus, .mark .minus, .name "b"] ∧
    ∃ expr tree, Expr.ofWords [.name "a", .mark .minus, .mark .minus, .name "b"] = .ok expr ∧
      Arrangement.expr tree = expr ∧ tree.negations = [false, false, true, false] := by
  have hderives : Derives .expression [.name "a", .mark .minus, .mark .minus, .name "b"] :=
    .expression (.plain (.name "a")) (.sign .minus (.minus (.plain (.name "b"))) .stop)
  obtain ⟨haccepts, -, hminus⟩ := parse_accepts_grammar
    ([.name "a", .mark .minus, .mark .minus, .name "b"].map Lexeme.ofWord)
  obtain ⟨expr, hparse⟩ := haccepts.mpr hderives
  obtain ⟨tree, -, hexpr, hnegations⟩ := hminus expr hparse
  exact ⟨hderives, expr, tree, hparse, hexpr, hnegations⟩

end Sluice

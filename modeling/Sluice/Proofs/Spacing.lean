import Mathlib
import Sluice.Proofs.Phrases
import Sluice.Proofs.Scanning
import Sluice.Source.Compile

namespace Sluice

-- The items with a space between each two of them.
theorem Text.encode_joined_cons (item : String) (items : List String) :
    encode (joined " " (item :: items)) =
      encode item ++ items.flatMap fun next => 32 :: encode next := by
  induction items generalizing item with
  | nil => simp [joined]
  | cons next items ih =>
      have hblank : encode " " = [32] := by decide +kernel
      have htail := ih next
      simp only [joined, String.intercalate_cons_cons, encode_append, hblank] at htail ⊢
      rw [htail]
      simp

namespace Lexeme

variable {spaces last : Bytes} {word : Word} {rows : List (Bytes × Word)}

-- Blanks, and comments with the line feeds that end them.
inductive Spaces : Bytes → Prop
  | nil : Spaces []
  | blank {byte : UInt8} {rest : Bytes} (hblank : isBlank byte = true) (hrest : Spaces rest) :
      Spaces (byte :: rest)
  | comment {text rest : Bytes} (htext : 10 ∉ text) (hrest : Spaces rest) :
      Spaces (35 :: (text ++ 10 :: rest))

-- Words with the layout in front of each, and the layout behind them all.
def written (rows : List (Bytes × Word)) (last : Bytes) : Bytes :=
  rows.flatMap (fun row => row.1 ++ row.2.bytes) ++ last

theorem written_cons (row : Bytes × Word) (rows : List (Bytes × Word)) (last : Bytes) :
    written (row :: rows) last = row.1 ++ (row.2.bytes ++ written rows last) := by
  simp [written]

-- Two words in a row have something in between.
structure Spaced (rows : List (Bytes × Word)) (last : Bytes) : Prop where
  legal : ∀ row ∈ rows, row.2.Legal
  spaces : ∀ row ∈ rows, Spaces row.1
  apart : ∀ row ∈ rows.tail, row.1 ≠ []
  ends : Spaces last

private theorem layoutLength_comment {text tail : Bytes} (h : 10 ∉ text) :
    layoutLength true (text ++ 10 :: tail) = text.length + 1 + layoutLength false tail := by
  induction text with
  | nil => simp [layoutLength]
  | cons byte text ih =>
      rw [List.mem_cons, not_or] at h
      have hbyte : decide (byte ≠ 10) = true := decide_eq_true (Ne.symm h.1)
      rw [List.cons_append, layoutLength, if_pos rfl, hbyte, ih h.2, List.length_cons]
      omega

theorem layoutLength_spaces (h : Spaces spaces) (tail : Bytes) :
    layoutLength false (spaces ++ tail) = spaces.length + layoutLength false tail := by
  induction h with
  | nil => simp
  | @blank byte rest hblank hrest ih =>
      rw [List.cons_append, layoutLength, if_neg Bool.false_ne_true, if_pos hblank, ih,
        List.length_cons]
      omega
  | @comment text rest htext hrest ih =>
      have hsign : isBlank 35 = false := rfl
      rw [List.cons_append, layoutLength, if_neg Bool.false_ne_true, hsign,
        if_neg Bool.false_ne_true, if_pos rfl, List.append_assoc, List.cons_append,
        layoutLength_comment htext, ih, List.length_cons, List.length_append, List.length_cons]
      omega

theorem layoutLength_of_isInk {first : UInt8} {rest : Bytes} (h : isInk first = true) :
    layoutLength false (first :: rest) = 0 := by
  simp only [isInk, Bool.and_eq_true, Bool.not_eq_true', decide_eq_true_eq] at h
  simp [layoutLength, h.1.2, h.2]

theorem Spaces.breaks (h : Spaces spaces) (hne : spaces ≠ []) (rest : Bytes) :
    Breaks isInk (spaces ++ rest) := by
  cases h with
  | nil => exact absurd rfl hne
  | blank hblank hrest => exact breaks_cons (by simp [isInk, hblank])
  | comment htext hrest => exact breaks_cons rfl

-- What comes behind a word begins with layout, or there is nothing.
theorem Spaced.breaks {row : Bytes × Word} (h : Spaced (row :: rows) last) :
    Breaks isInk (written rows last) := by
  cases rows with
  | nil =>
      by_cases hlast : last = []
      · simp [written, hlast, Breaks]
      · have hbreaks := h.ends.breaks hlast []
        rwa [List.append_nil] at hbreaks
  | cons next rows =>
      have hspaces := h.spaces next (by simp)
      rw [written_cons]
      exact hspaces.breaks (h.apart next (List.mem_cons_self ..)) _

theorem Spaced.behind {row : Bytes × Word} (h : Spaced (row :: rows) last) : Spaced rows last where
  legal other hother := h.legal other (List.mem_cons_of_mem _ hother)
  spaces other hother := h.spaces other (List.mem_cons_of_mem _ hother)
  apart other hother := h.apart other (List.mem_of_mem_tail hother)
  ends := h.ends

-- No word runs over what ends it.
theorem heads_of_breaks {tail : Bytes} (h : word.Legal) (htail : Breaks isInk tail) :
    word.Heads (word.bytes ++ tail) := by
  refine ⟨h, List.prefix_append .., ?_⟩
  intro other hother hfront
  exact (prefix_run hother.isInk h.isInk htail hfront).length_le

private theorem rest_skipLayout {cursor : Cursor} {tail : Bytes} (hspaces : Spaces spaces)
    (hlegal : word.Legal) (hrest : cursor.rest = spaces ++ (word.bytes ++ tail)) :
    (skipLayout cursor).rest = word.bytes ++ tail := by
  obtain ⟨first, more, hbytes, -⟩ := hlegal.exists_cons
  have hink : isInk first = true := hlegal.isInk first (by simp [hbytes])
  rw [skipLayout, Cursor.rest_advanceBy, hrest, layoutLength_spaces hspaces, hbytes,
    List.cons_append, layoutLength_of_isInk hink, Nat.add_zero, List.drop_left]

-- The scanner takes the longest word and goes on behind it.
private theorem scanFrom_of_heads {cursor : Cursor} (h : word.Heads cursor.rest) :
    scanFrom cursor = (scanFrom (skipLayout (cursor.advanceBy word.bytes.length))).map
      (⟨word, cursor.position⟩ :: ·) := by
  obtain ⟨rest, position⟩ := cursor
  have hpositive := List.length_pos_of_ne_nil h.legal.ne_nil
  cases rest with
  | nil => exact absurd (List.prefix_nil.mp h.front) h.legal.ne_nil
  | cons first rest =>
      rw [scanFrom, h.word?_eq]
      dsimp only
      rw [Nat.sub_add_cancel hpositive]
      cases scanFrom (skipLayout (Cursor.advanceBy ⟨first :: rest, position⟩
        word.bytes.length)) with
      | error failure => rfl
      | ok lexemes => rfl

private theorem exists_scanFrom (h : Spaced rows last) {cursor : Cursor}
    (hcursor : cursor.rest = written rows last) :
    ∃ lexemes, scanFrom (skipLayout cursor) = .ok lexemes ∧
      lexemes.map Lexeme.word = rows.map Prod.snd := by
  induction rows generalizing cursor with
  | nil =>
      have hlength := layoutLength_spaces h.ends []
      rw [List.append_nil, layoutLength, Nat.add_zero] at hlength
      have hskipped : (skipLayout cursor).rest = [] := by
        rw [skipLayout, Cursor.rest_advanceBy, hcursor]
        simp [written, hlength]
      generalize skipLayout cursor = reached at *
      obtain ⟨rest, position⟩ := reached
      cases hskipped
      exact ⟨[], by rw [scanFrom], rfl⟩
  | cons row rows ih =>
      have hlegal := h.legal row (List.mem_cons_self ..)
      have hskipped := rest_skipLayout (h.spaces row (List.mem_cons_self ..)) hlegal
        (hcursor.trans (written_cons ..))
      have hheads : row.2.Heads (skipLayout cursor).rest := by
        rw [hskipped]
        exact heads_of_breaks hlegal h.breaks
      have hnext : ((skipLayout cursor).advanceBy row.2.bytes.length).rest = written rows last := by
        rw [Cursor.rest_advanceBy, hskipped, List.drop_left]
      obtain ⟨lexemes, hlexemes, hwords⟩ := ih h.behind hnext
      rw [scanFrom_of_heads hheads, hlexemes]
      exact ⟨_, rfl, by rw [List.map_cons, List.map_cons, hwords]⟩

theorem exists_scan (h : Spaced rows last) :
    ∃ lexemes, scan (written rows last) = .ok lexemes ∧
      lexemes.map Lexeme.word = rows.map Prod.snd :=
  exists_scanFrom h rfl

theorem legal_of_scan {source : Bytes} {lexemes : List Lexeme} (h : scan source = .ok lexemes) :
    ∀ lexeme ∈ lexemes, lexeme.word.Legal := by
  have hscan := meets_cut_scan source
  rw [h] at hscan
  obtain ⟨cuts, start, rfl, -, hcut⟩ := hscan
  intro lexeme hlexeme
  obtain ⟨cut, hmem, rfl⟩ := List.mem_map.mp hlexeme
  exact (hcut.within cut hmem).1.heads.legal

-- One space between each two words.
def spread : List Word → List (Bytes × Word)
  | [] => []
  | word :: words => ([], word) :: words.map fun next => ([32], next)

theorem map_snd_spread (words : List Word) : (spread words).map Prod.snd = words := by
  cases words with
  | nil => rfl
  | cons word words => simp [spread, Function.comp_def]

theorem written_spread (words : List Word) :
    written (spread words) [] = Text.encode (Text.joined " " (words.map Word.text)) := by
  cases words with
  | nil => decide +kernel
  | cons word words =>
      rw [List.map_cons, Text.encode_joined_cons]
      simp [spread, written, List.flatMap_map, Word.bytes]

theorem spaced_spread {words : List Word} (h : ∀ word ∈ words, word.Legal) :
    Spaced (spread words) [] := by
  cases words with
  | nil => exact ⟨by simp [spread], by simp [spread], by simp [spread], .nil⟩
  | cons word words =>
      have hblank : Spaces [32] := .blank rfl .nil
      rw [List.forall_mem_cons] at h
      refine ⟨?_, ?_, ?_, .nil⟩
      · simpa [spread] using h
      · simp [spread, hblank, Spaces.nil]
      · simp [spread]

end Lexeme

-- What a token is, without its place.
def Token.shape (token : Token) : Token.Kind × Token.Arity × String :=
  (token.kind, token.arity, token.text)

namespace Expr

theorem shapes_unlocated (expr : Expr) :
    expr.unlocated.postfixTokens.map Token.shape = expr.postfixTokens.map Token.shape := by
  induction expr with
  | number text position => rfl
  | name text position => rfl
  | negate operand position ih => simp [unlocated, postfixTokens, ih, Token.shape]
  | binary operator left right position hleft hright =>
      simp [unlocated, postfixTokens, hleft, hright, Token.shape]
  | pipe value callee position hvalue hcallee =>
      simp [unlocated, postfixTokens, hvalue, hcallee, Token.shape]
  | pipeWith value callee argument position hvalue hcallee hargument =>
      simp [unlocated, postfixTokens, hvalue, hcallee, hargument, Token.shape]
  | member subject field position ih => simp [unlocated, postfixTokens, ih, Token.shape]
  | bracketed bracket inner opened closed ih =>
      cases bracket <;> simp [unlocated, postfixTokens, ih, Token.shape]

-- The same words are read as the same expression, up to places.
theorem parse_of_same_words {lexemes others : List Lexeme} {expr : Expr}
    (hwords : lexemes.map Lexeme.word = others.map Lexeme.word) (h : parse lexemes = .ok expr) :
    ∃ found, parse others = .ok found ∧ found.unlocated = expr.unlocated := by
  obtain ⟨last, -, hread⟩ := parse_eq_ok.mp h
  apply parse_of_words hwords.symm
  rw [← Lexeme.map_unlocated, @read?_unlocated last.position, hread]
  rfl

end Expr

namespace Source

variable {one other : Bytes} {lexemes others : List Lexeme}

theorem tokens_of_scan (h : Lexeme.scan one = .ok lexemes) :
    (tokens one).toOption.map (·.map Token.shape) =
      (Expr.parse lexemes).toOption.map fun expr =>
        expr.postfixTokens.map Token.shape ++ [(.finish, .leftUnary, "")] := by
  unfold tokens
  rw [h]
  cases hparse : Expr.parse lexemes with
  | error failure => simp [hparse, bind, Except.bind, Except.toOption]
  | ok expr => simp [hparse, bind, Except.bind, Except.toOption, Token.shape]

private theorem tokens_of_same_words (hone : Lexeme.scan one = .ok lexemes)
    (hother : Lexeme.scan other = .ok others)
    (hwords : lexemes.map Lexeme.word = others.map Lexeme.word) :
    (tokens one).toOption.map (·.map Token.shape) =
      (tokens other).toOption.map (·.map Token.shape) := by
  rw [tokens_of_scan hone, tokens_of_scan hother]
  cases hparse : Expr.parse lexemes with
  | ok expr =>
      obtain ⟨found, hfound, hsame⟩ := Expr.parse_of_same_words hwords hparse
      have hshapes := found.shapes_unlocated
      rw [hsame, expr.shapes_unlocated] at hshapes
      rw [hfound]
      simp [Except.toOption, hshapes]
  | error failure =>
      cases hfound : Expr.parse others with
      | error failure => rfl
      | ok found =>
          obtain ⟨expr, hexpr, -⟩ := Expr.parse_of_same_words hwords.symm hfound
          rw [hparse] at hexpr
          cases hexpr

-- Words are scanned as they were written, whatever layout is put between them. So a source can be
-- written anew with single spaces, and sources with the same words have the same tokens. Words come
-- off the source here; cutting them out by their positions is the same for sources of fewer than
-- 2 ^ 32 bytes (`Lexeme.Stands.section_eq`).
theorem scan_ignores_layout :
    (∀ rows last, Lexeme.Spaced rows last → ∃ lexemes,
      Lexeme.scan (Lexeme.written rows last) = .ok lexemes ∧
        lexemes.map Lexeme.word = rows.map Prod.snd) ∧
    (∀ source lexemes, Lexeme.scan source = .ok lexemes → ∃ again,
      Lexeme.scan (Text.encode (Text.joined " " (lexemes.map Lexeme.text))) = .ok again ∧
        again.map Lexeme.word = lexemes.map Lexeme.word) ∧
    ∀ one other lexemes others, Lexeme.scan one = .ok lexemes → Lexeme.scan other = .ok others →
      lexemes.map Lexeme.word = others.map Lexeme.word →
        (tokens one).toOption.map (·.map Token.shape) =
          (tokens other).toOption.map (·.map Token.shape) := by
  refine ⟨fun rows last h => Lexeme.exists_scan h, ?_, ?_⟩
  · intro source lexemes hscan
    have hlegal : ∀ word ∈ lexemes.map Lexeme.word, word.Legal := by
      rw [List.forall_mem_map]
      exact Lexeme.legal_of_scan hscan
    have hagain := Lexeme.exists_scan (Lexeme.spaced_spread hlegal)
    rwa [Lexeme.written_spread, Lexeme.map_snd_spread, List.map_map] at hagain
  · intro one other lexemes others hone hother hwords
    exact tokens_of_same_words hone hother hwords

-- Signs and quotes in comments, and a point that no digit follows at once.
def annotated : List (Bytes × Word) :=
  [(35 :: (Text.encode " := |> \"1" ++ [10]), .name "a"), ([32], .mark .assign),
    ([13, 10], .number "1"), ([9], .mark .dot), (35 :: (Text.encode "'#." ++ [10]), .name "b")]

def compact : Bytes := "a:=1.b".toUTF8.toList

theorem spaced_annotated : Lexeme.Spaced annotated [] := by
  have hname : ∀ byte : UInt8, Lexeme.startsName byte = true → Lexeme.IsName [byte] :=
    fun byte h => ⟨byte, [], rfl, h, by simp⟩
  have hcomment : Lexeme.Spaces (35 :: (Text.encode " := |> \"1" ++ [10])) :=
    .comment (by decide +kernel) .nil
  have hquote : Lexeme.Spaces (35 :: (Text.encode "'#." ++ [10])) :=
    .comment (by decide +kernel) .nil
  refine ⟨?_, ?_, by simp [annotated], .nil⟩
  · simp only [annotated, List.forall_mem_cons, Word.Legal]
    refine ⟨hname 97 rfl, trivial, .inl ⟨by decide +kernel, by decide +kernel⟩, trivial,
      hname 98 rfl, by simp⟩
  · simp only [annotated, List.forall_mem_cons]
    exact ⟨hcomment, .blank rfl .nil, .blank rfl (.blank rfl .nil), .blank rfl .nil, hquote,
      by simp⟩

theorem scan_ignores_layout_annotated :
    Lexeme.Spaced annotated [] ∧
    (∃ lexemes, Lexeme.scan (Lexeme.written annotated []) = .ok lexemes ∧
      lexemes.map Lexeme.word =
        [.name "a", .mark .assign, .number "1", .mark .dot, .name "b"]) ∧
    (∃ again, Lexeme.scan (Text.encode "a := 1 . b") = .ok again ∧ again.length = 5) ∧
    (tokens (Lexeme.written annotated [])).toOption.map (·.map Token.shape) =
      (tokens compact).toOption.map (·.map Token.shape) ∧
    ((tokens compact).toOption.map List.length) = some 7 := by
  have hcompact : Lexeme.scan compact = .ok [⟨.name "a", ⟨1, 1, 0⟩⟩, ⟨.mark .assign, ⟨1, 2, 1⟩⟩,
      ⟨.number "1", ⟨1, 4, 3⟩⟩, ⟨.mark .dot, ⟨1, 5, 4⟩⟩, ⟨.name "b", ⟨1, 6, 5⟩⟩] := by
    decide +kernel
  obtain ⟨hwritten, hjoined, htokens⟩ := scan_ignores_layout
  obtain ⟨lexemes, hscan, hwords⟩ := hwritten annotated [] spaced_annotated
  obtain ⟨again, hagain, hsame⟩ := hjoined compact _ hcompact
  refine ⟨spaced_annotated, ⟨lexemes, hscan, hwords⟩, ⟨again, ?_, ?_⟩, ?_, by decide +kernel⟩
  · rw [← hagain]
    rfl
  · rw [← List.length_map Lexeme.word, hsame]
    rfl
  · exact htokens _ _ _ _ hscan hcompact hwords

end Source

end Sluice

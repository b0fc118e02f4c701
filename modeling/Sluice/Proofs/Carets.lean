import Mathlib
import Sluice.Proofs.Mistakes
import Sluice.Proofs.Pointers
import Sluice.Proofs.Quotations
import Sluice.Proofs.Scanning

namespace Sluice

namespace Report.Statement

-- What a character is replaced by in the line of the caret.
def blank (c : Char) : Char := if c = '\t' then '\t' else ' '

theorem indent_succ (column : Nat) (line : List Char) :
    indent (column + 1) line = (line.take column).map blank := by
  induction line generalizing column with
  | nil => simp [indent]
  | cons c rest ih =>
      cases column with
      | zero => simp [indent]
      | succ column =>
          have hcolumn : column + 1 + 1 ≠ 1 := by omega
          rw [indent, if_neg hcolumn, Nat.add_sub_cancel, ih, List.take_succ_cons, List.map_cons]
          rfl

end Report.Statement

namespace Source

open Lexeme

variable {source : Bytes} {offset : Nat}

-- Columns and characters agree up to the offset, and there is something to point at.
structure Legible (source : Bytes) (offset : Nat) : Prop where
  inside : offset ≤ source.length
  ascii : ∀ place byte, lineStart source offset ≤ place → place < offset →
    source[place]? = some byte → byte < 128
  visible : offset = 0 ∨ ∃ byte, source[offset]? = some byte ∧ isPlain byte = true

theorem legible_zero (source : Bytes) : Legible source 0 :=
  ⟨Nat.zero_le _, fun _ _ _ hplace => absurd hplace (Nat.not_lt_zero _), .inl rfl⟩

-- A comment in front of a place that is no layout ends on a line of its own.
theorem not_inComment_of_lineStart {place : Nat} (houtside : ¬ IsLayout source offset)
    (hoffset : offset < source.length) (hstart : lineStart source offset ≤ place)
    (hplace : place < offset) : ¬ InComment source place := by
  rintro ⟨-, start, hle, hsign, hline⟩
  apply houtside
  refine .inr ⟨hoffset, start, by omega, hsign, ?_⟩
  intro k hk hkoffset hfeed
  by_cases hbefore : k ≤ place
  · exact hline k hk hbefore hfeed
  · rcases Nat.lt_or_eq_of_le hkoffset with hlt | rfl
    · have hends := @not_endsLineAt_of_lineStart source offset k (by omega) hlt
      simp [endsLineAt, hfeed] at hends
    · exact houtside (.inl ⟨10, hfeed, rfl⟩)

private theorem lt_of_isBlank : ∀ byte : UInt8, isBlank byte = true → byte < 128 := by
  decide +kernel

private theorem isPlain_of_not_isBlank :
    ∀ byte : UInt8, isBlank byte = false → isPlain byte = true := by
  decide +kernel

-- Whatever the scanner has cut up to here, and is no layout itself.
theorem legible_of_cut {start finish : Nat} {cuts : List (Nat × Lexeme)} (hgap : Gap source 0 start)
    (hcut : Cut source start cuts finish) (hfinish : offset ≤ finish)
    (houtside : ¬ IsLayout source offset) (hoffset : offset < source.length) :
    Legible source offset := by
  refine ⟨Nat.le_of_lt hoffset, ?_, .inr ⟨_, List.getElem?_eq_getElem hoffset, ?_⟩⟩
  · intro place byte hstart hplace hbyte
    rcases isLayout_or_covered hgap hcut (Nat.lt_of_lt_of_le hplace hfinish) with
      (⟨found, hfound, hblank⟩ | hcomment) | ⟨cut, -, hstands, ⟨hle, hlt⟩, -⟩
    · rw [hbyte] at hfound
      obtain rfl := Option.some.inj hfound
      exact lt_of_isBlank byte hblank
    · exact absurd hcomment (not_inComment_of_lineStart houtside hoffset hstart hplace)
    · obtain ⟨k, rfl⟩ := Nat.exists_eq_add_of_le hle
      have hk : k < cut.2.word.bytes.length := by
        unfold stop at hlt
        omega
      rw [hstands.getElem?_eq hk] at hbyte
      have hink := hstands.heads.legal.isInk byte (List.mem_of_getElem? hbyte)
      simp only [isInk, Bool.and_eq_true, decide_eq_true_eq] at hink
      exact hink.1.1
  · apply isPlain_of_not_isBlank
    apply Bool.eq_false_of_not_eq_true
    intro hblank
    exact houtside (.inl ⟨_, List.getElem?_eq_getElem hoffset, hblank⟩)

-- A place of a report.
def IsMark (source : Bytes) (position : Position) : Prop :=
  ∃ offset, Legible source offset ∧ position = positionAt source offset

theorem isMark_start (source : Bytes) : IsMark source .start :=
  ⟨0, legible_zero source, rfl⟩

private theorem meets_isMark_scan (source : Bytes) :
    Meets (fun lexemes => ∀ lexeme ∈ lexemes, IsMark source lexeme.position)
      (Failure.Points (IsMark source)) (scan source) := by
  refine (meets_cut_scan source).imp ?_ ?_
  · rintro lexemes ⟨cuts, start, rfl, hgap, hcut⟩ lexeme hlexeme
    obtain ⟨cut, hmem, rfl⟩ := List.mem_map.mp hlexeme
    obtain ⟨hstands, -, hstop⟩ := hcut.within cut hmem
    have hlt := hstands.offset_lt_stop
    exact ⟨cut.1, legible_of_cut hgap hcut (by omega) hstands.outside (by omega),
      hstands.position⟩
  · rintro failure ⟨cuts, start, place, hgap, hcut, hstuck⟩
    obtain ⟨byte, hbyte, rfl⟩ := hstuck.reported
    refine Failure.points_located rfl ⟨place, ?_, rfl⟩
    exact legible_of_cut hgap hcut (Nat.le_refl _) hstuck.outside
      (List.getElem?_eq_some_iff.mp hbyte).1

private theorem meets_isMark_expr (source : Bytes) :
    Meets (fun read => ∀ place ∈ read.1.places, IsMark source place)
      (Failure.Points (IsMark source)) (expr source) := by
  refine Meets.bind (meets_isMark_scan source) fun lexemes hlexemes => ?_
  have hparse := Expr.meets_parse (isMark_start source) hlexemes
  refine Meets.bind (hparse.imp (fun _ h => h) fun _ hblames => hblames.places) fun expr hexpr => ?_
  exact hexpr

theorem points_of_error {library : Library} {failure : Failure}
    (h : tokens source = .error failure ∨ compile library source = .error failure) :
    failure.Points (IsMark source) := by
  have hexpr := meets_isMark_expr source
  rcases h with h | h
  · rw [tokens_eq_expr] at h
    cases hread : expr source with
    | ok read =>
        rw [hread] at h
        cases h
    | error other =>
        rw [hread] at h hexpr
        cases h
        exact hexpr
  · have hcompile := pointed_compile library (isMark_start source) hexpr
    rw [h] at hcompile
    exact hcompile

-- In front of a byte that can be seen there is no part of a line end on its line.
private theorem isPlain_of_lineStart {place : Nat} {byte first : UInt8}
    (hbyte : source[offset]? = some byte)
    (hplain : isPlain byte = true) (hstart : lineStart source offset ≤ place)
    (hplace : place < offset) (hfirst : source[place]? = some first) : isPlain first = true := by
  have hends := not_endsLineAt_of_lineStart hstart hplace
  by_contra hbreaks
  rcases isPlain_eq_false_iff.mp (Bool.eq_false_of_not_eq_true hbreaks) with rfl | rfl
  · simp [endsLineAt, hfirst] at hends
  · -- the line feed behind it would end the line, or be the byte itself
    have hfeed : source[place + 1]? = some 10 := by simpa [endsLineAt, hfirst] using hends
    rcases Nat.lt_or_eq_of_le (Nat.succ_le_of_lt hplace) with hlt | heq
    · have hnext := @not_endsLineAt_of_lineStart source offset (place + 1) (by omega) hlt
      simp [endsLineAt, hfeed] at hnext
    · rw [← heq, Nat.succ_eq_add_one, hfeed] at hbyte
      obtain rfl := Option.some.inj hbyte
      cases hplain

private theorem lt_length_lineText {byte : UInt8} (hbyte : source[offset]? = some byte)
    (hplain : isPlain byte = true) :
    offset - lineStart source offset < (lineText (source.drop (lineStart source offset))).length := by
  have hle := lineStart_le source offset
  have hinside := (List.getElem?_eq_some_iff.mp hbyte).1
  have hfront : ∀ first ∈ (source.drop (lineStart source offset)).take
      (offset - lineStart source offset + 1), isPlain first = true := by
    intro first hfirst
    obtain ⟨k, hk, hget⟩ := List.mem_take_iff_getElem.mp hfirst
    rw [List.getElem_drop] at hget
    have hget := List.getElem?_eq_some_iff.mpr ⟨_, hget⟩
    rcases Nat.lt_or_eq_of_le (show lineStart source offset + k ≤ offset by omega) with hlt | heq
    · exact isPlain_of_lineStart hbyte hplain (Nat.le_add_right ..) hlt hget
    · rw [heq, hbyte] at hget
      rwa [← Option.some.inj hget]
  have hwhole := List.take_append_drop (offset - lineStart source offset + 1)
    (source.drop (lineStart source offset))
  rw [lineText, ← hwhole, List.takeWhile_append_of_pos hfront, List.length_append,
    List.length_take, List.length_drop]
  omega

private theorem length_lineText_le (bytes : Bytes) :
    (lineText bytes).length ≤ (quoted bytes).length := by
  rcases quoted_cases bytes with ⟨-, hquoted⟩ | ⟨-, more, hquoted⟩
  · rw [hquoted]
  · rw [hquoted, List.length_append]
    exact Nat.le_add_right ..

private theorem lt_length_quoted (h : Legible source offset)
    (hquoted : quoted (source.drop (lineStart source offset)) ≠ []) :
    offset - lineStart source offset < (quoted (source.drop (lineStart source offset))).length := by
  rcases h.visible with rfl | ⟨byte, hbyte, hplain⟩
  · rw [Nat.zero_sub]
    exact List.length_pos_of_ne_nil hquoted
  · exact Nat.lt_of_lt_of_le (lt_length_lineText hbyte hplain) (length_lineText_le _)

private theorem lt_of_lineEnd {byte : UInt8} (h : byte = 10 ∨ byte = 13) : byte < 128 := by
  rcases h with rfl | rfl <;> decide

-- The quoted line up to the offset is read byte by byte, and then comes the character at the offset.
theorem lenientChars_quoted (h : Legible source offset)
    (hquoted : quoted (source.drop (lineStart source offset)) ≠ []) :
    ∃ c, (Text.lenientChars (quoted (source.drop (lineStart source offset))))[offset -
        lineStart source offset]? = some c ∧
      (Text.lenientChars (source.drop offset)).head? = some c := by
  have hle := lineStart_le source offset
  have hlength := lt_length_quoted h hquoted
  obtain ⟨tail, hwhole, htail⟩ := exists_quoted_append (source.drop (lineStart source offset))
  have hbehind : source.drop offset =
      (quoted (source.drop (lineStart source offset))).drop (offset - lineStart source offset) ++
        tail := by
    rw [← List.drop_append_of_le_length (Nat.le_of_lt hlength), ← hwhole, List.drop_drop,
      Nat.add_sub_cancel' hle]
  have hfront : ∀ byte ∈ (quoted (source.drop (lineStart source offset))).take
      (offset - lineStart source offset), byte < 128 := by
    intro byte hbyte
    obtain ⟨k, hk, hget⟩ := List.mem_take_iff_getElem.mp hbyte
    refine h.ascii (lineStart source offset + k) byte (Nat.le_add_right ..) (by omega) ?_
    rw [← List.getElem?_drop, hwhole, List.getElem?_append_left (by omega)]
    exact List.getElem?_eq_some_iff.mpr ⟨_, hget⟩
  generalize quoted (source.drop (lineStart source offset)) = text at *
  have hrest : text.drop (offset - lineStart source offset) ≠ [] := by
    rw [Ne, List.drop_eq_nil_iff]
    omega
  have hhead := Text.head?_lenientChars_append hrest fun byte hbyte =>
    lt_of_lineEnd (htail byte hbyte)
  have hchars := Text.lenientChars_ascii hfront (text.drop (offset - lineStart source offset))
  rw [List.take_append_drop] at hchars
  obtain ⟨c, more, hc⟩ := List.exists_cons_of_ne_nil (Text.lenientChars_ne_nil hrest)
  refine ⟨c, ?_, by rw [hbehind, hhead, hc, List.head?_cons]⟩
  rw [hchars, List.getElem?_append_right (by simp), hc, List.length_map, List.length_take,
    Nat.min_eq_left (Nat.le_of_lt hlength), Nat.sub_self, List.getElem?_cons_zero]

end Source

-- A statement that has a place quotes the line around it.
private theorem Failure.line_of_report {source : Bytes} {failure : Failure}
    {statement : Report.Statement}
    {position : Position} (h : statement ∈ (Source.report source failure).statements)
    (hposition : statement.position = some position) :
    position ∈ failure.places ∧ statement.line = (Source.lineAt? source position).getD "" := by
  simp only [Source.report, Failure.report, Report.foldl_remark, Report.ofMessage, Report.quote,
    Report.statements, List.nil_append, List.mem_cons, List.map_map, List.mem_map] at h
  rcases h with rfl | ⟨remark, hremark, rfl⟩
  · cases hplace : failure.position with
    | none =>
        rw [hplace] at hposition
        cases hposition
    | some place =>
        rw [hplace] at hposition
        cases hposition
        exact ⟨by simp [Failure.places, hplace], rfl⟩
  · cases hposition
    exact ⟨List.mem_append_right _ (List.mem_map_of_mem hremark), rfl⟩

private theorem Report.Statement.text_of_line {statement : Statement} {position : Position}
    {column : Nat} (hposition : statement.position = some position) (hline : statement.line ≠ "")
    (hcolumn : position.column.toNat = column + 1) :
    statement.text = statement.weight.label ++ statement.message ++ "\n" ++
      " +- at " ++ position.text ++ "\n" ++ " | \n" ++ " | " ++ statement.line ++ "\n" ++
      " | " ++ String.ofList ((statement.line.toList.take column).map blank) ++ "^" ++ "\n" := by
  have hbar : " | \n | " = " | \n" ++ " | " := rfl
  have hnext : "\n | " = "\n" ++ " | " := rfl
  simp only [text, hposition, if_neg hline, caret, hcolumn, indent_succ, hbar, hnext,
    String.append_assoc]

-- Whatever is wrong with a text, every statement that quotes a line has its caret under the character
-- that begins at the offset: as many blanks as there are characters in front of it, tabs kept. This
-- holds up to the offset where the numbers of a place would wrap around.
theorem caret_under_character (source : Bytes) (library : Library) (failure : Failure)
    (hfailure : Source.tokens source = .error failure ∨
      Source.compile library source = .error failure) :
    ∀ statement ∈ (Source.report source failure).statements, ∀ position,
      statement.position = some position → statement.line ≠ "" →
      ∃ offset ≤ source.length, position = Source.positionAt source offset ∧
        (offset + 1 < UInt32.size →
          position.offset.toNat = offset ∧
          ∃ column blanks c, position.column.toNat = column + 1 ∧
            statement.text = statement.weight.label ++ statement.message ++ "\n" ++
              " +- at " ++ position.text ++ "\n" ++ " | \n" ++ " | " ++ statement.line ++ "\n" ++
              " | " ++ String.ofList blanks ++ "^" ++ "\n" ∧
            blanks.length = column ∧
            blanks = (statement.line.toList.take column).map Report.Statement.blank ∧
            statement.line.toList[column]? = some c ∧
            (Text.lenientChars (source.drop offset)).head? = some c) := by
  intro statement hstatement position hposition hline
  obtain ⟨hplace, hquoted⟩ := Failure.line_of_report hstatement hposition
  obtain ⟨offset, hlegible, rfl⟩ := Source.points_of_error hfailure position hplace
  refine ⟨offset, hlegible.inside, rfl, ?_⟩
  intro hsize
  obtain ⟨-, hcolumn, hoffset⟩ := @Source.positionAt_exact source offset hsize
  rw [Nat.add_comm] at hcolumn
  rw [Source.lineAt?_positionAt hlegible.inside hsize, Option.getD_some] at hquoted
  have hne : Source.quoted (source.drop (Source.lineStart source offset)) ≠ [] := by
    intro hempty
    rw [hquoted, hempty] at hline
    exact hline (by rw [Text.lenient, Text.lenientChars])
  obtain ⟨c, hc, hfirst⟩ := Source.lenientChars_quoted hlegible hne
  have hchars : statement.line.toList = Text.lenientChars
      (Source.quoted (source.drop (Source.lineStart source offset))) := by
    rw [hquoted, Text.lenient, String.toList_ofList]
  rw [← hchars] at hc
  have hlt := (List.getElem?_eq_some_iff.mp hc).1
  refine ⟨hoffset, _, _, c, hcolumn, Report.Statement.text_of_line hposition hline hcolumn, ?_, rfl,
    hc, hfirst⟩
  rw [List.length_map, List.length_take, Nat.min_eq_left (Nat.le_of_lt hlt)]

-- A tab in front of the bracket, and longer characters in the comments around it.
def Source.unclosed : Bytes := "# é\n\tf (x] # é".toUTF8.toList

def Failure.unclosed : Failure :=
  .located ⟨2, 6, 10⟩ (.wrongCloser .round "]" ⟨2, 4, 8⟩)

theorem caret_under_bracket :
    Source.tokens Source.unclosed = .error Failure.unclosed ∧
    (Source.report Source.unclosed Failure.unclosed).main.line = "\tf (x] # é" ∧
    ∃ column blanks c, (6 : UInt32).toNat = column + 1 ∧
      (Source.report Source.unclosed Failure.unclosed).main.text =
        "ERROR: " ++ "expected ')', found ']'" ++ "\n" ++ " +- at " ++ "2:6" ++ "\n" ++ " | \n" ++
          " | " ++ "\tf (x] # é" ++ "\n" ++ " | " ++ String.ofList blanks ++ "^" ++ "\n" ∧
      blanks.length = column ∧ "\tf (x] # é".toList[column]? = some c ∧
      (Text.lenientChars (Source.unclosed.drop 10)).head? = some c := by
  have hfails : Source.tokens Source.unclosed = .error Failure.unclosed := by decide +kernel
  have hline : (Source.report Source.unclosed Failure.unclosed).main.line = "\tf (x] # é" := by
    decide +kernel
  obtain ⟨offset, hoffset, hposition, haims⟩ := caret_under_character Source.unclosed .empty _
    (.inl hfails) _ (List.mem_cons_self ..) ⟨2, 6, 10⟩ rfl (by rw [hline]; decide)
  have hlength : Source.unclosed.length = 16 := by decide +kernel
  obtain ⟨rfl, column, blanks, c, hcolumn, htext, hblanks, -, hc, hfirst⟩ :=
    haims (by rw [hlength] at hoffset; exact Nat.lt_of_le_of_lt (Nat.succ_le_succ hoffset) (by decide))
  rw [hline] at htext hc
  exact ⟨hfails, hline, column, blanks, c, hcolumn, htext, hblanks, hc, hfirst⟩

end Sluice

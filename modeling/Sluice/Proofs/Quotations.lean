import Mathlib
import Sluice.Proofs.Decoding
import Sluice.Proofs.Lines

namespace Sluice

namespace Source

variable {source bytes : Bytes} {offset : Nat}

-- The lines of a source, without what ends them. There is one more than there are line ends.
def lines : Bytes → List Bytes
  | [] => [[]]
  | 13 :: 10 :: rest => [] :: lines rest
  | byte :: rest =>
      if byte = 10 ∨ byte = 13 then [] :: lines rest
      else (byte :: (lines rest).headD []) :: (lines rest).tail

-- A byte that belongs to no line end.
def isPlain (byte : UInt8) : Bool := byte ≠ 10 && byte ≠ 13

theorem isPlain_eq_false_iff {byte : UInt8} : isPlain byte = false ↔ byte = 10 ∨ byte = 13 := by
  rw [isPlain, Bool.and_eq_false_iff, decide_eq_false_iff_not, decide_eq_false_iff_not, not_ne_iff,
    not_ne_iff]

-- The first line.
def lineText (bytes : Bytes) : Bytes := bytes.takeWhile isPlain

-- The first line as far as it is quoted.
def quoted (bytes : Bytes) : Bytes :=
  let line := bytes.takeWhile (· ≠ 10)
  if line.getLast? = some 13 then line.dropLast else line

theorem headD_lines (bytes : Bytes) : (lines bytes).headD [] = lineText bytes := by
  fun_induction lines bytes with
  | case1 => rfl
  | case2 rest ih => simp [lineText, isPlain]
  | case3 byte rest hpair hends ih =>
      rcases hends with rfl | rfl <;> simp [lineText, isPlain]
  | case4 byte rest hpair hends ih =>
      rw [not_or] at hends
      simp [lineText, isPlain, hends] at ih ⊢
      exact ih

theorem endsLineAt_zero {byte : UInt8} {rest : Bytes} :
    endsLineAt (byte :: rest) 0 = Cursor.endsLine byte rest := by
  simp [endsLineAt, Cursor.endsLine, List.head?_eq_getElem?]

theorem endsLineAt_drop (source : Bytes) (start place : Nat) :
    endsLineAt (source.drop start) place = endsLineAt source (start + place) := by
  simp only [endsLineAt, List.getElem?_drop, Nat.add_assoc]

-- Behind the first line end the other lines follow.
theorem tail_lines {place : Nat} (hends : endsLineAt bytes place = true)
    (hfirst : ∀ earlier < place, endsLineAt bytes earlier = false) :
    (lines bytes).tail = lines (bytes.drop (place + 1)) := by
  fun_induction lines bytes generalizing place with
  | case1 => simp [endsLineAt] at hends
  | case2 rest ih =>
      have hreturn : endsLineAt (13 :: 10 :: rest) 0 = false := by simp [endsLineAt]
      have hfeed : endsLineAt (13 :: 10 :: rest) 1 = true := by simp [endsLineAt]
      have hplace : place = 1 := by
        rcases Nat.lt_trichotomy place 1 with hlt | heq | hgt
        · rw [Nat.lt_one_iff.mp hlt, hreturn] at hends
          cases hends
        · exact heq
        · rw [hfirst 1 hgt] at hfeed
          cases hfeed
      rw [hplace]
      rfl
  | case3 byte rest hpair hline ih =>
      have hzero : endsLineAt (byte :: rest) 0 = true := by
        rw [endsLineAt_zero, Cursor.endsLine]
        rcases hline with rfl | rfl
        · rfl
        · cases rest with
          | nil => rfl
          | cons next rest =>
              have hnext : next ≠ 10 := by
                rintro rfl
                exact hpair rest rfl rfl
              simp [hnext]
      have hplace : place = 0 := by
        by_contra hpos
        rw [hfirst 0 (Nat.pos_of_ne_zero hpos)] at hzero
        cases hzero
      rw [hplace]
      rfl
  | case4 byte rest hpair hline ih =>
      have hzero : endsLineAt (byte :: rest) 0 = false := by
        rw [not_or] at hline
        simp [endsLineAt_zero, Cursor.endsLine, hline]
      cases place with
      | zero =>
          rw [hzero] at hends
          cases hends
      | succ place =>
          rw [List.tail_cons]
          exact ih hends fun earlier hearlier => hfirst (earlier + 1) (by omega)

theorem not_endsLineAt_of_lineStart {place : Nat} (hstart : lineStart source offset ≤ place)
    (hplace : place < offset) : endsLineAt source place = false := by
  induction offset with
  | zero => omega
  | succ offset ih =>
      unfold lineStart at hstart
      split at hstart
      · omega
      · rename_i hends
        rcases Nat.lt_succ_iff_lt_or_eq.mp hplace with hlt | rfl
        · exact ih hstart hlt
        · exact Bool.eq_false_of_not_eq_true hends

theorem lineStart_cases (source : Bytes) (offset : Nat) :
    lineStart source offset = 0 ∨ endsLineAt source (lineStart source offset - 1) = true := by
  induction offset with
  | zero => exact .inl rfl
  | succ offset ih =>
      unfold lineStart
      split
      · rename_i hends
        exact .inr hends
      · exact ih

-- The lines from a place on are those from the beginning of its line on.
private theorem drop_lines (source : Bytes) (offset : Nat) :
    (lines source).drop (lineEnds source offset) =
      lines (source.drop (lineStart source offset)) := by
  induction offset with
  | zero => rfl
  | succ offset ih =>
      have hle := lineStart_le source offset
      rw [lineEnds, List.range_succ, List.countP_append, List.countP_singleton, ← lineEnds]
      unfold lineStart
      split
      · rename_i hends
        obtain ⟨length, hlength⟩ := Nat.exists_eq_add_of_le hle
        have htail := @tail_lines (source.drop (lineStart source offset)) length
          (by rw [endsLineAt_drop, ← hlength]; exact hends)
          (fun earlier hearlier => by
            rw [endsLineAt_drop]
            exact @not_endsLineAt_of_lineStart source offset _ (by omega) (by omega))
        rw [← List.drop_drop, ih, List.drop_one, htail, List.drop_drop]
        congr 2
        omega
      · exact ih

theorem getElem?_lines (source : Bytes) (offset : Nat) :
    (lines source)[lineEnds source offset]? =
      some (lineText (source.drop (lineStart source offset))) := by
  have hne : lines (source.drop (lineStart source offset)) ≠ [] := by
    fun_cases lines (source.drop (lineStart source offset)) <;> simp
  obtain ⟨line, more, hlines⟩ := List.exists_cons_of_ne_nil hne
  have hhead := headD_lines (source.drop (lineStart source offset))
  rw [hlines, List.headD_cons] at hhead
  rw [← Nat.add_zero (lineEnds source offset), ← List.getElem?_drop, drop_lines, hlines,
    List.getElem?_cons_zero, hhead]

-- A carriage return, and behind it something that is no line feed.
def isBareReturn (bytes : Bytes) : Bool :=
  match bytes with
  | 13 :: next :: _ => next ≠ 10
  | _ => false

theorem lineText_cases (bytes : Bytes) :
    ∃ rest, bytes = lineText bytes ++ rest ∧
      (rest = [] ∨ (∃ more, rest = 10 :: more) ∨ ∃ more, rest = 13 :: more) := by
  refine ⟨bytes.dropWhile isPlain, List.takeWhile_append_dropWhile.symm, ?_⟩
  have hbreaks := List.head?_dropWhile_not isPlain bytes
  cases hrest : bytes.dropWhile isPlain with
  | nil => exact .inl rfl
  | cons byte more =>
      rw [hrest] at hbreaks
      rcases isPlain_eq_false_iff.mp hbreaks with rfl | rfl
      · exact .inr (.inl ⟨more, rfl⟩)
      · exact .inr (.inr ⟨more, rfl⟩)

theorem isPlain_of_mem_lineText {byte : UInt8} (h : byte ∈ lineText bytes) : isPlain byte = true :=
  List.mem_takeWhile_imp h

theorem quoted_of_line {line : Bytes} (hline : bytes.takeWhile (· ≠ 10) = line)
    (hplain : ∀ byte ∈ line, isPlain byte = true) : quoted bytes = line := by
  have hlast : line.getLast? ≠ some 13 := by
    intro hlast
    cases hplain 13 (List.mem_of_getLast? hlast)
  simp only [quoted, hline, if_neg hlast]

theorem quoted_of_return {line : Bytes} (hline : bytes.takeWhile (· ≠ 10) = line ++ [13]) :
    quoted bytes = line := by
  simp only [quoted, hline]
  simp

-- What is quoted goes on behind a bare carriage return, and nowhere else.
theorem quoted_cases (bytes : Bytes) :
    (isBareReturn (bytes.drop (lineText bytes).length) = false ∧ quoted bytes = lineText bytes) ∨
    (isBareReturn (bytes.drop (lineText bytes).length) = true ∧
      ∃ more, quoted bytes = lineText bytes ++ 13 :: more) := by
  obtain ⟨rest, hbytes, hrest⟩ := lineText_cases bytes
  have hplain : ∀ byte ∈ lineText bytes, isPlain byte = true :=
    fun byte hbyte => isPlain_of_mem_lineText hbyte
  have hline : bytes.takeWhile (· ≠ 10) = lineText bytes ++ rest.takeWhile (· ≠ 10) := by
    conv_lhs => rw [hbytes]
    apply List.takeWhile_append_of_pos
    intro byte hbyte
    exact (Bool.and_eq_true_iff.mp (hplain byte hbyte)).1
  have hdrop := @List.drop_left _ (lineText bytes) rest
  rw [← hbytes] at hdrop
  rw [hdrop]
  rcases hrest with rfl | ⟨more, rfl⟩ | ⟨more, rfl⟩
  · exact .inl ⟨rfl, quoted_of_line (by simpa using hline) hplain⟩
  · exact .inl ⟨rfl, quoted_of_line (by simpa using hline) hplain⟩
  · cases more with
    | nil => exact .inl ⟨rfl, quoted_of_return (by simpa using hline)⟩
    | cons next more =>
        by_cases hnext : next = 10
        · subst hnext
          exact .inl ⟨rfl, quoted_of_return (by simpa using hline)⟩
        · refine .inr ⟨by simp [isBareReturn, hnext], ?_⟩
          have hlong : bytes.takeWhile (· ≠ 10) =
              lineText bytes ++ 13 :: next :: more.takeWhile (· ≠ 10) := by
            simpa [hnext] using hline
          simp only [quoted, hlong]
          split
          · exact ⟨(next :: more.takeWhile (· ≠ 10)).dropLast, by simp⟩
          · exact ⟨_, rfl⟩

-- Behind the quotation comes a byte of a line end, if any.
theorem exists_quoted_append (bytes : Bytes) :
    ∃ tail, bytes = quoted bytes ++ tail ∧ ∀ byte ∈ tail.head?, byte = 10 ∨ byte = 13 := by
  have hwhole : bytes.takeWhile (· ≠ 10) ++ bytes.dropWhile (· ≠ 10) = bytes :=
    List.takeWhile_append_dropWhile
  by_cases hlast : (bytes.takeWhile (· ≠ 10)).getLast? = some 13
  · have hreturn := List.dropLast_append_getLast? 13 hlast
    refine ⟨13 :: bytes.dropWhile (· ≠ 10), ?_, by simp⟩
    rw [quoted_of_return hreturn.symm, ← List.singleton_append, ← List.append_assoc, hreturn, hwhole]
  · refine ⟨bytes.dropWhile (· ≠ 10), ?_, ?_⟩
    · simp only [quoted, if_neg hlast, hwhole]
    · intro byte hbyte
      have hbreaks := List.head?_dropWhile_not (· ≠ 10) bytes
      rw [Option.mem_def.mp hbyte] at hbreaks
      exact .inl (by simpa using hbreaks)

-- Looking for the end from a place on is looking for it from the beginning of the line on.
private theorem take_drop_lineStart (source : Bytes) (offset : Nat) :
    (source.take (offset + ((source.drop offset).takeWhile (· ≠ 10)).length)).drop
        (lineStart source offset) =
      (source.drop (lineStart source offset)).takeWhile (· ≠ 10) := by
  obtain ⟨length, hlength⟩ := Nat.exists_eq_add_of_le (lineStart_le source offset)
  have hbehind : source.drop offset = (source.drop (lineStart source offset)).drop length := by
    rw [List.drop_drop, ← hlength]
  have hfront : ∀ byte ∈ (source.drop (lineStart source offset)).take length,
      decide (byte ≠ 10) = true := by
    intro byte hbyte
    obtain ⟨place, hplace, hget⟩ := List.mem_take_iff_getElem.mp hbyte
    have hends := @not_endsLineAt_of_lineStart source offset (lineStart source offset + place)
      (by omega) (by omega)
    rw [List.getElem_drop] at hget
    rw [endsLineAt, List.getElem?_eq_getElem (by rw [List.length_drop] at hplace; omega), hget]
      at hends
    simp only [Bool.or_eq_false_iff, decide_eq_false_iff_not, Option.some.injEq] at hends
    exact decide_eq_true hends.1
  rw [hbehind, List.drop_take]
  generalize source.drop (lineStart source offset) = text at *
  have hsize : offset + ((text.drop length).takeWhile (· ≠ 10)).length - lineStart source offset =
      length + ((text.drop length).takeWhile (· ≠ 10)).length := by omega
  rw [hsize, List.take_add,
    ← List.prefix_iff_eq_take.mp (List.takeWhile_prefix (l := text.drop length) (· ≠ 10)),
    ← List.takeWhile_append_of_pos hfront, List.take_append_drop]

theorem lineAt?_positionAt (hoffset : offset ≤ source.length) (hsize : offset + 1 < UInt32.size) :
    lineAt? source (positionAt source offset) =
      some (Text.lenient (quoted (source.drop (lineStart source offset)))) := by
  obtain ⟨-, hcolumn, hplace⟩ := @positionAt_exact source offset hsize
  have hle := lineStart_le source offset
  have hinside : ¬ (1 + (offset - lineStart source offset) = 0 ∨
      offset + 1 < 1 + (offset - lineStart source offset) ∨ source.length < offset) := by omega
  have hstart : offset + 1 - (1 + (offset - lineStart source offset)) = lineStart source offset := by
    omega
  simp only [lineAt?, hcolumn, hplace, if_neg hinside, hstart, take_drop_lineStart]
  rfl

-- The line around a place, from its beginning up to what ends it.
structure Encloses (source : Bytes) (offset start : Nat) (line : Bytes) : Prop where
  le : start ≤ offset
  begins : start = 0 ∨ endsLineAt source (start - 1) = true
  unbroken : ∀ place, start ≤ place → place < offset → endsLineAt source place = false
  stands : line <+: source.drop start
  plain : ∀ byte ∈ line, byte ≠ 10 ∧ byte ≠ 13
  ends : ∀ byte, source[start + line.length]? = some byte → byte = 10 ∨ byte = 13

theorem encloses_lineText (source : Bytes) (offset : Nat) :
    Encloses source offset (lineStart source offset)
      (lineText (source.drop (lineStart source offset))) := by
  refine ⟨lineStart_le source offset, lineStart_cases source offset, ?_,
    List.takeWhile_prefix _, ?_, ?_⟩
  · intro place hstart hplace
    exact not_endsLineAt_of_lineStart hstart hplace
  · intro byte hbyte
    simpa [isPlain] using isPlain_of_mem_lineText hbyte
  · intro byte hbyte
    obtain ⟨rest, hbytes, hrest⟩ := lineText_cases (source.drop (lineStart source offset))
    rw [← List.getElem?_drop, hbytes, List.getElem?_append_right (by rw [← hbytes]), ← hbytes,
      Nat.sub_self] at hbyte
    rcases hrest with rfl | ⟨more, rfl⟩ | ⟨more, rfl⟩
    · cases hbyte
    · exact .inl (Option.some.inj hbyte).symm
    · exact .inr (Option.some.inj hbyte).symm

private theorem lenient_append_return (line more : Bytes) :
    Text.lenient (line ++ 13 :: more) = Text.lenient line ++ "\r" ++ Text.lenient more := by
  have hreturn : (13 : UInt8) < 128 := by decide
  apply String.toList_inj.mp
  simp only [Text.lenient, String.toList_append, String.toList_ofList,
    Text.lenientChars_append hreturn, Text.lenientChars_cons hreturn, List.append_assoc]
  rfl

-- Two texts are told apart by what goes on behind the carriage return.
private theorem lenient_quoted_iff (bytes : Bytes) :
    (Text.lenient (quoted bytes) = Text.lenient (lineText bytes) ↔
      isBareReturn (bytes.drop (lineText bytes).length) = false) ∧
    (isBareReturn (bytes.drop (lineText bytes).length) = true →
      ∃ more, Text.lenient (quoted bytes) = Text.lenient (lineText bytes) ++ "\r" ++ more) := by
  rcases quoted_cases bytes with ⟨hbare, hquoted⟩ | ⟨hbare, more, hquoted⟩
  · rw [hquoted, hbare]
    exact ⟨iff_of_true rfl rfl, fun hreturn => by cases hreturn⟩
  · rw [hquoted, hbare, lenient_append_return]
    refine ⟨iff_of_false (fun hsame => ?_) (by simp), fun _ => ⟨_, rfl⟩⟩
    have hlength := congrArg String.length hsame
    have hreturn : "\r".length = 1 := rfl
    rw [String.length_append, String.length_append] at hlength
    omega

end Source

private theorem Cursor.At.advanceBy_min {source : Bytes} (count : Nat) {cursor : Cursor}
    {offset : Nat} (h : cursor.At source offset) (hoffset : offset ≤ source.length) :
    (cursor.advanceBy count).At source (min (offset + count) source.length) := by
  induction count generalizing cursor offset with
  | zero => rwa [Nat.add_zero, Nat.min_eq_left hoffset]
  | succ count ih =>
      rcases Nat.lt_or_eq_of_le hoffset with hlt | rfl
      · have hnext := ih (h.advance hlt) hlt
        rwa [Nat.add_assoc, Nat.add_comm 1 count] at hnext
      · have hend : cursor.advance = cursor := by
          obtain ⟨rest, position⟩ := cursor
          have hrest : rest = [] := by simpa using h.rest
          rw [hrest]
          rfl
        rw [Cursor.advanceBy, hend, Nat.min_eq_right (by omega)]
        have hstay := ih h (Nat.le_refl _)
        rwa [Nat.min_eq_right (by omega)] at hstay

namespace Source

-- Wherever a cursor gets to, as long as the numbers of its place do not wrap around, there is a
-- line to quote. It is the line that the place counts, exactly if no bare carriage return ends that
-- line. Otherwise the quotation goes on behind the carriage return.
theorem lineAt?_quotes_line_iff (source : Bytes) (count : Nat) (position : Position)
    (hposition : ((Cursor.ofBytes source).advanceBy count).position = position)
    (hcount : min count source.length + 1 < UInt32.size) :
    position.offset.toNat = min count source.length ∧
    ∃ before start line text, position.line.toNat = before + 1 ∧
      (lines source)[before]? = some line ∧
      Encloses source position.offset.toNat start line ∧
      lineAt? source position = some text ∧
      (text = Text.lenient line ↔ isBareReturn (source.drop (start + line.length)) = false) ∧
      (isBareReturn (source.drop (start + line.length)) = true →
        ∃ more, text = Text.lenient line ++ "\r" ++ more) := by
  have hat := (Cursor.at_ofBytes source).advanceBy_min count (Nat.zero_le _)
  rw [Nat.zero_add] at hat
  obtain rfl := hat.position.symm.trans hposition
  obtain ⟨hline, -, hoffset⟩ := @positionAt_exact source _ hcount
  rw [hline, hoffset, lineAt?_positionAt (Nat.min_le_right ..) hcount]
  have hquoted := lenient_quoted_iff (source.drop (lineStart source (min count source.length)))
  rw [List.drop_drop] at hquoted
  exact ⟨rfl, _, _, _, _, Nat.add_comm .., getElem?_lines source _, encloses_lineText source _, rfl,
    hquoted⟩

-- A carriage return with its line feed, one for itself and one at the end.
def mixed : Bytes := "a\r\nb\rc\r".toUTF8.toList

theorem lineAt?_quotes_line_mixed :
    ((Cursor.ofBytes mixed).advanceBy 5).position = ⟨3, 1, 5⟩ ∧
    min 5 mixed.length + 1 < UInt32.size ∧ lines mixed = [[97], [98], [99], []] ∧
    ∃ before start line text, (3 : UInt32).toNat = before + 1 ∧
      (lines mixed)[before]? = some line ∧ Encloses mixed 5 start line ∧
      lineAt? mixed ⟨3, 1, 5⟩ = some text ∧
      (text = Text.lenient line ↔ isBareReturn (mixed.drop (start + line.length)) = false) := by
  have hposition : ((Cursor.ofBytes mixed).advanceBy 5).position = ⟨3, 1, 5⟩ := by decide +kernel
  have hcount : min 5 mixed.length + 1 < UInt32.size := by decide +kernel
  obtain ⟨-, before, start, line, text, hbefore, hline, hencloses, htext, hiff, -⟩ :=
    lineAt?_quotes_line_iff mixed 5 _ hposition hcount
  exact ⟨hposition, hcount, by decide +kernel, before, start, line, text, hbefore, hline, hencloses,
    htext, hiff⟩

-- The second line ends with the carriage return, and its quotation does not.
theorem lineAt?_bare_return :
    ((Cursor.ofBytes mixed).advanceBy 3).position = ⟨2, 1, 3⟩ ∧
    (lines mixed)[1]? = some [98] ∧ Text.lenient [98] = "b" ∧
    lineAt? mixed ⟨2, 1, 3⟩ = some "b\rc" := by
  decide +kernel

end Source

end Sluice

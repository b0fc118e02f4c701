import Mathlib
import Sluice.Proofs.Lines
import Sluice.Proofs.Places
import Sluice.Proofs.Words

namespace Sluice

namespace Source

variable {source : Bytes} {place offset : Nat}

-- From a `#` on up to the line feed that comes next, or to the end.
def InComment (source : Bytes) (place : Nat) : Prop :=
  place < source.length ∧ ∃ start ≤ place, source[start]? = some 35 ∧
    ∀ k, start ≤ k → k ≤ place → source[k]? ≠ some 10

def IsLayout (source : Bytes) (place : Nat) : Prop :=
  (∃ byte, source[place]? = some byte ∧ Lexeme.isBlank byte = true) ∨ InComment source place

-- The byte in front of the offset belongs to a comment.
def Running (source : Bytes) (offset : Nat) : Prop :=
  ∃ place, offset = place + 1 ∧ InComment source place

theorem running_succ : Running source (offset + 1) ↔ InComment source offset := by
  constructor
  · rintro ⟨place, hplace, hcomment⟩
    rwa [Nat.succ.inj hplace]
  · intro h
    exact ⟨offset, rfl, h⟩

theorem not_running_zero : ¬ Running source 0 := by
  rintro ⟨place, hplace, -⟩
  cases hplace

-- A comment goes on, or it begins here.
theorem inComment_iff {byte : UInt8} (h : source[place]? = some byte) :
    InComment source place ↔ byte ≠ 10 ∧ (Running source place ∨ byte = 35) := by
  have hplace := (List.getElem?_eq_some_iff.mp h).1
  constructor
  · rintro ⟨-, start, hstart, hsign, hline⟩
    have hbyte : byte ≠ 10 := by
      rintro rfl
      exact hline place hstart (Nat.le_refl _) h
    refine ⟨hbyte, ?_⟩
    rcases Nat.eq_or_lt_of_le hstart with rfl | hlt
    · rw [h] at hsign
      exact .inr (Option.some.inj hsign)
    · obtain ⟨before, rfl⟩ := Nat.exists_eq_add_of_lt hlt
      refine .inl ⟨_, rfl, by omega, start, by omega, hsign, ?_⟩
      intro k hk hle
      exact hline k hk (by omega)
  · rintro ⟨hbyte, ⟨before, rfl, -, start, hstart, hsign, hline⟩ | rfl⟩
    · refine ⟨hplace, start, by omega, hsign, ?_⟩
      intro k hk hle
      rcases Nat.eq_or_lt_of_le hle with rfl | hlt
      · rw [h]
        exact fun hten => hbyte (Option.some.inj hten)
      · exact hline k hk (by omega)
    · refine ⟨hplace, place, Nat.le_refl _, h, ?_⟩
      intro k hk hle
      obtain rfl := Nat.le_antisymm hk hle
      rw [h]
      decide

theorem isLayout_iff {byte : UInt8} (h : source[place]? = some byte) :
    IsLayout source place ↔
      Lexeme.isBlank byte = true ∨ byte ≠ 10 ∧ (Running source place ∨ byte = 35) := by
  rw [IsLayout, inComment_iff h, h]
  simp

-- Nothing but layout between two offsets.
structure Gap (source : Bytes) (start stop : Nat) : Prop where
  le : start ≤ stop
  layout : ∀ place, start ≤ place → place < stop → IsLayout source place

theorem Gap.cons {start stop : Nat} (hfirst : IsLayout source start)
    (h : Gap source (start + 1) stop) : Gap source start stop := by
  refine ⟨Nat.le_of_succ_le h.le, ?_⟩
  intro place hstart hstop
  rcases Nat.eq_or_lt_of_le hstart with rfl | hlt
  · exact hfirst
  · exact h.layout place hlt hstop

end Source

namespace Lexeme

open Source

variable {source : Bytes} {offset : Nat}

-- Layout is skipped up to a byte that is none.
structure Skips (source : Bytes) (offset length : Nat) : Prop where
  gap : Gap source offset (offset + length)
  inside : offset + length ≤ source.length
  ends : offset + length < source.length → ¬ IsLayout source (offset + length)

theorem skips_zero (hoffset : offset ≤ source.length)
    (h : offset < source.length → ¬ IsLayout source offset) : Skips source offset 0 :=
  ⟨⟨Nat.le_refl _, fun _ hstart hstop => absurd hstop (Nat.not_lt.mpr hstart)⟩, hoffset, h⟩

theorem Skips.cons {length : Nat} (hfirst : IsLayout source offset)
    (h : Skips source (offset + 1) length) : Skips source offset (1 + length) := by
  obtain ⟨hgap, hinside, hends⟩ := h
  rw [Nat.add_assoc] at hgap hinside hends
  exact ⟨hgap.cons hfirst, hinside, hends⟩

theorem skips_layoutLength (bytes : Bytes) {inComment : Bool} {offset : Nat}
    (hbytes : source.drop offset = bytes) (hoffset : offset ≤ source.length)
    (hcomment : inComment = true ↔ Running source offset) :
    Skips source offset (layoutLength inComment bytes) := by
  induction bytes generalizing inComment offset with
  | nil =>
      have hend := List.drop_eq_nil_iff.mp hbytes
      rw [layoutLength]
      exact skips_zero hoffset fun hlt => absurd hlt (Nat.not_lt.mpr hend)
  | cons byte bytes ih =>
      obtain ⟨hbyte, hnext⟩ := Cursor.cons_of_drop hbytes
      have hlt := (List.getElem?_eq_some_iff.mp hbyte).1
      have hlayout := isLayout_iff hbyte
      have hrunning := running_succ.trans (inComment_iff hbyte)
      rw [← hcomment] at hlayout hrunning
      unfold layoutLength
      split
      · rename_i hrun
        refine (ih hnext hlt ?_).cons (hlayout.mpr ?_)
        · simp [hrunning, hrun]
        · by_cases hten : byte = 10
          · exact .inl (by rw [hten]; rfl)
          · exact .inr ⟨hten, .inl hrun⟩
      · rename_i hrun
        split
        · rename_i hblank
          refine (ih hnext hlt ?_).cons (hlayout.mpr (.inl hblank))
          have hsign : byte ≠ 35 := by
            rintro rfl
            cases hblank
          simp [hrunning, hrun, hsign]
        · rename_i hblank
          split
          · rename_i hsign
            refine (ih hnext hlt ?_).cons (hlayout.mpr (.inr ⟨by rw [hsign]; decide, .inr hsign⟩))
            simp [hrunning, hsign]
          · rename_i hsign
            apply skips_zero hoffset
            intro _ hfound
            rcases hlayout.mp hfound with h | ⟨-, h | h⟩
            · exact hblank h
            · exact hrun h
            · exact hsign h

theorem getElem?_of_front {word : Word} (h : word.bytes <+: source.drop offset) {k : Nat}
    (hk : k < word.bytes.length) : source[offset + k]? = word.bytes[k]? := by
  rw [← List.getElem?_drop]
  exact (List.prefix_iff_getElem?.mp h k hk).trans (List.getElem?_eq_getElem hk).symm

-- A lexeme at its offset: the longest word there, outside of layout, and with the right position.
structure Stands (source : Bytes) (offset : Nat) (lexeme : Lexeme) : Prop where
  heads : lexeme.word.Heads (source.drop offset)
  outside : ¬ IsLayout source offset
  position : lexeme.position = positionAt source offset

def stop (offset : Nat) (lexeme : Lexeme) : Nat := offset + lexeme.word.bytes.length

namespace Stands

variable {lexeme : Lexeme} {place : Nat}

theorem offset_lt_stop (h : Stands source offset lexeme) : offset < stop offset lexeme :=
  Nat.lt_add_of_pos_right (List.length_pos_of_ne_nil h.heads.legal.ne_nil)

theorem stop_le (h : Stands source offset lexeme) : stop offset lexeme ≤ source.length := by
  have hle := h.heads.front.length_le
  have hlt := h.offset_lt_stop
  rw [List.length_drop] at hle
  unfold stop at *
  omega

theorem getElem?_eq (h : Stands source offset lexeme) {k : Nat}
    (hk : k < lexeme.word.bytes.length) : source[offset + k]? = lexeme.word.bytes[k]? :=
  getElem?_of_front h.heads.front hk

-- No byte of a lexeme is layout.
theorem not_isLayout (h : Stands source offset lexeme) {k : Nat}
    (hk : k < lexeme.word.bytes.length) : ¬ IsLayout source (offset + k) := by
  induction k with
  | zero => exact h.outside
  | succ k ih =>
      have hbefore : ¬ InComment source (offset + k) :=
        fun hcomment => ih (by omega) (.inr hcomment)
      have hbyte := h.getElem?_eq hk
      rw [List.getElem?_eq_getElem hk] at hbyte
      have hink := h.heads.legal.isInk _ (List.getElem_mem hk)
      simp only [isInk, Bool.and_eq_true, Bool.not_eq_true', decide_eq_true_eq] at hink
      rw [isLayout_iff hbyte, ← Nat.add_assoc, running_succ]
      rintro (hblank | ⟨-, hcomment | hsign⟩)
      · rw [hink.1.2] at hblank
        cases hblank
      · exact hbefore hcomment
      · exact hink.2 hsign

theorem not_running_stop (h : Stands source offset lexeme) :
    ¬ Running source (stop offset lexeme) := by
  obtain ⟨k, hk⟩ := Nat.exists_eq_add_of_lt h.offset_lt_stop
  rw [hk, running_succ]
  intro hcomment
  unfold stop at hk
  exact h.not_isLayout (by omega) (.inr hcomment)

-- What is cut out of the source from its position on is the lexeme.
theorem section_eq (h : Stands source offset lexeme) (hsource : source.length < UInt32.size) :
    (source.take (stop offset lexeme)).drop lexeme.position.offset.toNat = lexeme.word.bytes := by
  have hlt := h.offset_lt_stop
  have hle := h.stop_le
  have hoffset : lexeme.position.offset.toNat = offset := by
    rw [h.position]
    exact (positionAt_exact (by omega)).2.2
  rw [hoffset, stop, List.drop_take, Nat.add_sub_cancel_left]
  exact (List.prefix_iff_eq_take.mp h.heads.front).symm

end Stands

-- Lexemes from one offset on up to another one, with layout behind each of them.
inductive Cut (source : Bytes) : Nat → List (Nat × Lexeme) → Nat → Prop
  | nil (offset : Nat) : Cut source offset [] offset
  | cons {offset next finish : Nat} {lexeme : Lexeme} {rest : List (Nat × Lexeme)}
      (hstands : Stands source offset lexeme) (hgap : Gap source (stop offset lexeme) next)
      (hrest : Cut source next rest finish) : Cut source offset ((offset, lexeme) :: rest) finish

-- No word begins at a byte that is no layout either.
structure Stuck (source : Bytes) (place : Nat) (failure : Failure) : Prop where
  outside : ¬ IsLayout source place
  wordless : ∀ word : Word, word.Legal → ¬ word.bytes <+: source.drop place
  reported : ∃ byte, source[place]? = some byte ∧
    failure = .located (positionAt source place) (.unexpectedCharacter (Char.ofUInt8 byte))

theorem exists_skipLayout {cursor : Cursor} (hcursor : cursor.At source offset)
    (hoffset : offset ≤ source.length) (hcomment : ¬ Running source offset) :
    ∃ next, Gap source offset next ∧ next ≤ source.length ∧
      (next < source.length → ¬ IsLayout source next) ∧ (skipLayout cursor).At source next := by
  have hskips : Skips source offset (layoutLength false cursor.rest) :=
    skips_layoutLength _ hcursor.rest.symm hoffset (by simp [hcomment])
  exact ⟨_, hskips.gap, hskips.inside, hskips.ends, hcursor.advanceBy _ hskips.inside⟩

-- The scanner cuts the source up to its end or up to where it is stuck.
theorem meets_cut_scanFrom (cursor : Cursor) {offset : Nat} (hcursor : cursor.At source offset)
    (hinside : offset ≤ source.length)
    (hoffset : offset < source.length → ¬ IsLayout source offset) :
    Meets
      (fun lexemes => ∃ cuts, cuts.map Prod.snd = lexemes ∧ Cut source offset cuts source.length)
      (fun failure => ∃ cuts place, Cut source offset cuts place ∧ Stuck source place failure)
      (scanFrom cursor) := by
  match cursor with
  | ⟨[], position⟩ =>
      rw [scanFrom]
      have hend := List.drop_eq_nil_iff.mp hcursor.rest.symm
      obtain rfl := Nat.le_antisymm hinside hend
      exact ⟨[], rfl, .nil _⟩
  | ⟨first :: rest, position⟩ =>
      have hbyte := (Cursor.cons_of_drop hcursor.rest.symm).1
      have houtside := hoffset (List.getElem?_eq_some_iff.mp hbyte).1
      rw [scanFrom]
      split
      · rename_i hword
        refine ⟨[], offset, .nil offset, houtside, ?_, first, hbyte, ?_⟩
        · intro word hlegal
          rw [← hcursor.rest]
          exact Word.not_front_of_word? hword hlegal
        · rw [← hcursor.position]
      · rename_i word more hword
        obtain ⟨hheads, hlength⟩ := Word.heads_of_word? hword
        have hstands : Stands source offset ⟨word, position⟩ :=
          ⟨hcursor.rest ▸ hheads, houtside, hcursor.position⟩
        have hstop : stop offset ⟨word, position⟩ = offset + (more + 1) := by rw [stop, hlength]
        have hbehind := hcursor.advanceBy (more + 1) (hstop ▸ hstands.stop_le)
        rw [← hstop] at hbehind
        obtain ⟨next, hgap, hnext, hends, hskipped⟩ :=
          exists_skipLayout hbehind hstands.stop_le hstands.not_running_stop
        have hrest := meets_cut_scanFrom _ hskipped hnext hends
        split
        · rename_i failure hscan
          rw [hscan] at hrest
          obtain ⟨cuts, place, hcut, hstuck⟩ := hrest
          exact ⟨_, place, .cons hstands hgap hcut, hstuck⟩
        · rename_i lexemes hscan
          rw [hscan] at hrest
          obtain ⟨cuts, hlexemes, hcut⟩ := hrest
          exact ⟨_, by rw [List.map_cons, hlexemes], .cons hstands hgap hcut⟩
termination_by cursor.rest.length
decreasing_by
  simp only [skipLayout, Cursor.rest_advanceBy, List.length_drop, List.length_cons]
  omega

theorem meets_cut_scan (source : Bytes) :
    Meets
      (fun lexemes => ∃ cuts start, cuts.map Prod.snd = lexemes ∧ Gap source 0 start ∧
        Cut source start cuts source.length)
      (fun failure => ∃ cuts start place, Gap source 0 start ∧ Cut source start cuts place ∧
        Stuck source place failure)
      (scan source) := by
  obtain ⟨start, hgap, hstart, hends, hskipped⟩ :=
    exists_skipLayout (Cursor.at_ofBytes source) (Nat.zero_le _) not_running_zero
  have hscan := meets_cut_scanFrom _ hskipped hstart hends
  unfold scan
  cases hfound : scanFrom (skipLayout (Cursor.ofBytes source)) with
  | ok lexemes =>
      rw [hfound] at hscan
      obtain ⟨cuts, hlexemes, hcut⟩ := hscan
      exact ⟨cuts, start, hlexemes, hgap, hcut⟩
  | error failure =>
      rw [hfound] at hscan
      obtain ⟨cuts, place, hcut, hstuck⟩ := hscan
      exact ⟨cuts, start, place, hgap, hcut, hstuck⟩

-- The byte lies in the lexeme.
def Covers (place : Nat) (cut : Nat × Lexeme) : Prop :=
  cut.1 ≤ place ∧ place < stop cut.1 cut.2

namespace Cut

variable {finish place : Nat} {cuts : List (Nat × Lexeme)}

theorem le (h : Cut source offset cuts finish) : offset ≤ finish := by
  induction h with
  | nil => exact Nat.le_refl _
  | cons hstands hgap _ ih =>
      have hlt := hstands.offset_lt_stop
      have hle := hgap.le
      omega

theorem within (h : Cut source offset cuts finish) :
    ∀ cut ∈ cuts, Stands source cut.1 cut.2 ∧ offset ≤ cut.1 ∧ stop cut.1 cut.2 ≤ finish := by
  induction h with
  | nil => simp
  | @cons offset next finish lexeme rest hstands hgap hrest ih =>
      have hlt := hstands.offset_lt_stop
      have hle := hgap.le
      have hends := hrest.le
      rw [List.forall_mem_cons]
      refine ⟨⟨hstands, Nat.le_refl _, by dsimp only; omega⟩, ?_⟩
      intro cut hcut
      obtain ⟨hthere, hstart, hstop⟩ := ih cut hcut
      exact ⟨hthere, by omega, hstop⟩

theorem pairwise (h : Cut source offset cuts finish) :
    cuts.Pairwise fun one other => one.1 < other.1 ∧ stop one.1 one.2 ≤ other.1 := by
  induction h with
  | nil => exact .nil
  | @cons offset next finish lexeme rest hstands hgap hrest ih =>
      refine .cons ?_ ih
      intro other hother
      have hlt := hstands.offset_lt_stop
      have hle := hgap.le
      have hstart := (hrest.within other hother).2.1
      exact ⟨by dsimp only; omega, by dsimp only; omega⟩

-- Between the two ends a byte is layout exactly if no lexeme covers it.
theorem isLayout_iff (h : Cut source offset cuts finish) (hstart : offset ≤ place)
    (hstop : place < finish) : IsLayout source place ↔ ∀ cut ∈ cuts, ¬ Covers place cut := by
  induction h with
  | nil => omega
  | @cons offset next finish lexeme rest hstands hgap hrest ih =>
      rw [List.forall_mem_cons]
      by_cases hinside : place < stop offset lexeme
      · obtain ⟨k, rfl⟩ := Nat.exists_eq_add_of_le hstart
        have hk : k < lexeme.word.bytes.length := by
          unfold stop at hinside
          omega
        simp [hstands.not_isLayout hk, Covers, hinside]
      · have hfirst : ¬ Covers place (offset, lexeme) := fun hcovers => hinside hcovers.2
        by_cases hbefore : place < next
        · have hlayout := hgap.layout place (by omega) hbefore
          have hothers : ∀ cut ∈ rest, ¬ Covers place cut := by
            intro cut hcut hcovers
            have hle := (hrest.within cut hcut).2.1
            have hle' := hcovers.1
            omega
          exact ⟨fun _ => ⟨hfirst, hothers⟩, fun _ => hlayout⟩
        · rw [ih (by omega) hstop]
          exact ⟨fun hothers => ⟨hfirst, hothers⟩, fun hall => hall.2⟩

end Cut

-- A byte outside of layout that no word runs over, wherever the word begins.
structure Stray (source : Bytes) (place : Nat) : Prop where
  inside : place < source.length
  outside : ¬ IsLayout source place
  wordless : ∀ start ≤ place, ∀ word : Word, word.Legal → word.bytes <+: source.drop start →
    start + word.bytes.length ≤ place

section Strays

variable {start finish place : Nat} {cuts : List (Nat × Lexeme)}

-- In front of the end of a cut a byte is layout exactly if no lexeme covers it.
theorem isLayout_iff_of_cut (hgap : Gap source 0 start) (hcut : Cut source start cuts finish)
    (hplace : place < finish) : IsLayout source place ↔ ∀ cut ∈ cuts, ¬ Covers place cut := by
  by_cases hbefore : place < start
  · have hlayout := hgap.layout place (Nat.zero_le _) hbefore
    refine ⟨fun _ cut hmem hcovers => ?_, fun _ => hlayout⟩
    have hle := Nat.le_trans (hcut.within cut hmem).2.1 hcovers.1
    omega
  · exact hcut.isLayout_iff (Nat.not_lt.mp hbefore) hplace

theorem isLayout_or_covered (hgap : Gap source 0 start) (hcut : Cut source start cuts finish)
    (hplace : place < finish) :
    IsLayout source place ∨ ∃ cut ∈ cuts, Stands source cut.1 cut.2 ∧ Covers place cut ∧
      stop cut.1 cut.2 ≤ finish := by
  by_cases hcovered : ∃ cut ∈ cuts, Covers place cut
  · obtain ⟨cut, hmem, hcovers⟩ := hcovered
    obtain ⟨hstands, -, hstop⟩ := hcut.within cut hmem
    exact .inr ⟨cut, hmem, hstands, hcovers, hstop⟩
  · left
    rw [isLayout_iff_of_cut hgap hcut hplace]
    intro cut hmem hcovers
    exact hcovered ⟨cut, hmem, hcovers⟩

theorem not_stray_of_cut (hgap : Gap source 0 start) (hcut : Cut source start cuts finish)
    (hplace : place < finish) : ¬ Stray source place := by
  intro hstray
  rcases isLayout_or_covered hgap hcut hplace with hlayout | ⟨cut, -, hstands, hcovers, -⟩
  · exact hstray.outside hlayout
  · have hle := hstray.wordless cut.1 hcovers.1 cut.2.word hstands.heads.legal hstands.heads.front
    exact absurd hcovers.2 (Nat.not_lt.mpr hle)

-- A sign of two bytes does not run over the place where the scanner is stuck: its first byte would
-- have to be layout, or the end of a lexeme.
private theorem not_doubled_of_cut (hgap : Gap source 0 start)
    (hcut : Cut source start cuts (place + 1))
    (houtside : ¬ IsLayout source (place + 1)) {word : Word} {first second : UInt8}
    (hlegal : word.Legal) (hbytes : word.bytes = [first, second])
    (hfirst : Word.isDoubled first = true) (hsecond : second ≠ 10)
    (hfront : word.bytes <+: source.drop place) : False := by
  have hlength : word.bytes.length = 2 := by rw [hbytes]; rfl
  have hplace : source[place]? = some first := by
    have hget := getElem?_of_front (k := 0) hfront (by omega)
    rwa [hbytes] at hget
  have hnext : source[place + 1]? = some second := by
    have hget := getElem?_of_front (k := 1) hfront (by omega)
    rwa [hbytes] at hget
  rcases isLayout_or_covered hgap hcut (Nat.lt_succ_self place) with
    hlayout | ⟨⟨offset, lexeme⟩, -, hstands, ⟨hle, hlt⟩, hstop⟩
  · rcases hlayout with ⟨byte, hbyte, hblank⟩ | hcomment
    · rw [hplace] at hbyte
      obtain rfl := Option.some.inj hbyte
      have hink : ∀ byte, Word.isDoubled byte = true → isBlank byte = false := by decide +kernel
      rw [hink first hfirst] at hblank
      cases hblank
    · have hrunning := running_succ.mpr hcomment
      exact houtside ((Source.isLayout_iff hnext).mpr (.inr ⟨hsecond, .inl hrunning⟩))
  · dsimp only at hstands hle hlt hstop
    obtain ⟨k, rfl⟩ := Nat.exists_eq_add_of_le hle
    unfold stop at hlt hstop
    rcases Nat.eq_zero_or_pos k with rfl | hk
    · have hlongest := hstands.heads.longest word hlegal hfront
      omega
    · have hget := hstands.getElem?_eq (k := k) (by omega)
      rw [hplace] at hget
      rw [hstands.heads.legal.not_isDoubled_later hk hget.symm] at hfirst
      cases hfirst

private theorem stray_of_stuck {failure : Failure} (hgap : Gap source 0 start)
    (hcut : Cut source start cuts place) (hstuck : Stuck source place failure) :
    Stray source place := by
  obtain ⟨houtside, hwordless, byte, hbyte, -⟩ := hstuck
  refine ⟨(List.getElem?_eq_some_iff.mp hbyte).1, houtside, ?_⟩
  intro begun hbegun word hlegal hfront
  by_contra hover
  obtain ⟨k, rfl⟩ := Nat.exists_eq_add_of_le hbegun
  have hget := getElem?_of_front (k := k) hfront (by omega)
  rw [hbyte] at hget
  rcases Nat.eq_zero_or_pos k with rfl | hk
  · exact hwordless word hlegal hfront
  · rcases hlegal.later hk hget.symm with ⟨single, hsingle, hbytes⟩ | ⟨hdoubled, rfl⟩
    · apply hwordless single hsingle
      obtain ⟨hinside, hfirst⟩ := List.getElem?_eq_some_iff.mp hbyte
      rw [hbytes, List.drop_eq_getElem_cons hinside, hfirst]
      exact List.cons_prefix_cons.mpr ⟨rfl, List.nil_prefix⟩
    · obtain ⟨first, second, hbytes, hfirst, -, hsecond⟩ := Word.bytes_of_doubled hdoubled
      exact not_doubled_of_cut hgap hcut houtside hlegal hbytes hfirst hsecond hfront

theorem not_stray_of_scan {lexemes : List Lexeme} (h : scan source = .ok lexemes) (place : Nat) :
    ¬ Stray source place := by
  have hscan := meets_cut_scan source
  rw [h] at hscan
  obtain ⟨cuts, start, -, hgap, hcut⟩ := hscan
  intro hstray
  exact not_stray_of_cut hgap hcut hstray.inside hstray

-- The scanner reports the first stray byte.
theorem stray_of_scan {failure : Failure} (h : scan source = .error failure) :
    ∃ place byte, Stray source place ∧ (∀ earlier < place, ¬ Stray source earlier) ∧
      source[place]? = some byte ∧
      failure = .located (positionAt source place) (.unexpectedCharacter (Char.ofUInt8 byte)) := by
  have hscan := meets_cut_scan source
  rw [h] at hscan
  obtain ⟨cuts, start, place, hgap, hcut, hstuck⟩ := hscan
  obtain ⟨byte, hbyte, hfailure⟩ := hstuck.reported
  exact ⟨place, byte, stray_of_stuck hgap hcut hstuck,
    fun _ hearlier => not_stray_of_cut hgap hcut hearlier, hbyte, hfailure⟩

end Strays

-- A source that can be scanned is cut into lexemes and layout. Each lexeme is the longest word at
-- its offset and has the position of that offset. The scanner fails exactly if there is a byte that
-- is neither, and tells the place of the first one. In a source of fewer than 2 ^ 32 bytes positions
-- do not wrap around, and the bytes from the position of a lexeme up to its end are its text.
theorem scan_cuts_source (source : Bytes) :
    (∀ lexemes, scan source = .ok lexemes → ∃ cuts : List (Nat × Lexeme),
      cuts.map Prod.snd = lexemes ∧ (∀ cut ∈ cuts, Stands source cut.1 cut.2) ∧
      (cuts.Pairwise fun one other => one.1 < other.1 ∧ stop one.1 one.2 ≤ other.1) ∧
      ∀ place < source.length, IsLayout source place ↔ ∀ cut ∈ cuts, ¬ Covers place cut) ∧
    (∀ failure, scan source = .error failure ↔ ∃ place byte, Stray source place ∧
      (∀ earlier < place, ¬ Stray source earlier) ∧ source[place]? = some byte ∧
      failure = .located (positionAt source place) (.unexpectedCharacter (Char.ofUInt8 byte))) ∧
    ((∃ failure, scan source = .error failure) ↔ ∃ place, Stray source place) ∧
    (source.length < UInt32.size →
      (∀ offset < source.length,
        (positionAt source offset).line.toNat = 1 + lineEnds source offset ∧
        (positionAt source offset).column.toNat = 1 + (offset - lineStart source offset) ∧
        (positionAt source offset).offset.toNat = offset) ∧
      ∀ offset lexeme, Stands source offset lexeme →
        (source.take (stop offset lexeme)).drop lexeme.position.offset.toNat =
          lexeme.word.bytes) := by
  refine ⟨?_, ?_, ?_, ?_⟩
  · intro lexemes hlexemes
    have hscan := meets_cut_scan source
    rw [hlexemes] at hscan
    obtain ⟨cuts, start, hcuts, hgap, hcut⟩ := hscan
    exact ⟨cuts, hcuts, fun cut hmem => (hcut.within cut hmem).1, hcut.pairwise,
      fun place hplace => isLayout_iff_of_cut hgap hcut hplace⟩
  · intro failure
    refine ⟨stray_of_scan, ?_⟩
    rintro ⟨place, byte, hstray, hfirst, hbyte, rfl⟩
    cases hscan : scan source with
    | ok lexemes => exact absurd hstray (not_stray_of_scan hscan place)
    | error failure =>
        obtain ⟨found, other, hfound, hearlier, hother, rfl⟩ := stray_of_scan hscan
        -- both are the first one
        rcases Nat.lt_trichotomy place found with hlt | rfl | hlt
        · exact absurd hstray (hearlier place hlt)
        · rw [hbyte] at hother
          rw [Option.some.inj hother]
        · exact absurd hfound (hfirst found hlt)
  · constructor
    · rintro ⟨failure, hfailure⟩
      obtain ⟨place, -, hstray, -⟩ := stray_of_scan hfailure
      exact ⟨place, hstray⟩
    · rintro ⟨place, hstray⟩
      cases hscan : scan source with
      | ok lexemes => exact absurd hstray (not_stray_of_scan hscan place)
      | error failure => exact ⟨failure, rfl⟩
  · intro hsource
    exact ⟨fun offset hoffset => positionAt_exact (by omega),
      fun offset lexeme hstands => hstands.section_eq hsource⟩

-- A comment that ends with a line, and a colon that begins no sign.
def commented : Bytes := "a := 1.5 # :\r\n|> b".toUTF8.toList

def broken : Bytes := "a # :\n :".toUTF8.toList

theorem scan_cuts_source_commented :
    scan commented = .ok [⟨.name "a", ⟨1, 1, 0⟩⟩, ⟨.mark .assign, ⟨1, 3, 2⟩⟩,
      ⟨.number "1.5", ⟨1, 6, 5⟩⟩, ⟨.mark .pipe, ⟨2, 1, 14⟩⟩, ⟨.name "b", ⟨2, 4, 17⟩⟩] ∧
    (∃ cuts : List (Nat × Lexeme), cuts.length = 5 ∧
      (∀ cut ∈ cuts, Stands commented cut.1 cut.2) ∧
      ∀ place < commented.length, IsLayout commented place ↔ ∀ cut ∈ cuts, ¬ Covers place cut) ∧
    scan broken = .error (.located ⟨2, 2, 7⟩ (.unexpectedCharacter ':')) ∧
    (∃ place, Stray broken place) ∧ (positionAt broken 7).offset.toNat = 7 := by
  have hscan : scan commented = .ok [⟨.name "a", ⟨1, 1, 0⟩⟩, ⟨.mark .assign, ⟨1, 3, 2⟩⟩,
      ⟨.number "1.5", ⟨1, 6, 5⟩⟩, ⟨.mark .pipe, ⟨2, 1, 14⟩⟩, ⟨.name "b", ⟨2, 4, 17⟩⟩] := by
    decide +kernel
  have hfails : scan broken = .error (.located ⟨2, 2, 7⟩ (.unexpectedCharacter ':')) := by
    decide +kernel
  obtain ⟨cuts, hcuts, hstands, -, hlayout⟩ := (scan_cuts_source commented).1 _ hscan
  obtain ⟨-, -, hstray, hexact⟩ := scan_cuts_source broken
  refine ⟨hscan, ⟨cuts, ?_, hstands, hlayout⟩, hfails, hstray.mp ⟨_, hfails⟩, ?_⟩
  · rw [← List.length_map Prod.snd, hcuts]
    rfl
  · exact ((hexact (by decide +kernel)).1 7 (by decide +kernel)).2.2

end Lexeme

end Sluice

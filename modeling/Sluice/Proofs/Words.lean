import Mathlib
import Sluice.Lexeme.Scan

namespace Sluice

namespace Text

theorem encode_ofList (chars : List Char) :
    encode (String.ofList chars) = chars.flatMap String.utf8EncodeChar := by
  simp [encode, String.toUTF8_eq_toByteArray, List.utf8Encode]

theorem encode_append (left right : String) :
    encode (left ++ right) = encode left ++ encode right := by
  simp [encode]

theorem encode_injective : Function.Injective encode := by
  intro left right h
  apply String.toByteArray_inj.mp
  apply ByteArray.ext
  exact Array.toList_inj.mp h

private theorem utf8EncodeChar_ofUInt8 : ∀ {byte : UInt8}, byte < 128 →
    String.utf8EncodeChar (Char.ofUInt8 byte) = [byte] := by
  decide +kernel

-- Bytes below 128 are characters of their own.
theorem encode_latin {bytes : Bytes} (h : ∀ byte ∈ bytes, byte < 128) :
    encode (latin bytes) = bytes := by
  rw [latin, encode_ofList, List.flatMap_map]
  induction bytes with
  | nil => rfl
  | cons byte bytes ih =>
      rw [List.flatMap_cons, ih fun other hother => h other (List.mem_cons_of_mem _ hother),
        utf8EncodeChar_ofUInt8 (h byte (List.mem_cons_self ..)), List.singleton_append]

end Text

-- The bytes of a sign.
def Mark.codes : Mark → Bytes
  | .assign => [58, 61]
  | .pipe => [124, 62]
  | .plus => [43]
  | .minus => [45]
  | .star => [42]
  | .comma => [44]
  | .dot => [46]
  | .semicolon => [59]
  | .opening .round => [40]
  | .opening .square => [91]
  | .opening .curly => [123]
  | .closing .round => [41]
  | .closing .square => [93]
  | .closing .curly => [125]

theorem Mark.encode_text (mark : Mark) : Text.encode mark.text = mark.codes := by
  rcases mark with _ | _ | _ | _ | _ | _ | _ | _ | ⟨⟨⟩⟩ | ⟨⟨⟩⟩ <;> decide +kernel

theorem Mark.length_text (mark : Mark) : mark.text.length = mark.codes.length := by
  rcases mark with _ | _ | _ | _ | _ | _ | _ | _ | ⟨⟨⟩⟩ | ⟨⟨⟩⟩ <;> decide +kernel

namespace Lexeme

variable {first : UInt8} {rest : Bytes}

-- One digit or more.
def Digits (bytes : Bytes) : Prop := bytes ≠ [] ∧ ∀ byte ∈ bytes, isDigit byte = true

-- Digits, with a point and more digits or without.
def IsNumber (bytes : Bytes) : Prop :=
  Digits bytes ∨ ∃ whole fraction, Digits whole ∧ Digits fraction ∧ bytes = whole ++ 46 :: fraction

def IsName (bytes : Bytes) : Prop :=
  ∃ first rest, bytes = first :: rest ∧ startsName first = true ∧
    ∀ byte ∈ rest, continuesName byte = true

-- A byte of a word: no blank, no beginning of a comment, no part of a longer character.
def isInk (byte : UInt8) : Bool := byte < 128 && !isBlank byte && byte ≠ 35

theorem isInk_of_continuesName : ∀ byte : UInt8, continuesName byte = true → isInk byte = true := by
  decide +kernel

theorem isInk_of_startsName : ∀ byte : UInt8, startsName byte = true → isInk byte = true := by
  decide +kernel

theorem isInk_of_isDigit : ∀ byte : UInt8, isDigit byte = true → isInk byte = true := by
  decide +kernel

theorem IsNumber.isInk {bytes : Bytes} (h : IsNumber bytes) :
    ∀ byte ∈ bytes, isInk byte = true := by
  intro byte hbyte
  rcases h with hdigits | ⟨whole, fraction, hwhole, hfraction, rfl⟩
  · exact isInk_of_isDigit byte (hdigits.2 byte hbyte)
  · rw [List.mem_append, List.mem_cons] at hbyte
    rcases hbyte with hbyte | rfl | hbyte
    · exact isInk_of_isDigit byte (hwhole.2 byte hbyte)
    · decide
    · exact isInk_of_isDigit byte (hfraction.2 byte hbyte)

theorem IsName.isInk {bytes : Bytes} (h : IsName bytes) : ∀ byte ∈ bytes, isInk byte = true := by
  obtain ⟨first, rest, rfl, hfirst, hrest⟩ := h
  rw [List.forall_mem_cons]
  exact ⟨isInk_of_startsName first hfirst,
    fun byte hbyte => isInk_of_continuesName byte (hrest byte hbyte)⟩

-- Such bytes come back from the text that is made of them.
theorem encode_latin_of_isInk {bytes : Bytes} (h : ∀ byte ∈ bytes, isInk byte = true) :
    Text.encode (Text.latin bytes) = bytes := by
  apply Text.encode_latin
  intro byte hbyte
  have hink := h byte hbyte
  simp only [isInk, Bool.and_eq_true, decide_eq_true_eq] at hink
  exact hink.1.1

theorem not_startsName_of_isDigit :
    ∀ byte : UInt8, isDigit byte = true → startsName byte = false := by
  decide +kernel

section Runs

variable {test : UInt8 → Bool} {front tail : Bytes}

-- A run of bytes that pass a test ends here.
def Breaks (test : UInt8 → Bool) (tail : Bytes) : Prop :=
  ∀ byte ∈ tail.head?, test byte = false

theorem breaks_cons {byte : UInt8} (h : test byte = false) : Breaks test (byte :: tail) := by
  intro other hother
  cases hother
  exact h

theorem takeWhile_run (hfront : ∀ byte ∈ front, test byte = true) (htail : Breaks test tail) :
    (front ++ tail).takeWhile test = front := by
  rw [List.takeWhile_append_of_pos hfront]
  cases tail with
  | nil => simp
  | cons byte tail => simp [htail byte rfl]

theorem breaks_dropWhile (test : UInt8 → Bool) (bytes : Bytes) :
    Breaks test (bytes.dropWhile test) := by
  induction bytes with
  | nil => simp [Breaks]
  | cons byte bytes ih =>
      rw [List.dropWhile_cons]
      split
      · exact ih
      · rename_i hbyte
        exact breaks_cons (Bool.eq_false_of_not_eq_true hbyte)

theorem prefix_takeWhile {bytes : Bytes} (hfront : ∀ byte ∈ front, test byte = true)
    (h : front <+: bytes) : front <+: bytes.takeWhile test := by
  obtain ⟨rest, rfl⟩ := h
  rw [List.takeWhile_append_of_pos hfront]
  exact List.prefix_append ..

-- Every run at the front lies inside of the longest one.
theorem prefix_run {other : Bytes} (hother : ∀ byte ∈ other, test byte = true)
    (hfront : ∀ byte ∈ front, test byte = true) (htail : Breaks test tail)
    (h : other <+: front ++ tail) : other <+: front := by
  have htaken := prefix_takeWhile hother h
  rwa [takeWhile_run hfront htail] at htaken

end Runs

section Numbers

variable {digits tail : Bytes}

theorem numberLength_fraction {fraction : Bytes} (h : Digits digits) (hfraction : Digits fraction)
    (htail : Breaks isDigit tail) :
    numberLength (digits ++ 46 :: (fraction ++ tail)) = digits.length + 1 + fraction.length := by
  obtain ⟨next, fraction, rfl⟩ := List.exists_cons_of_ne_nil hfraction.1
  have hwhole : (digits ++ 46 :: next :: (fraction ++ tail)).takeWhile isDigit = digits :=
    takeWhile_run h.2 (breaks_cons rfl)
  have hmore : (next :: (fraction ++ tail)).takeWhile isDigit = next :: fraction :=
    takeWhile_run hfraction.2 htail
  unfold numberLength
  simp only [List.cons_append, hwhole, List.drop_left, hfraction.2 next (List.mem_cons_self ..),
    if_true, hmore]

theorem numberLength_whole (h : Digits digits) (htail : Breaks isDigit tail)
    (hwhole : ¬ ∃ fraction rest, Digits fraction ∧ tail = 46 :: (fraction ++ rest)) :
    numberLength (digits ++ tail) = digits.length := by
  unfold numberLength
  simp only [takeWhile_run h.2 htail, List.drop_left]
  split
  · rename_i next rest
    have hnext : isDigit next = false := by
      by_contra hdigit
      exact hwhole ⟨[next], rest, ⟨by simp, by simpa using hdigit⟩, rfl⟩
    simp [hnext]
  · rfl

-- A point ends the digits in front of it.
theorem Digits.eq_of_point {other fraction : Bytes} (hother : Digits other) (h : Digits digits)
    (htail : Breaks isDigit tail) (hahead : other ++ 46 :: fraction <+: digits ++ tail) :
    other = digits ∧ 46 :: fraction <+: tail := by
  obtain ⟨rest, hrest⟩ := hahead
  have hequal : other = digits := by
    rw [← takeWhile_run h.2 htail, ← hrest, List.append_assoc, List.cons_append,
      takeWhile_run hother.2 (breaks_cons rfl)]
  subst hequal
  rw [List.append_assoc, List.append_cancel_left_eq] at hrest
  exact ⟨rfl, rest, hrest⟩

theorem digits_takeWhile {bytes : Bytes} (h : bytes.takeWhile isDigit ≠ []) :
    Digits (bytes.takeWhile isDigit) :=
  ⟨h, fun _ hbyte => List.mem_takeWhile_imp hbyte⟩

-- So many bytes at the front are a number, and no more.
structure LongestNumber (bytes : Bytes) (length : Nat) : Prop where
  isNumber : IsNumber (bytes.take length)
  length_le : length ≤ bytes.length
  longest : ∀ other, IsNumber other → other <+: bytes → other.length ≤ length

private theorem longestNumber_whole (h : Digits digits) (htail : Breaks isDigit tail)
    (hwhole : ¬ ∃ fraction rest, Digits fraction ∧ tail = 46 :: (fraction ++ rest)) :
    LongestNumber (digits ++ tail) digits.length := by
  refine ⟨.inl (by rwa [List.take_left]), by simp, ?_⟩
  rintro other (hother | ⟨whole, fraction, hother, hfraction, rfl⟩) hahead
  · exact (prefix_run hother.2 h.2 htail hahead).length_le
  · obtain ⟨-, rest, hrest⟩ := hother.eq_of_point h htail hahead
    exact absurd ⟨fraction, rest, hfraction, hrest.symm⟩ hwhole

private theorem longestNumber_fraction {fraction : Bytes} (h : Digits digits)
    (hfraction : Digits fraction) (htail : Breaks isDigit tail) :
    LongestNumber (digits ++ 46 :: (fraction ++ tail)) (digits.length + 1 + fraction.length) := by
  have hpoint : Breaks isDigit (46 :: (fraction ++ tail)) := breaks_cons rfl
  refine ⟨.inr ⟨digits, fraction, h, hfraction, ?_⟩, ?_, ?_⟩
  · rw [List.take_append, List.take_of_length_le (by omega), Nat.add_assoc,
      Nat.add_sub_cancel_left, Nat.add_comm, List.take_succ_cons, List.take_left]
  · simp only [List.length_append, List.length_cons]
    omega
  · rintro other (hother | ⟨whole, more, hother, hmore, rfl⟩) hahead
    · have hle := (prefix_run hother.2 h.2 hpoint hahead).length_le
      omega
    · obtain ⟨rfl, hbehind⟩ := hother.eq_of_point h hpoint hahead
      have hinside := prefix_run hmore.2 hfraction.2 htail (List.cons_prefix_cons.mp hbehind).2
      have hle := hinside.length_le
      simp only [List.length_append, List.length_cons]
      omega

theorem longestNumber_numberLength (h : isDigit first = true) :
    LongestNumber (first :: rest) (numberLength (first :: rest)) := by
  have hdigits : Digits ((first :: rest).takeWhile isDigit) := digits_takeWhile (by simp [h])
  have htail := breaks_dropWhile isDigit (first :: rest)
  have hsplit := List.takeWhile_append_dropWhile (p := isDigit) (l := first :: rest)
  generalize (first :: rest).takeWhile isDigit = digits at *
  generalize (first :: rest).dropWhile isDigit = tail at *
  rw [← hsplit]
  by_cases hpoint : ∃ fraction rest, Digits fraction ∧ tail = 46 :: (fraction ++ rest)
  · obtain ⟨begun, more, hbegun, rfl⟩ := hpoint
    -- the fraction goes on as far as there are digits
    have hbegins := prefix_takeWhile hbegun.2 (List.prefix_append begun more)
    have hfraction : Digits ((begun ++ more).takeWhile isDigit) := by
      apply digits_takeWhile
      intro hnil
      exact hbegun.1 (List.prefix_nil.mp (hnil ▸ hbegins))
    have hend := breaks_dropWhile isDigit (begun ++ more)
    rw [← List.takeWhile_append_dropWhile (p := isDigit) (l := begun ++ more),
      numberLength_fraction hdigits hfraction hend]
    exact longestNumber_fraction hdigits hfraction hend
  · rw [numberLength_whole hdigits htail hpoint]
    exact longestNumber_whole hdigits htail hpoint

end Numbers

section Marks

theorem eq_of_ofUInt8 {byte : UInt8} {c : Char} (h : Char.ofUInt8 byte = c) :
    byte = c.val.toUInt8 := by
  subst h
  simp [Char.ofUInt8]

theorem mark?_eq_some_iff {mark : Mark} :
    mark? first rest = some mark ↔ mark.codes <+: first :: rest := by
  constructor
  · intro h
    unfold mark? at h
    split at h
    case h_1 hfirst hnext =>
      cases h
      obtain ⟨next, hhead, hsecond⟩ := Option.map_eq_some_iff.mp hnext
      obtain ⟨tail, rfl⟩ := List.head?_eq_some_iff.mp hhead
      obtain rfl := eq_of_ofUInt8 hfirst
      obtain rfl := eq_of_ofUInt8 hsecond
      exact ⟨tail, rfl⟩
    case h_2 hfirst hnext =>
      cases h
      obtain ⟨next, hhead, hsecond⟩ := Option.map_eq_some_iff.mp hnext
      obtain ⟨tail, rfl⟩ := List.head?_eq_some_iff.mp hhead
      obtain rfl := eq_of_ofUInt8 hfirst
      obtain rfl := eq_of_ofUInt8 hsecond
      exact ⟨tail, rfl⟩
    case h_15 => cases h
    all_goals
      rename_i hfirst
      cases h
      obtain rfl := eq_of_ofUInt8 hfirst
      exact ⟨rest, rfl⟩
  · rintro ⟨tail, htail⟩
    rcases mark with _ | _ | _ | _ | _ | _ | _ | _ | ⟨⟨⟩⟩ | ⟨⟨⟩⟩ <;> cases htail <;> rfl

end Marks

end Lexeme

namespace Word

open Lexeme

def bytes (word : Word) : Bytes := Text.encode word.text

theorem bytes_mark (sign : Mark) : (mark sign).bytes = sign.codes := sign.encode_text

def Legal : Word → Prop
  | .number text => IsNumber (Text.encode text)
  | .name text => IsName (Text.encode text)
  | .mark _ => True

-- The word stands at the front, and no longer one does.
structure Heads (word : Word) (bytes : Bytes) : Prop where
  legal : word.Legal
  front : word.bytes <+: bytes
  longest : ∀ other : Word, other.Legal → other.bytes <+: bytes →
    other.bytes.length ≤ word.bytes.length

variable {word other : Word} {first : UInt8} {rest : Bytes}

theorem Legal.isInk (h : word.Legal) : ∀ byte ∈ word.bytes, isInk byte = true := by
  cases word with
  | number text => exact IsNumber.isInk h
  | name text => exact IsName.isInk h
  | mark sign =>
      rw [bytes_mark]
      rcases sign with _ | _ | _ | _ | _ | _ | _ | _ | ⟨⟨⟩⟩ | ⟨⟨⟩⟩ <;> decide +kernel

-- What a word is can be told from its first byte.
def opensWith (word : Word) (byte : UInt8) : Bool :=
  match word with
  | .number _ => isDigit byte
  | .name _ => startsName byte
  | .mark _ => !isDigit byte && !startsName byte

theorem Legal.exists_cons (h : word.Legal) :
    ∃ first rest, word.bytes = first :: rest ∧ word.opensWith first = true := by
  cases word with
  | number text =>
      rcases h with ⟨hne, hdigits⟩ | ⟨whole, fraction, ⟨hne, hdigits⟩, -, hbytes⟩
      · obtain ⟨first, rest, hcons⟩ := List.exists_cons_of_ne_nil hne
        exact ⟨first, rest, hcons, hdigits first (by simp [hcons])⟩
      · obtain ⟨first, rest, rfl⟩ := List.exists_cons_of_ne_nil hne
        exact ⟨first, _, hbytes, hdigits first (List.mem_cons_self ..)⟩
  | name text =>
      obtain ⟨first, rest, hbytes, hfirst, -⟩ := h
      exact ⟨first, rest, hbytes, hfirst⟩
  | mark sign =>
      rw [bytes_mark]
      rcases sign with _ | _ | _ | _ | _ | _ | _ | _ | ⟨⟨⟩⟩ | ⟨⟨⟩⟩ <;>
        exact ⟨_, _, rfl, by decide⟩

theorem Legal.ne_nil (h : word.Legal) : word.bytes ≠ [] := by
  obtain ⟨first, rest, hbytes, -⟩ := h.exists_cons
  simp [hbytes]

theorem Legal.opensWith_of_front (h : word.Legal) (hfront : word.bytes <+: first :: rest) :
    word.opensWith first = true := by
  obtain ⟨head, tail, hbytes, hhead⟩ := h.exists_cons
  rw [hbytes, List.cons_prefix_cons] at hfront
  rwa [← hfront.1]

theorem codes_prefix_free {left right : Mark} (h : left.codes <+: right.codes) : left = right := by
  revert h
  rcases left with _ | _ | _ | _ | _ | _ | _ | _ | ⟨⟨⟩⟩ | ⟨⟨⟩⟩ <;>
    rcases right with _ | _ | _ | _ | _ | _ | _ | _ | ⟨⟨⟩⟩ | ⟨⟨⟩⟩ <;> decide

theorem Legal.exists_number (h : word.Legal) (hfront : word.bytes <+: first :: rest)
    (hfirst : isDigit first = true) : ∃ text, word = .number text := by
  have hbegins := h.opensWith_of_front hfront
  cases word with
  | number text => exact ⟨text, rfl⟩
  | name text => simp [opensWith, not_startsName_of_isDigit first hfirst] at hbegins
  | mark sign => simp [opensWith, hfirst] at hbegins

theorem Legal.exists_name (h : word.Legal) (hfront : word.bytes <+: first :: rest)
    (hdigit : isDigit first = false) (hfirst : startsName first = true) :
    ∃ text, word = .name text := by
  have hbegins := h.opensWith_of_front hfront
  cases word with
  | number text => simp [opensWith, hdigit] at hbegins
  | name text => exact ⟨text, rfl⟩
  | mark sign => simp [opensWith, hfirst] at hbegins

theorem Legal.exists_mark (h : word.Legal) (hfront : word.bytes <+: first :: rest)
    (hdigit : isDigit first = false) (hfirst : startsName first = false) :
    ∃ sign, word = .mark sign := by
  have hbegins := h.opensWith_of_front hfront
  cases word with
  | number text => simp [opensWith, hdigit] at hbegins
  | name text => simp [opensWith, hfirst] at hbegins
  | mark sign => exact ⟨sign, rfl⟩

theorem heads_number (h : isDigit first = true) {length : Nat}
    (hlongest : LongestNumber (first :: rest) length) :
    (number (Text.latin ((first :: rest).take length))).Heads (first :: rest) ∧
      (number (Text.latin ((first :: rest).take length))).bytes.length = length - 1 + 1 := by
  have hbytes : (number (Text.latin ((first :: rest).take length))).bytes =
      (first :: rest).take length := encode_latin_of_isInk hlongest.isNumber.isInk
  have hlength : ((first :: rest).take length).length = length := by
    rw [List.length_take, Nat.min_eq_left hlongest.length_le]
  have hlegal : (number (Text.latin ((first :: rest).take length))).Legal := by
    have hnumber := hlongest.isNumber
    rwa [← hbytes] at hnumber
  have hpositive := List.length_pos_of_ne_nil hlegal.ne_nil
  rw [hbytes, hlength] at hpositive
  refine ⟨⟨hlegal, ?_, ?_⟩, by rw [hbytes, hlength]; omega⟩
  · rw [hbytes]
    exact List.take_prefix ..
  · intro other hother hfront
    obtain ⟨text, rfl⟩ := hother.exists_number hfront h
    rw [hbytes, hlength]
    exact hlongest.longest _ hother hfront

theorem heads_name (hdigit : isDigit first = false) (h : startsName first = true) :
    (name (Text.latin (first :: rest.takeWhile continuesName))).Heads (first :: rest) ∧
      (name (Text.latin (first :: rest.takeWhile continuesName))).bytes.length =
        (first :: rest.takeWhile continuesName).length := by
  have hname : IsName (first :: rest.takeWhile continuesName) :=
    ⟨first, _, rfl, h, fun _ hbyte => List.mem_takeWhile_imp hbyte⟩
  have hbytes : (name (Text.latin (first :: rest.takeWhile continuesName))).bytes =
      first :: rest.takeWhile continuesName := encode_latin_of_isInk hname.isInk
  have hlegal : (name (Text.latin (first :: rest.takeWhile continuesName))).Legal := by
    rwa [← hbytes] at hname
  refine ⟨⟨hlegal, ?_, ?_⟩, by rw [hbytes]⟩
  · rw [hbytes, List.cons_prefix_cons]
    exact ⟨rfl, List.takeWhile_prefix ..⟩
  · intro other hother hfront
    obtain ⟨text, rfl⟩ := hother.exists_name hfront hdigit h
    obtain ⟨head, tail, htext, -, htail⟩ := hother
    have hcons : (name text).bytes = head :: tail := htext
    rw [hcons, List.cons_prefix_cons] at hfront
    have hle := (prefix_takeWhile htail hfront.2).length_le
    rw [hbytes, hcons, List.length_cons, List.length_cons]
    omega

theorem heads_mark (hdigit : isDigit first = false) (hfirst : startsName first = false)
    {sign : Mark} (h : sign.codes <+: first :: rest) : (mark sign).Heads (first :: rest) := by
  refine ⟨trivial, by rwa [bytes_mark], ?_⟩
  intro other hother hfront
  obtain ⟨found, rfl⟩ := hother.exists_mark hfront hdigit hfirst
  rw [bytes_mark] at hfront
  rcases List.prefix_or_prefix_of_prefix h hfront with hahead | hahead
  · rw [codes_prefix_free hahead]
  · rw [codes_prefix_free hahead]

-- The scanner takes the longest word.
theorem heads_of_word? {more : Nat} (h : word? first rest = some (word, more)) :
    word.Heads (first :: rest) ∧ word.bytes.length = more + 1 := by
  unfold word? at h
  split at h
  · rename_i hfirst
    cases h
    exact heads_number hfirst (longestNumber_numberLength hfirst)
  · rename_i hdigit
    rw [Bool.not_eq_true] at hdigit
    split at h
    · rename_i hfirst
      cases h
      exact heads_name hdigit hfirst
    · rename_i hfirst
      rw [Bool.not_eq_true] at hfirst
      obtain ⟨sign, hsign, hfound⟩ := Option.map_eq_some_iff.mp h
      cases hfound
      have hcodes := mark?_eq_some_iff.mp hsign
      have hheads := heads_mark hdigit hfirst hcodes
      refine ⟨hheads, ?_⟩
      have hpositive := List.length_pos_of_ne_nil hheads.legal.ne_nil
      rw [bytes_mark] at hpositive ⊢
      rw [sign.length_text]
      omega

-- Where it takes none, no word begins.
theorem not_front_of_word? (h : word? first rest = none) (hlegal : word.Legal) :
    ¬ word.bytes <+: first :: rest := by
  intro hfront
  unfold word? at h
  split at h
  · cases h
  · rename_i hdigit
    split at h
    · cases h
    · rename_i hfirst
      rw [Bool.not_eq_true] at hdigit hfirst
      obtain ⟨sign, rfl⟩ := hlegal.exists_mark hfront hdigit hfirst
      rw [bytes_mark] at hfront
      rw [mark?_eq_some_iff.mpr hfront] at h
      cases h

-- A word is known by its bytes.
private theorem Legal.eq_of_bytes (h : word.Legal) (hother : other.Legal)
    (hbytes : word.bytes = other.bytes) : word = other := by
  have htext : word.text = other.text := Text.encode_injective hbytes
  obtain ⟨first, rest, hcons, hbegins⟩ := hother.exists_cons
  have hfront : word.bytes <+: first :: rest := by rw [hbytes, hcons]
  cases other with
  | number text =>
      obtain ⟨found, rfl⟩ := h.exists_number hfront hbegins
      exact congrArg number htext
  | name text =>
      have hdigit : isDigit first = false := by
        by_contra hdigit
        have hname := not_startsName_of_isDigit first (Bool.eq_true_of_not_eq_false hdigit)
        simp [opensWith, hname] at hbegins
      obtain ⟨found, rfl⟩ := h.exists_name hfront hdigit hbegins
      exact congrArg name htext
  | mark sign =>
      simp only [opensWith, Bool.and_eq_true, Bool.not_eq_true'] at hbegins
      obtain ⟨found, rfl⟩ := h.exists_mark hfront hbegins.1 hbegins.2
      rw [bytes_mark, bytes_mark] at hbytes
      have hsame : found = sign := codes_prefix_free (by rw [hbytes])
      rw [hsame]

theorem Heads.unique {bytes : Bytes} (h : word.Heads bytes) (hother : other.Heads bytes) :
    word = other := by
  apply h.legal.eq_of_bytes hother.legal
  have hle := h.longest other hother.legal hother.front
  have hge := hother.longest word h.legal h.front
  exact (List.prefix_of_prefix_length_le h.front hother.front hge).eq_of_length (by omega)

theorem Heads.word?_eq (h : word.Heads (first :: rest)) :
    word? first rest = some (word, word.bytes.length - 1) := by
  cases hfound : word? first rest with
  | none => exact absurd h.front (not_front_of_word? hfound h.legal)
  | some found =>
      obtain ⟨found, more⟩ := found
      obtain ⟨hheads, hlength⟩ := heads_of_word? hfound
      rw [h.unique hheads, hlength, Nat.add_sub_cancel]

-- A word of one byte.
def Single (byte : UInt8) : Prop := ∃ word : Word, word.Legal ∧ word.bytes = [byte]

theorem single_of_isDigit (h : isDigit first = true) : Single first := by
  have hnumber : IsNumber [first] := .inl ⟨by simp, by simpa using h⟩
  have hbytes := encode_latin_of_isInk hnumber.isInk
  exact ⟨.number (Text.latin [first]), by rwa [← hbytes] at hnumber, hbytes⟩

private theorem single_of_continuesName (h : continuesName first = true) : Single first := by
  rcases Bool.or_eq_true_iff.mp h with hname | hdigit
  · have hname : IsName [first] := ⟨first, [], rfl, hname, by simp⟩
    have hbytes := encode_latin_of_isInk hname.isInk
    exact ⟨.name (Text.latin [first]), by rwa [← hbytes] at hname, hbytes⟩
  · exact single_of_isDigit hdigit

private theorem single_of_codes {sign : Mark} (h : sign.codes = [first]) : Single first :=
  ⟨.mark sign, trivial, (bytes_mark sign).trans h⟩

-- Behind the first byte of a word every byte could be a word as well, but in a sign of two bytes.
theorem Legal.later {k : Nat} (h : word.Legal) (hk : 0 < k) (hbyte : word.bytes[k]? = some first) :
    Single first ∨ (word = .mark .assign ∨ word = .mark .pipe) ∧ k = 1 := by
  cases word with
  | number text =>
      left
      rcases h with hdigits | ⟨whole, fraction, hwhole, hfraction, hbytes⟩
      · exact single_of_isDigit (hdigits.2 first (List.mem_of_getElem? hbyte))
      · have hmem := List.mem_of_getElem? hbyte
        rw [bytes, Word.text, hbytes, List.mem_append, List.mem_cons] at hmem
        rcases hmem with hmem | rfl | hmem
        · exact single_of_isDigit (hwhole.2 first hmem)
        · exact @single_of_codes 46 .dot rfl
        · exact single_of_isDigit (hfraction.2 first hmem)
  | name text =>
      left
      obtain ⟨head, rest, hbytes, -, hrest⟩ := h
      obtain ⟨k, rfl⟩ := Nat.exists_eq_add_of_lt hk
      rw [bytes, Word.text, hbytes, Nat.zero_add, List.getElem?_cons_succ] at hbyte
      exact single_of_continuesName (hrest first (List.mem_of_getElem? hbyte))
  | mark sign =>
      right
      rw [bytes_mark] at hbyte
      have hlt := (List.getElem?_eq_some_iff.mp hbyte).1
      rcases sign with _ | _ | _ | _ | _ | _ | _ | _ | ⟨⟨⟩⟩ | ⟨⟨⟩⟩ <;>
        simp [Mark.codes] at hlt ⊢ <;> omega

-- The first bytes of `:=` and `|>`. They begin nothing else and stand nowhere else in a word.
def isDoubled (byte : UInt8) : Bool := byte = 58 || byte = 124

theorem bytes_of_doubled (h : word = .mark .assign ∨ word = .mark .pipe) :
    ∃ first second, word.bytes = [first, second] ∧ isDoubled first = true ∧
      isDoubled second = false ∧ second ≠ 10 := by
  rcases h with rfl | rfl
  · exact ⟨58, 61, bytes_mark .assign, rfl, rfl, by decide⟩
  · exact ⟨124, 62, bytes_mark .pipe, rfl, rfl, by decide⟩

private theorem not_single_of_isDoubled (h : isDoubled first = true) : ¬ Single first := by
  rintro ⟨word, hlegal, hbytes⟩
  have hfront : word.bytes <+: [first] := by rw [hbytes]
  have hplain : ∀ byte, isDoubled byte = true →
      isDigit byte = false ∧ startsName byte = false := by decide +kernel
  obtain ⟨sign, rfl⟩ := hlegal.exists_mark hfront (hplain first h).1 (hplain first h).2
  rw [bytes_mark] at hbytes
  rcases sign with _ | _ | _ | _ | _ | _ | _ | _ | ⟨⟨⟩⟩ | ⟨⟨⟩⟩ <;> cases hbytes <;> cases h

theorem Legal.not_isDoubled_later {k : Nat} (h : word.Legal) (hk : 0 < k)
    (hbyte : word.bytes[k]? = some first) : isDoubled first = false := by
  rcases h.later hk hbyte with hsingle | ⟨hdoubled, rfl⟩
  · by_contra hfirst
    exact not_single_of_isDoubled (Bool.eq_true_of_not_eq_false hfirst) hsingle
  · obtain ⟨head, second, hbytes, -, hsecond, -⟩ := bytes_of_doubled hdoubled
    rw [hbytes] at hbyte
    cases hbyte
    exact hsecond

end Word

end Sluice

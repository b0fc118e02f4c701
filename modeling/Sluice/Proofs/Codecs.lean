import Mathlib
import Sluice.Bytecode.Layout
import Sluice.Proofs.Pieces

namespace Sluice

namespace Bytes

theorem toNat_lt (bytes : Bytes) : bytes.toNat < capacity bytes.length := by
  induction bytes with
  | nil => exact Nat.one_pos
  | cons byte rest ih =>
      have hbyte := byte.toNat_lt
      simp only [capacity, toNat, List.length_cons, Nat.pow_eq, Nat.pow_succ] at ih ⊢
      omega

theorem toNat_ofNat {width n : Nat} (h : n < capacity width) : (ofNat width n).toNat = n := by
  induction width generalizing n with
  | zero =>
      have hzero : n = 0 := Nat.lt_one_iff.mp h
      exact hzero.symm
  | succ width ih =>
      have hrest : n / 256 < capacity width := by
        simp only [capacity, Nat.pow_eq, Nat.pow_succ] at h ⊢
        omega
      rw [ofNat, toNat, ih hrest, UInt8.toNat_ofNat']
      omega

theorem ofNat_toNat (bytes : Bytes) : ofNat bytes.length bytes.toNat = bytes := by
  induction bytes with
  | nil => rfl
  | cons byte rest ih =>
      have hbyte := byte.toNat_lt
      have hlow : UInt8.ofNat (byte.toNat + 256 * toNat rest) = byte := by
        apply UInt8.toNat_inj.mp
        rw [UInt8.toNat_ofNat']
        omega
      have hhigh : (byte.toNat + 256 * toNat rest) / 256 = toNat rest := by omega
      rw [List.length_cons, toNat, ofNat, hlow, hhigh, ih]

theorem split?_append (front rest : Bytes) :
    (front ++ rest).split? front.length = some (front, rest) := by
  simp [split?]

theorem split?_eq_some {bytes front rest : Bytes} {count : Nat}
    (h : bytes.split? count = some (front, rest)) : bytes = front ++ rest ∧ front.length = count := by
  unfold split? at h
  split at h
  · rename_i hlength
    cases h
    exact ⟨(List.take_append_drop count bytes).symm, hlength⟩
  · contradiction

theorem split?_of_lt {bytes : Bytes} {count : Nat} (h : bytes.length < count) :
    bytes.split? count = none := by
  rw [split?, if_neg]
  rw [List.length_take]
  omega

end Bytes

namespace Codec

-- A cut through two parts goes through the first, or leaves it whole.
theorem cut_cases {first second front back : Bytes} (h : first ++ second = front ++ back) :
    (∃ left, left ≠ [] ∧ first = front ++ left) ∨
      ∃ begun, front = first ++ begun ∧ second = begun ++ back := by
  rcases List.append_eq_append_iff.mp h with ⟨begun, hfront, hsecond⟩ | ⟨left, hfirst, hback⟩
  · exact .inr ⟨begun, hfront, hsecond⟩
  · by_cases hempty : left = []
    · subst hempty
      exact .inr ⟨[], by simpa using hfirst.symm, by simpa using hback.symm⟩
    · exact .inl ⟨left, hempty, hfirst⟩

-- The bytes are read as this value whatever follows, and a part of them is not enough.
structure Reads {α : Type} (decode : Bytes → Except Fault (α × Bytes)) (bytes : Bytes) (value : α) :
    Prop where
  whole : ∀ rest, decode (bytes ++ rest) = .ok (value, rest)
  cut : ∀ {front back}, bytes = front ++ back → back ≠ [] → decode front = .error .truncated

section Reads

variable {α β : Type}

theorem Reads.done (value : α) : Reads (fun bytes => .ok (value, bytes)) [] value := by
  refine ⟨fun rest => rfl, fun hcut hback => ?_⟩
  have hnil := (List.nil_eq_append_iff.mp hcut).2
  contradiction

theorem Reads.andThen {first : Bytes → Except Fault (α × Bytes)}
    {decode : Bytes → Except Fault (β × Bytes)} {front behind : Bytes} {part : α} {value : β}
    (next : α → Bytes → Except Fault (β × Bytes))
    (hdecode : ∀ bytes, decode bytes = first bytes >>= fun found => next found.1 found.2)
    (hfirst : Reads first front part) (hnext : Reads (next part) behind value) :
    Reads decode (front ++ behind) value := by
  constructor
  · intro rest
    rw [hdecode, List.append_assoc, hfirst.whole, ok_bind, hnext.whole]
  · intro short back hcut hback
    rw [hdecode]
    rcases cut_cases hcut with ⟨left, hleft, hfront⟩ | ⟨begun, rfl, hbegun⟩
    · rw [hfirst.cut hfront hleft, error_bind]
    · rw [hfirst.whole, ok_bind]
      exact hnext.cut hbegun hback

theorem Reads.map {first : Bytes → Except Fault (α × Bytes)}
    {decode : Bytes → Except Fault (β × Bytes)} {bytes : Bytes} {part : α} (f : α → β)
    (hdecode : ∀ bytes, decode bytes = first bytes >>= fun found => .ok (f found.1, found.2))
    (hfirst : Reads first bytes part) : Reads decode bytes (f part) := by
  constructor
  · intro rest
    rw [hdecode, hfirst.whole, ok_bind]
  · intro front back hcut hback
    rw [hdecode, hfirst.cut hcut hback, error_bind]

end Reads

-- Reading and writing correspond on the values of a domain.
structure Lawful {α : Type} (codec : Codec α) (domain : α → Prop) : Prop where
  reads : ∀ {value}, domain value → Reads codec.decode (codec.encode value) value
  canonical : ∀ {bytes value rest}, codec.decode bytes = .ok (value, rest) →
    domain value ∧ bytes = codec.encode value ++ rest

section Laws

variable {α β : Type} {domain : α → Prop} {other : β → Prop}

theorem Lawful.of_iff {codec : Codec α} {wanted : α → Prop} (h : codec.Lawful domain)
    (hiff : ∀ value, wanted value ↔ domain value) : codec.Lawful wanted := by
  constructor
  · intro value hvalue
    exact h.reads ((hiff value).mp hvalue)
  · intro bytes value rest hdecode
    obtain ⟨hvalue, hbytes⟩ := h.canonical hdecode
    exact ⟨(hiff value).mpr hvalue, hbytes⟩

theorem lawful_word (width : Nat) : (word width).Lawful (· < Bytes.capacity width) := by
  constructor
  · intro n hn
    constructor
    · intro rest
      have hsplit := Bytes.split?_append (Bytes.ofNat width n) rest
      rw [Bytes.length_ofNat] at hsplit
      simp [word, hsplit, Bytes.toNat_ofNat hn]
    · intro front back hcut hback
      have hlength := congrArg List.length hcut
      have hpositive := List.length_pos_iff.mpr hback
      simp only [word, Bytes.length_ofNat, List.length_append] at hlength
      simp [word, Bytes.split?_of_lt (show front.length < width by omega)]
  · intro bytes n rest hdecode
    simp only [word] at hdecode
    split at hdecode
    · contradiction
    · rename_i front behind hsplit
      cases hdecode
      obtain ⟨rfl, rfl⟩ := Bytes.split?_eq_some hsplit
      refine ⟨Bytes.toNat_lt front, ?_⟩
      simp only [word, Bytes.ofNat_toNat]

theorem decode_map (codec : Codec α) (build : α → β) (parts : β → α) (bytes : Bytes) :
    (codec.map build parts).decode bytes =
      codec.decode bytes >>= fun found => .ok (build found.1, found.2) := by
  simp only [map]
  cases codec.decode bytes <;> rfl

theorem Lawful.map {codec : Codec α} {build : α → β} {parts : β → α} (h : codec.Lawful domain)
    (hparts : ∀ value, domain value → parts (build value) = value) :
    (codec.map build parts).Lawful fun value =>
      domain (parts value) ∧ build (parts value) = value := by
  constructor
  · rintro value ⟨hvalue, hbuild⟩
    have hreads := (h.reads hvalue).map build (decode_map codec build parts)
    rwa [hbuild] at hreads
  · intro bytes value rest hdecode
    rw [decode_map] at hdecode
    obtain ⟨⟨found, behind⟩, hfound, hbuild⟩ := bind_eq_ok.mp hdecode
    cases hbuild
    obtain ⟨hdomain, hbytes⟩ := h.canonical hfound
    simp only [Codec.map, hparts found hdomain]
    exact ⟨⟨hdomain, trivial⟩, hbytes⟩

theorem decode_pair (first : Codec α) (second : Codec β) (bytes : Bytes) :
    (first.pair second).decode bytes =
      first.decode bytes >>= fun left => second.decode left.2 >>= fun right =>
        .ok ((left.1, right.1), right.2) := by
  simp only [pair]
  cases first.decode bytes with
  | error fault => rfl
  | ok left =>
      rw [ok_bind]
      dsimp only
      cases second.decode left.2 <;> rfl

theorem Lawful.pair {first : Codec α} {second : Codec β} (hfirst : first.Lawful domain)
    (hsecond : second.Lawful other) :
    (first.pair second).Lawful fun value => domain value.1 ∧ other value.2 := by
  constructor
  · rintro ⟨left, right⟩ ⟨hleft, hright⟩
    exact (hfirst.reads hleft).andThen
      (fun left bytes => second.decode bytes >>= fun right => .ok ((left, right.1), right.2))
      (decode_pair first second) ((hsecond.reads hright).map (left, ·) fun _ => rfl)
  · rintro bytes ⟨left, right⟩ rest hdecode
    rw [decode_pair] at hdecode
    obtain ⟨⟨_, behind⟩, hleft, hdecode⟩ := bind_eq_ok.mp hdecode
    obtain ⟨⟨_, _⟩, hright, hdecode⟩ := bind_eq_ok.mp hdecode
    cases hdecode
    obtain ⟨hleftDomain, rfl⟩ := hfirst.canonical hleft
    obtain ⟨hrightDomain, rfl⟩ := hsecond.canonical hright
    exact ⟨⟨hleftDomain, hrightDomain⟩, by simp [Codec.pair]⟩

theorem lawful_constant (value : α) : (constant value).Lawful (· = value) := by
  constructor
  · rintro _ rfl
    exact Reads.done _
  · intro bytes found rest hdecode
    cases hdecode
    exact ⟨rfl, rfl⟩

def decodeForm (form : Nat → Option (Codec α)) (place : Nat) (bytes : Bytes) :
    Except Fault (α × Bytes) :=
  match form place with
  | some codec => codec.decode bytes
  | none => .error .badVariant

theorem decode_tagged (tag : α → Nat) (form : Nat → Option (Codec α)) (bytes : Bytes) :
    (tagged tag form).decode bytes =
      (word 4).decode bytes >>= fun found => decodeForm form found.1 found.2 := by
  simp only [tagged]
  cases (word 4).decode bytes <;> rfl

-- Every form is a codec for the values with its tag.
theorem lawful_tagged {tag : α → Nat} {form : Nat → Option (Codec α)}
    (hform : ∀ place codec, form place = some codec →
      place < Bytes.capacity 4 ∧ codec.Lawful fun value => tag value = place ∧ domain value)
    (hsome : ∀ value, ∃ codec, form (tag value) = some codec) : (tagged tag form).Lawful domain := by
  constructor
  · intro value hvalue
    obtain ⟨codec, hcodec⟩ := hsome value
    obtain ⟨hplace, hlawful⟩ := hform _ _ hcodec
    have hbody : Reads (decodeForm form (tag value)) (codec.encode value) value := by
      have hdecode : decodeForm form (tag value) = codec.decode := by
        funext bytes
        rw [decodeForm, hcodec]
      rw [hdecode]
      exact hlawful.reads ⟨rfl, hvalue⟩
    have hencode : (tagged tag form).encode value =
        (word 4).encode (tag value) ++ codec.encode value := by
      simp [tagged, word, hcodec]
    rw [hencode]
    exact ((lawful_word 4).reads hplace).andThen (decodeForm form) (decode_tagged tag form) hbody
  · intro bytes value rest hdecode
    rw [decode_tagged] at hdecode
    obtain ⟨⟨place, behind⟩, hword, hbody⟩ := bind_eq_ok.mp hdecode
    obtain ⟨-, rfl⟩ := (lawful_word 4).canonical hword
    simp only [decodeForm] at hbody
    split at hbody
    · rename_i codec hcodec
      obtain ⟨⟨rfl, hvalue⟩, rfl⟩ := (hform place codec hcodec).2.canonical hbody
      exact ⟨hvalue, by simp [tagged, word, hcodec]⟩
    · contradiction

theorem lawful_oneOf [DecidableEq α] {values : List α} (hnodup : values.Nodup)
    (hlength : values.length ≤ Bytes.capacity 4) (hall : ∀ value, value ∈ values) :
    (oneOf values).Lawful fun _ => True := by
  apply lawful_tagged
  · intro place codec hcodec
    obtain ⟨value, hvalue, rfl⟩ := Option.map_eq_some_iff.mp hcodec
    obtain ⟨hplace, hget⟩ := List.getElem?_eq_some_iff.mp hvalue
    refine ⟨Nat.lt_of_lt_of_le hplace hlength, (lawful_constant value).of_iff fun found => ?_⟩
    rw [and_true, ← hget]
    constructor
    · intro hfound
      have hmem := List.idxOf_lt_length_of_mem (hall found)
      rw [← List.getElem_idxOf hmem]
      simp only [hfound]
    · rintro rfl
      exact hnodup.idxOf_getElem place hplace
  · intro value
    refine ⟨constant value, ?_⟩
    rw [List.getElem?_eq_getElem (List.idxOf_lt_length_of_mem (hall value)), List.getElem_idxOf]
    rfl

theorem decodeTimes_succ (codec : Codec α) (count : Nat) (bytes : Bytes) :
    decodeTimes codec (count + 1) bytes =
      codec.decode bytes >>= fun first => decodeTimes codec count first.2 >>= fun rest =>
        .ok (first.1 :: rest.1, rest.2) := by
  rw [decodeTimes]
  cases codec.decode bytes with
  | error fault => rfl
  | ok first =>
      rw [ok_bind]
      dsimp only
      cases decodeTimes codec count first.2 <;> rfl

theorem Lawful.reads_times {codec : Codec α} (h : codec.Lawful domain) (values : List α)
    (hvalues : ∀ value ∈ values, domain value) :
    Reads (decodeTimes codec values.length) (values.flatMap codec.encode) values := by
  induction values with
  | nil => exact Reads.done []
  | cons value values ih =>
      obtain ⟨hvalue, hvalues⟩ := List.forall_mem_cons.mp hvalues
      exact (h.reads hvalue).andThen
        (fun first bytes => decodeTimes codec values.length bytes >>= fun rest =>
          .ok (first :: rest.1, rest.2))
        (decodeTimes_succ codec values.length) ((ih hvalues).map (value :: ·) fun _ => rfl)

private theorem Lawful.canonical_times {codec : Codec α} (h : codec.Lawful domain) {count : Nat}
    {bytes rest : Bytes} {values : List α}
    (hdecode : decodeTimes codec count bytes = .ok (values, rest)) :
    values.length = count ∧ (∀ value ∈ values, domain value) ∧
      bytes = values.flatMap codec.encode ++ rest := by
  induction count generalizing bytes values with
  | zero =>
      cases hdecode
      exact ⟨rfl, by simp, rfl⟩
  | succ count ih =>
      rw [decodeTimes_succ] at hdecode
      obtain ⟨⟨value, behind⟩, hvalue, hdecode⟩ := bind_eq_ok.mp hdecode
      obtain ⟨⟨more, _⟩, hmore, hdecode⟩ := bind_eq_ok.mp hdecode
      cases hdecode
      obtain ⟨hdomain, rfl⟩ := h.canonical hvalue
      obtain ⟨rfl, hall, rfl⟩ := ih hmore
      exact ⟨rfl, List.forall_mem_cons.mpr ⟨hdomain, hall⟩, by simp⟩

theorem decode_list (codec : Codec α) (bytes : Bytes) :
    (list codec).decode bytes =
      (word 8).decode bytes >>= fun found => decodeTimes codec found.1 found.2 := by
  simp only [list]
  cases (word 8).decode bytes <;> rfl

theorem Lawful.list {codec : Codec α} (h : codec.Lawful domain) :
    (list codec).Lawful fun values =>
      values.length < Bytes.capacity 8 ∧ ∀ value ∈ values, domain value := by
  constructor
  · rintro values ⟨hlength, hvalues⟩
    have hencode : (Codec.list codec).encode values =
        (word 8).encode values.length ++ values.flatMap codec.encode := rfl
    rw [hencode]
    exact ((lawful_word 8).reads hlength).andThen (decodeTimes codec) (decode_list codec)
      (h.reads_times values hvalues)
  · intro bytes values rest hdecode
    rw [decode_list] at hdecode
    obtain ⟨⟨count, behind⟩, hcount, hbody⟩ := bind_eq_ok.mp hdecode
    obtain ⟨hword, rfl⟩ := (lawful_word 8).canonical hcount
    obtain ⟨rfl, hvalues, rfl⟩ := h.canonical_times hbody
    exact ⟨⟨hword, hvalues⟩, by simp [Codec.list, word]⟩

end Laws

theorem lawful_flag : flag.Lawful fun _ => True := by
  constructor
  · intro value _
    constructor
    · intro rest
      cases value <;> rfl
    · intro front back hcut hback
      have hlength := congrArg List.length hcut
      have hpositive := List.length_pos_iff.mpr hback
      simp only [flag, List.length_append, List.length_singleton] at hlength
      rw [List.length_eq_zero_iff.mp (show front.length = 0 by omega)]
      rfl
  · intro bytes value rest hdecode
    unfold flag at hdecode ⊢
    dsimp only at hdecode ⊢
    split at hdecode
    · contradiction
    · split at hdecode
      · rename_i hbyte
        cases hdecode
        exact ⟨trivial, by simp [hbyte]⟩
      · split at hdecode
        · rename_i hbyte
          cases hdecode
          exact ⟨trivial, by simp [hbyte]⟩
        · contradiction

theorem decode?_encode (value : String) : Text.decode? (Text.encode value) = some value := by
  have hbytes : (⟨(Text.encode value).toArray⟩ : ByteArray) = value.toByteArray := rfl
  rw [Text.decode?, hbytes, String.fromUTF8?, dif_pos value.isValidUTF8]
  rfl

theorem encode_of_decode? {bytes : Bytes} {value : String} (h : Text.decode? bytes = some value) :
    Text.encode value = bytes := by
  simp only [Text.decode?, String.fromUTF8?] at h
  split at h
  · cases h
    rfl
  · contradiction

def decodeText (length : Nat) (bytes : Bytes) : Except Fault (String × Bytes) :=
  match bytes.split? length with
  | none => .error .truncated
  | some (front, rest) =>
      match Text.decode? front with
      | some value => .ok (value, rest)
      | none => .error .badText

theorem decode_text (bytes : Bytes) :
    text.decode bytes = (word 8).decode bytes >>= fun found => decodeText found.1 found.2 := by
  simp only [text]
  cases (word 8).decode bytes <;> rfl

theorem reads_decodeText (value : String) :
    Reads (decodeText (Text.encode value).length) (Text.encode value) value := by
  constructor
  · intro rest
    simp [decodeText, Bytes.split?_append, decode?_encode]
  · intro front back hcut hback
    have hlength := congrArg List.length hcut
    have hpositive := List.length_pos_iff.mpr hback
    rw [List.length_append] at hlength
    have hshort : front.length < (Text.encode value).length := by omega
    simp [decodeText, Bytes.split?_of_lt hshort]

private theorem canonical_decodeText {length : Nat} {bytes rest : Bytes} {value : String}
    (h : decodeText length bytes = .ok (value, rest)) :
    (Text.encode value).length = length ∧ bytes = Text.encode value ++ rest := by
  unfold decodeText at h
  split at h
  · contradiction
  · rename_i front behind hsplit
    obtain ⟨rfl, rfl⟩ := Bytes.split?_eq_some hsplit
    split at h
    · rename_i found hfound
      cases h
      cases encode_of_decode? hfound
      exact ⟨rfl, rfl⟩
    · contradiction

theorem lawful_text : text.Lawful fun value => (Text.encode value).length < Bytes.capacity 8 := by
  constructor
  · intro value hlength
    have hencode : text.encode value =
        (word 8).encode (Text.encode value).length ++ Text.encode value := rfl
    rw [hencode]
    exact ((lawful_word 8).reads hlength).andThen decodeText decode_text (reads_decodeText value)
  · intro bytes value rest hdecode
    rw [decode_text] at hdecode
    obtain ⟨⟨length, behind⟩, hword, hbody⟩ := bind_eq_ok.mp hdecode
    obtain ⟨hlength, rfl⟩ := (lawful_word 8).canonical hword
    obtain ⟨rfl, rfl⟩ := canonical_decodeText hbody
    exact ⟨hlength, by simp [text, word]⟩

section Words

variable {α : Type}

-- A type with exactly the numbers of a width.
theorem Lawful.whole {domain : Nat → Prop} {codec : Codec Nat} {build : Nat → α} {parts : α → Nat}
    (h : codec.Lawful domain) (hparts : ∀ n, domain n → parts (build n) = n)
    (hbuild : ∀ value, domain (parts value) ∧ build (parts value) = value) :
    (codec.map build parts).Lawful fun _ => True :=
  (h.map hparts).of_iff fun value => (true_iff _).mpr (hbuild value)

theorem lawful_byte : byte.Lawful fun _ => True :=
  (lawful_word 1).whole (fun _ hn => UInt8.toNat_ofNat_of_lt' hn)
    fun value => ⟨value.toNat_lt, UInt8.ofNat_toNat⟩

theorem lawful_uint32 : uint32.Lawful fun _ => True :=
  (lawful_word 4).whole (fun _ hn => UInt32.toNat_ofNat_of_lt' hn)
    fun value => ⟨value.toNat_lt, UInt32.ofNat_toNat⟩

theorem lawful_uint64 : uint64.Lawful fun _ => True :=
  (lawful_word 8).whole (fun _ hn => UInt64.toNat_ofNat_of_lt' hn)
    fun value => ⟨value.toNat_lt, UInt64.ofNat_toNat⟩

theorem lawful_int32 : int32.Lawful fun _ => True :=
  (lawful_uint32.map fun value _ => UInt32.toUInt32_toInt32 value).of_iff fun value => by
    simp

theorem lawful_int64 : int64.Lawful fun _ => True :=
  (lawful_uint64.map fun value _ => UInt64.toUInt64_toInt64 value).of_iff fun value => by
    simp

end Words

end Codec

namespace Codec

-- Values whose written form is not too long for a length to count its bytes.
def Admits {α : Type} (codec : Codec α) (domain : α → Prop) : Prop :=
  ∀ value, (codec.encode value).length < Bytes.capacity 8 → domain value

section Admits

variable {α β : Type} {domain : α → Prop} {other : β → Prop}

theorem admits_all (codec : Codec α) : codec.Admits fun _ => True :=
  fun _ _ => trivial

theorem Admits.pair {first : Codec α} {second : Codec β} (hfirst : first.Admits domain)
    (hsecond : second.Admits other) :
    (first.pair second).Admits fun value => domain value.1 ∧ other value.2 := by
  intro value hlength
  simp only [Codec.pair, List.length_append] at hlength
  exact ⟨hfirst _ (by omega), hsecond _ (by omega)⟩

-- No element takes less than a byte.
theorem Admits.list {codec : Codec α} (h : codec.Admits domain)
    (hsolid : ∀ value, codec.encode value ≠ []) :
    (list codec).Admits fun values =>
      values.length < Bytes.capacity 8 ∧ ∀ value ∈ values, domain value := by
  intro values hlength
  simp only [Codec.list, List.length_append, List.length_flatMap] at hlength
  constructor
  · have hcount := List.length_le_sum_of_one_le (values.map fun value => (codec.encode value).length)
      (by simp [Nat.one_le_iff_ne_zero, hsolid])
    rw [List.length_map] at hcount
    omega
  · intro value hvalue
    have hpart := List.single_le_sum (l := values.map fun value => (codec.encode value).length)
      (by simp) _ (List.mem_map_of_mem hvalue)
    exact h value (by omega)

end Admits

end Codec

-- Lengths are written in eight bytes, so what has a written form has no longer lists and texts.
def Member.Counted (row : Member) : Prop :=
  (Text.encode row.name).length < Bytes.capacity 8

def Ty.Counted (ty : Ty) : Prop :=
  ty.atoms.length < Bytes.capacity 8 ∧
    ty.members.length < Bytes.capacity 8 ∧ ∀ row ∈ ty.members, row.Counted

def Payload.Counted : Payload → Prop
  | .identifier name => (Text.encode name).length < Bytes.capacity 8
  | _ => True

structure Instruction.Counted (it : Instruction) : Prop where
  result : it.result.Counted
  operands : it.operands.length < Bytes.capacity 8 ∧ ∀ ty ∈ it.operands, ty.Counted
  payload : it.payload.Counted

structure Program.Counted (it : Program) : Prop where
  literals : it.literals.bytes.length < Bytes.capacity 8
  instructions : it.instructions.toList.length < Bytes.capacity 8 ∧
    ∀ instruction ∈ it.instructions.toList, instruction.Counted

namespace Bytecode

open Codec

private theorem getElem?_primitives (primitive : Primitive) :
    primitives[primitives.idxOf primitive]? = some primitive := by
  cases primitive <;> rfl

private theorem idxOf_primitives_lt (primitive : Primitive) : primitives.idxOf primitive < 14 := by
  cases primitive <;> decide

theorem lawful_atomForm {place : Nat} {codec : Codec Atom} (h : atomForm place = some codec) :
    place < Bytes.capacity 4 ∧ codec.Lawful fun value => atomTag value = place ∧ True := by
  have hlt := idxOf_primitives_lt
  unfold atomForm at h
  split at h
  · cases h
    refine ⟨by decide, (lawful_constant _).of_iff fun value => ?_⟩
    cases value <;> grind [atomTag]
  · cases h
    refine ⟨by decide, (lawful_constant _).of_iff fun value => ?_⟩
    cases value <;> grind [atomTag]
  · cases h
    refine ⟨by decide, (lawful_constant _).of_iff fun value => ?_⟩
    cases value <;> grind [atomTag]
  · cases h
    refine ⟨by decide, (lawful_constant _).of_iff fun value => ?_⟩
    cases value <;> grind [atomTag]
  · cases h
    refine ⟨by decide, (lawful_uint32.map fun _ _ => rfl).of_iff fun value => ?_⟩
    cases value <;> grind [atomTag, elementCount]
  · obtain ⟨primitive, hprimitive, rfl⟩ := Option.map_eq_some_iff.mp h
    obtain ⟨hplace, rfl⟩ := List.getElem?_eq_some_iff.mp hprimitive
    have hindex : primitives.idxOf primitives[place] = place :=
      (show primitives.Nodup by decide).idxOf_getElem place hplace
    have hshort : place < 14 := hplace
    refine ⟨Nat.lt_trans hshort (by decide), (lawful_constant _).of_iff fun value => ?_⟩
    cases value with
    | prim primitive =>
        have hget := getElem?_primitives primitive
        grind [atomTag]
    | _ => grind [atomTag]

theorem lawful_atom : atom.Lawful fun _ => True := by
  refine lawful_tagged (fun place codec => lawful_atomForm) fun value => ?_
  cases value with
  | prim primitive => cases primitive <;> exact ⟨_, rfl⟩
  | tuple => exact ⟨_, rfl⟩
  | array => exact ⟨_, rfl⟩
  | func => exact ⟨_, rfl⟩
  | close => exact ⟨_, rfl⟩
  | count elements => exact ⟨_, rfl⟩

theorem lawful_member : member.Lawful Member.Counted :=
  ((lawful_text.pair (lawful_uint64.pair lawful_uint32)).map fun _ _ => rfl).of_iff fun row => by
    simp [Member.Counted]

theorem lawful_ty : ty.Lawful Ty.Counted :=
  ((lawful_atom.list.pair (lawful_member.list.pair lawful_flag)).map fun _ _ => rfl).of_iff
    fun ty => by simp [Ty.Counted]

theorem lawful_op : op.Lawful fun _ => True := by
  refine lawful_oneOf (by decide) (by decide) fun value => ?_
  cases value <;> decide

theorem lawful_immediate : immediate.Lawful fun _ => True := by
  refine lawful_tagged (fun place codec hcodec => ?_) fun value => ?_
  · unfold immediateForm at hcodec
    split at hcodec
    · cases hcodec
      refine ⟨by decide, (lawful_int64.map fun _ _ => rfl).of_iff fun value => ?_⟩
      cases value <;> simp [immediateTag, intOf]
    · cases hcodec
      refine ⟨by decide, (lawful_uint64.map fun _ _ => rfl).of_iff fun value => ?_⟩
      cases value <;> simp [immediateTag, wordOf]
    · cases hcodec
      refine ⟨by decide, (lawful_uint64.map fun _ _ => rfl).of_iff fun value => ?_⟩
      cases value <;> simp [immediateTag, wordOf]
    · contradiction
  · cases value <;> exact ⟨_, rfl⟩

theorem lawful_payload : payload.Lawful Payload.Counted := by
  refine lawful_tagged (fun place codec hcodec => ?_) fun value => ?_
  · unfold payloadForm at hcodec
    split at hcodec
    · cases hcodec
      refine ⟨by decide, (lawful_constant _).of_iff fun value => ?_⟩
      cases value <;> simp [payloadTag, Payload.Counted]
    · cases hcodec
      refine ⟨by decide, (lawful_immediate.map fun _ _ => rfl).of_iff fun value => ?_⟩
      cases value <;> simp [payloadTag, immediateOf, Payload.Counted]
    · cases hcodec
      refine ⟨by decide, (lawful_uint32.map fun _ _ => rfl).of_iff fun value => ?_⟩
      cases value <;> simp [payloadTag, offsetOf, Payload.Counted]
    · cases hcodec
      refine ⟨by decide, (lawful_uint32.map fun _ _ => rfl).of_iff fun value => ?_⟩
      cases value <;> simp [payloadTag, offsetOf, Payload.Counted]
    · cases hcodec
      refine ⟨by decide, (lawful_uint32.map fun _ _ => rfl).of_iff fun value => ?_⟩
      cases value <;> simp [payloadTag, offsetOf, Payload.Counted]
    · cases hcodec
      refine ⟨by decide, (lawful_text.map fun _ _ => rfl).of_iff fun value => ?_⟩
      cases value <;> simp [payloadTag, Payload.Counted, nameOf]
    · cases hcodec
      refine ⟨by decide, (lawful_uint32.map fun _ _ => rfl).of_iff fun value => ?_⟩
      cases value <;> simp [payloadTag, offsetOf, Payload.Counted]
    · contradiction
  · cases value <;> exact ⟨_, rfl⟩

theorem lawful_position : position.Lawful fun _ => True :=
  ((lawful_uint32.pair (lawful_uint32.pair lawful_uint32)).map fun _ _ => rfl).of_iff
    fun place => by simp

theorem lawful_instruction : instruction.Lawful Instruction.Counted :=
  ((lawful_op.pair (lawful_ty.pair (lawful_ty.list.pair (lawful_payload.pair
    (lawful_int32.pair lawful_position))))).map fun _ _ => rfl).of_iff fun it => by
      constructor
      · intro h
        exact ⟨⟨trivial, h.result, h.operands, h.payload, trivial, trivial⟩, rfl⟩
      · rintro ⟨⟨-, hresult, hoperands, hpayload, -⟩, -⟩
        exact ⟨hresult, hoperands, hpayload⟩

theorem lawful_program : program.Lawful Program.Counted :=
  ((lawful_byte.list.pair (lawful_uint32.pair lawful_instruction.list)).map fun _ _ => rfl).of_iff
    fun it => by
      constructor
      · intro h
        exact ⟨⟨⟨h.literals, fun _ _ => trivial⟩, trivial, h.instructions⟩, rfl⟩
      · rintro ⟨⟨hliterals, -, hinstructions⟩, -⟩
        exact ⟨hliterals.1, hinstructions⟩

private theorem tagged_ne_nil {α : Type} (tag : α → Nat) (form : Nat → Option (Codec α))
    (value : α) : (tagged tag form).encode value ≠ [] := by
  simp [tagged, Bytes.ofNat]

theorem admits_text : text.Admits fun value => (Text.encode value).length < Bytes.capacity 8 := by
  intro value hlength
  simp only [text, List.length_append] at hlength
  omega

theorem admits_ty : ty.Admits Ty.Counted := by
  have hmember : member.Admits Member.Counted := fun row hlength =>
    (admits_text.pair (admits_all (uint64.pair uint32)) _ hlength).1
  have hrow : ∀ row, member.encode row ≠ [] := fun row => by
    simp [member, Codec.map, Codec.pair, text, Bytes.ofNat]
  intro value hlength
  have hparts := ((admits_all atom).list (tagged_ne_nil _ _)).pair
    ((hmember.list hrow).pair (admits_all flag)) _ hlength
  exact ⟨hparts.1.1, hparts.2.1⟩

private theorem ty_ne_nil (value : Ty) : ty.encode value ≠ [] := by
  simp [ty, Codec.map, Codec.pair, list, Bytes.ofNat]

theorem admits_payload : payload.Admits Payload.Counted := by
  intro value hlength
  cases value with
  | identifier name =>
      refine admits_text name (Nat.lt_of_le_of_lt ?_ hlength)
      simp [payload, tagged, payloadForm, payloadTag, Codec.map, nameOf]
  | _ => trivial

theorem admits_instruction : instruction.Admits Instruction.Counted := by
  intro it hlength
  have hparts := (admits_all op).pair (admits_ty.pair ((admits_ty.list ty_ne_nil).pair
    (admits_payload.pair (admits_all (int32.pair position))))) _ hlength
  exact ⟨hparts.2.1, hparts.2.2.1, hparts.2.2.2.1⟩

theorem admits_program : program.Admits Program.Counted := by
  have hbyte : ∀ value, byte.encode value ≠ [] := fun value => by
    simp [byte, Codec.map, word, Bytes.ofNat]
  have hinstruction : ∀ it, instruction.encode it ≠ [] := fun it => by
    simp [instruction, Codec.map, Codec.pair, op, oneOf, tagged, Bytes.ofNat]
  intro it hlength
  have hparts := ((admits_all byte).list hbyte).pair
    ((admits_all uint32).pair (admits_instruction.list hinstruction)) _ hlength
  exact ⟨hparts.1.1, hparts.2.2⟩

end Bytecode

end Sluice

import Mathlib
import Sluice.Text.Utf8

namespace Sluice.Text

variable {lead byte : UInt8} {rest tail : Bytes}

private theorem takeWhile_isTail_append (hbyte : byte < 128) (count : Nat) (bytes tail : Bytes) :
    ((bytes ++ byte :: tail).take count).takeWhile isTail = (bytes.take count).takeWhile isTail := by
  have hstop : isTail byte = false := by
    have hlow : ¬ (128 ≤ byte) := UInt8.not_le.mpr hbyte
    simp [isTail, hlow]
  induction bytes generalizing count with
  | nil =>
      cases count with
      | zero => rfl
      | succ count => simp [hstop]
  | cons first bytes ih =>
      cases count with
      | zero => rfl
      | succ count =>
          simp only [List.cons_append, List.take_succ_cons, List.takeWhile_cons, ih]

theorem tailLength_append {low : UInt8} (hlow : 128 ≤ low) (hbyte : byte < 128) (high : UInt8)
    (count : Nat) (rest tail : Bytes) :
    tailLength low high count (rest ++ byte :: tail) = tailLength low high count rest := by
  cases rest with
  | nil =>
      have hout : ¬ (low ≤ byte) := UInt8.not_le.mpr (UInt8.lt_of_lt_of_le hbyte hlow)
      simp [tailLength, hout]
  | cons second more =>
      simp only [List.cons_append, tailLength, takeWhile_isTail_append hbyte]

theorem tailLength_le (low high : UInt8) (count : Nat) (rest : Bytes) :
    tailLength low high count rest ≤ rest.length := by
  cases rest with
  | nil => exact Nat.le_refl 0
  | cons second more =>
      have hmore := (List.takeWhile_prefix (p := isTail) (l := more.take (count - 1))).length_le
      have htake := List.length_take_le' (count - 1) more
      simp only [tailLength, List.length_cons]
      split <;> omega

private theorem continuation?_low {low high : UInt8} {count : Nat}
    (h : continuation? lead = some (low, high, count)) : 128 ≤ low := by
  unfold continuation? at h
  repeat' split at h
  all_goals cases h
  all_goals decide

-- A character in front does not depend on what stands behind a byte below 128.
private theorem front_append (hbyte : byte < 128) (rest tail : Bytes) :
    front lead (rest ++ byte :: tail) = front lead rest := by
  unfold front
  split
  · rfl
  · split
    · rfl
    · rename_i low high count hcontinuation
      have hsame := tailLength_append (continuation?_low hcontinuation) hbyte high count rest tail
      simp only [hsame]
      split
      · rename_i hfound
        have hle := tailLength_le low high count rest
        rw [hfound] at hle
        rw [List.take_append_of_le_length hle]
      · rfl

private theorem front_le (lead : UInt8) (rest : Bytes) : (front lead rest).2 ≤ rest.length := by
  unfold front
  split
  · exact Nat.zero_le _
  · split
    · exact Nat.zero_le _
    · rename_i low high count _
      have hle := tailLength_le low high count rest
      dsimp only
      split <;> exact hle

theorem lenientChars_append (hbyte : byte < 128) (bytes tail : Bytes) :
    lenientChars (bytes ++ byte :: tail) = lenientChars bytes ++ lenientChars (byte :: tail) := by
  match bytes with
  | [] => rw [lenientChars, List.nil_append, List.nil_append]
  | lead :: rest =>
      have hle := front_le lead rest
      rw [List.cons_append, lenientChars, lenientChars, front_append hbyte,
        List.drop_append_of_le_length hle, lenientChars_append hbyte (rest.drop (front lead rest).2),
        List.cons_append]
termination_by bytes.length
decreasing_by
  simp only [List.length_drop, List.length_cons]
  omega

theorem lenientChars_ne_nil {bytes : Bytes} (h : bytes ≠ []) : lenientChars bytes ≠ [] := by
  obtain ⟨lead, rest, rfl⟩ := List.exists_cons_of_ne_nil h
  rw [lenientChars]
  exact List.cons_ne_nil _ _

-- The first character is known from the bytes up to one below 128.
theorem head?_lenientChars_append {bytes : Bytes} (h : bytes ≠ [])
    (htail : ∀ byte ∈ tail.head?, byte < 128) :
    (lenientChars (bytes ++ tail)).head? = (lenientChars bytes).head? := by
  cases tail with
  | nil => rw [List.append_nil]
  | cons byte tail =>
      rw [lenientChars_append (htail byte rfl),
        List.head?_append_of_ne_nil _ (lenientChars_ne_nil h)]

theorem lenientChars_cons (hbyte : byte < 128) (tail : Bytes) :
    lenientChars (byte :: tail) = Char.ofUInt8 byte :: lenientChars tail := by
  rw [lenientChars, front, if_pos hbyte, List.drop_zero]

-- Bytes below 128 are read one by one.
theorem lenientChars_ascii {bytes : Bytes} (hbytes : ∀ byte ∈ bytes, byte < 128) (tail : Bytes) :
    lenientChars (bytes ++ tail) = bytes.map Char.ofUInt8 ++ lenientChars tail := by
  induction bytes with
  | nil => rfl
  | cons byte bytes ih =>
      obtain ⟨hbyte, hbytes⟩ := List.forall_mem_cons.mp hbytes
      rw [List.cons_append, lenientChars_cons hbyte, ih hbytes, List.map_cons, List.cons_append]

end Sluice.Text

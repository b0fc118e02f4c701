import Mathlib
import Sluice.Source

namespace Sluice

namespace Source

variable {source : Bytes}

-- A line feed, or a carriage return that has no line feed behind it.
def endsLineAt (source : Bytes) (offset : Nat) : Bool :=
  source[offset]? = some 10 || source[offset]? = some 13 && source[offset + 1]? ≠ some 10

-- How many lines end in front of an offset.
def lineEnds (source : Bytes) (offset : Nat) : Nat :=
  (List.range offset).countP (endsLineAt source)

-- The offset behind the last of these line ends.
def lineStart (source : Bytes) : Nat → Nat
  | 0 => 0
  | offset + 1 => if endsLineAt source offset then offset + 1 else lineStart source offset

def positionAt (source : Bytes) (offset : Nat) : Position :=
  ⟨UInt32.ofNat (1 + lineEnds source offset),
    UInt32.ofNat (1 + (offset - lineStart source offset)), UInt32.ofNat offset⟩

theorem lineStart_le (source : Bytes) (offset : Nat) : lineStart source offset ≤ offset := by
  induction offset with
  | zero => exact Nat.le_refl 0
  | succ offset ih =>
      unfold lineStart
      split <;> omega

theorem lineEnds_le (source : Bytes) (offset : Nat) : lineEnds source offset ≤ offset := by
  have hle := List.countP_le_length (p := endsLineAt source) (l := List.range offset)
  rwa [List.length_range] at hle

theorem positionAt_succ_of_ends {offset : Nat} (h : endsLineAt source offset = true) :
    positionAt source (offset + 1) = (positionAt source offset).nextLine := by
  simp only [positionAt, Position.nextLine, lineEnds, lineStart, List.range_succ,
    List.countP_append, List.countP_singleton, h, if_true, Nat.sub_self, Nat.add_zero,
    ← Nat.add_assoc, UInt32.ofNat_add]
  rfl

theorem positionAt_succ_of_not_ends {offset : Nat} (h : endsLineAt source offset = false) :
    positionAt source (offset + 1) = (positionAt source offset).nextColumn := by
  have hle := lineStart_le source offset
  have hcolumn : 1 + (offset + 1 - lineStart source offset) =
      1 + (offset - lineStart source offset) + 1 := by omega
  simp only [positionAt, Position.nextColumn, lineEnds, lineStart, List.range_succ,
    List.countP_append, List.countP_singleton, h, if_false, Bool.false_eq_true, Nat.add_zero,
    hcolumn, UInt32.ofNat_add (_ + _) 1, UInt32.ofNat_add offset 1]
  rfl

-- In a source of ordinary length no number wraps around.
theorem positionAt_exact {offset : Nat} (h : offset + 1 < UInt32.size) :
    (positionAt source offset).line.toNat = 1 + lineEnds source offset ∧
      (positionAt source offset).column.toNat = 1 + (offset - lineStart source offset) ∧
      (positionAt source offset).offset.toNat = offset := by
  have hends := lineEnds_le source offset
  refine ⟨?_, ?_, ?_⟩ <;> simp only [positionAt] <;> exact UInt32.toNat_ofNat_of_lt' (by omega)

end Source

namespace Cursor

variable {source : Bytes} {cursor : Cursor} {offset : Nat}

theorem cons_of_drop {byte : UInt8} {rest : Bytes} (h : source.drop offset = byte :: rest) :
    source[offset]? = some byte ∧ source.drop (offset + 1) = rest := by
  constructor
  · rw [← List.head?_drop, h, List.head?_cons]
  · rw [← List.drop_drop, h, List.drop_one, List.tail_cons]

-- The cursor stands at an offset of the source.
structure At (source : Bytes) (offset : Nat) (cursor : Cursor) : Prop where
  rest : cursor.rest = source.drop offset
  position : cursor.position = Source.positionAt source offset

theorem at_ofBytes (source : Bytes) : (ofBytes source).At source 0 := ⟨rfl, rfl⟩

private theorem endsLine_eq {byte : UInt8} {rest : Bytes} (h : source.drop offset = byte :: rest) :
    endsLine byte rest = Source.endsLineAt source offset := by
  obtain ⟨hbyte, hrest⟩ := cons_of_drop h
  have hnext : source[offset + 1]? = rest.head? := by rw [← List.head?_drop, hrest]
  simp [endsLine, Source.endsLineAt, hbyte, hnext]

theorem At.advance (h : cursor.At source offset) (hoffset : offset < source.length) :
    cursor.advance.At source (offset + 1) := by
  obtain ⟨rest, position⟩ := cursor
  obtain ⟨hrest, hposition⟩ := h
  dsimp only at hrest hposition
  subst hrest hposition
  rw [List.drop_eq_getElem_cons hoffset]
  have hends := endsLine_eq (List.drop_eq_getElem_cons hoffset)
  refine ⟨rfl, ?_⟩
  simp only [Cursor.advance, hends]
  split
  · rename_i hline
    exact (Source.positionAt_succ_of_ends hline).symm
  · rename_i hline
    exact (Source.positionAt_succ_of_not_ends (Bool.eq_false_of_not_eq_true hline)).symm

theorem At.advanceBy (count : Nat) {cursor : Cursor} {offset : Nat} (h : cursor.At source offset)
    (hcount : offset + count ≤ source.length) :
    (cursor.advanceBy count).At source (offset + count) := by
  induction count generalizing cursor offset with
  | zero => exact h
  | succ count ih =>
      have hnext := ih (h.advance (by omega)) (by omega)
      rwa [Nat.add_assoc, Nat.add_comm 1 count] at hnext

end Cursor

end Sluice

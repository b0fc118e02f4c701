import Mathlib
import Sluice.Proofs.Pieces
import Sluice.Store

namespace Sluice

namespace Bytes

-- What lies behind the front is written without it.
theorem write_append (front back data : Bytes) (offset : Nat) :
    (front ++ back).write (front.length + offset) data = front ++ back.write offset data := by
  rw [write, write, List.take_length_add_append, Nat.add_assoc, List.drop_length_add_append,
    List.append_assoc, List.append_assoc, List.append_assoc]

-- What lies in the front is written without what is behind.
theorem write_append_left {front data : Bytes} {offset : Nat}
    (h : offset + data.length ≤ front.length) (back : Bytes) :
    (front ++ back).write offset data = front.write offset data ++ back := by
  rw [write, write, List.take_append_of_le_length (by omega), List.drop_append_of_le_length h,
    List.append_assoc, List.append_assoc, List.append_assoc]

theorem slice?_append_left {front : Bytes} {offset size : Nat} (h : offset + size ≤ front.length)
    (back : Bytes) : (front ++ back).slice? offset size = front.slice? offset size := by
  rw [slice?, slice?, if_pos (by rw [List.length_append]; omega), if_pos h,
    List.drop_append_of_le_length (by omega),
    List.take_append_of_le_length (by rw [List.length_drop]; omega)]

theorem le_of_slice? {bytes part : Bytes} {offset size : Nat}
    (h : bytes.slice? offset size = some part) : offset + size ≤ bytes.length := by
  unfold slice? at h
  split at h
  · assumption
  · contradiction

end Bytes

namespace Store

def frame (store : Store) : Bytes := store.bytes.toList.take store.frameSize

-- The buffer is never shorter than the frame.
def Framed (store : Store) : Prop := store.frameSize ≤ store.bytes.size

-- The buffer of a frame with a stack on top of it.
def laid (frame stack : Bytes) : Store := ⟨(frame ++ stack).toArray, frame.length⟩

section Parts

variable (frame stack : Bytes)

@[simp] theorem frame_laid : (laid frame stack).frame = frame := by
  simp [Store.frame, laid]

@[simp] theorem stack_laid : (laid frame stack).stack = stack := by
  simp [Store.stack, laid, List.extract_eq_take_drop]

theorem framed_laid : (laid frame stack).Framed := by
  simp [Framed, laid]

@[simp] theorem height_laid : (laid frame stack).height = .ok stack.length := by
  have hframed : (laid frame stack).frameSize ≤ (laid frame stack).bytes.size :=
    framed_laid frame stack
  rw [height, if_pos hframed, laid, List.size_toArray, List.length_append, Nat.add_sub_cancel_left]

theorem ofFrameSize_eq (size : UInt32) : ofFrameSize size = laid (Bytes.zeros size.toNat) [] := by
  rw [ofFrameSize, laid, List.append_nil, Bytes.length_zeros, Bytes.zeros, List.toArray_replicate]

theorem framed_ofFrameSize (size : UInt32) : (ofFrameSize size).Framed := by
  rw [ofFrameSize_eq]
  exact framed_laid ..

end Parts

theorem Framed.eq_laid {store : Store} (h : store.Framed) :
    store = laid store.frame store.stack := by
  have hstack : store.stack = store.bytes.toList.drop store.frameSize := by
    simp [stack, List.extract_eq_take_drop]
  rw [laid, hstack, frame, List.take_append_drop, List.length_take_of_le h]

theorem Framed.exists_laid {store : Store} (h : store.Framed) {frame : Bytes}
    (hframe : store.frame = frame) : ∃ rest, store = laid frame rest :=
  ⟨store.stack, hframe ▸ h.eq_laid⟩

theorem Framed.length_frame {store : Store} (h : store.Framed) :
    store.frame.length = store.frameSize := List.length_take_of_le h

-- The buffer as a list of its bytes.
section Buffers

variable {bytes data : Bytes} {frameSize start : Nat}

theorem slice_toArray (bytes : Bytes) (frameSize start size : Nat) :
    slice ⟨bytes.toArray, frameSize⟩ start size = inRange (bytes.slice? start size) := by
  simp only [slice, Bytes.slice?, List.size_toArray]
  split
  · simp [inRange, List.extract_eq_take_drop]
  · rfl

theorem length_of_slice {store : Store} {size : Nat} (h : store.slice start size = .ok data) :
    data.length = size :=
  Bytes.length_of_slice? (inRange_eq_ok.mp ((slice_toArray ..).symm.trans h))

theorem fill_toArray (h : start + data.length ≤ bytes.length) :
    fill ⟨bytes.toArray, frameSize⟩ start data.length data =
      .ok ⟨(bytes.write start data).toArray, frameSize⟩ := by
  rw [fill, if_pos ⟨by simpa using h, rfl⟩, Bytes.write]
  simp [List.extract_eq_take_drop]

-- Bytes that are written behind the end lie behind zeros.
private theorem fill_grown (bytes data : Bytes) (frameSize gap : Nat) :
    fill ⟨bytes.toArray ++ .replicate (gap + data.length) 0, frameSize⟩ (bytes.length + gap)
        data.length data =
      .ok ⟨(bytes ++ Bytes.zeros gap ++ data).toArray, frameSize⟩ := by
  have hgrown : bytes.toArray ++ .replicate (gap + data.length) 0 =
      (bytes ++ Bytes.zeros gap ++ Bytes.zeros data.length).toArray := by
    rw [← List.toArray_replicate, List.append_toArray, List.append_assoc, Bytes.zeros, Bytes.zeros,
      List.replicate_append_replicate]
  have hfront : bytes.length + gap = (bytes ++ Bytes.zeros gap).length := by
    rw [List.length_append, Bytes.length_zeros]
  have hroom : (bytes ++ Bytes.zeros gap).length + data.length ≤
      (bytes ++ Bytes.zeros gap ++ Bytes.zeros data.length).length := by
    rw [@List.length_append _ (bytes ++ Bytes.zeros gap), Bytes.length_zeros]
  have hzeros : (Bytes.zeros data.length).write 0 data = data := by
    simp [Bytes.write]
  rw [hgrown, hfront, fill_toArray hroom, ← Nat.add_zero (bytes ++ Bytes.zeros gap).length,
    Bytes.write_append, hzeros]

end Buffers

section Operations

variable {frame stack data : Bytes} {placement : Int32} {offset size : UInt32}

theorem pop_laid : (laid frame stack).pop size =
    if stack.length < size.toNat then .error (.plain (.underflow size.toNat stack.length))
    else .ok (stack.drop (stack.length - size.toNat),
      laid frame (stack.take (stack.length - size.toNat))) := by
  rw [pop, height_laid, ok_bind]
  split
  · rfl
  · rename_i hsize
    have hstart : (laid frame stack).bytes.size - size.toNat =
        frame.length + (stack.length - size.toNat) := by
      simp only [laid, List.size_toArray, List.length_append]
      omega
    have hslice : (frame ++ stack).slice? (frame.length + (stack.length - size.toNat)) size.toNat =
        some (stack.drop (stack.length - size.toNat)) := by
      rw [Bytes.slice?, if_pos (by rw [List.length_append]; omega), List.drop_length_add_append,
        List.take_of_length_le (by rw [List.length_drop]; omega)]
    have hshrink : (frame ++ stack).toArray.shrink (frame.length + (stack.length - size.toNat)) =
        (frame ++ stack.take (stack.length - size.toNat)).toArray := by
      rw [Array.shrink_eq_take, List.take_toArray, List.take_length_add_append]
    simp only [hstart]
    simp only [laid, slice_toArray, hslice, hshrink, inRange, ok_bind]

-- The size of the data has to be one that a word can hold, as all sizes of values are.
theorem push_laid (hdata : data.length < UInt32.size) : (laid frame stack).push placement data =
    if 0 ≤ placement then .ok (laid frame (stack ++ Bytes.zeros placement.toInt.toNat ++ data))
    else if stack.length < (-placement.toInt).toNat ∨ (-placement.toInt).toNat < data.length then
      .error (.plain (.placementOutside placement.toInt data.length stack.length))
    else .ok (laid frame (stack.write (stack.length - (-placement.toInt).toNat) data)) := by
  have hsize : (UInt32.ofNat data.length).toNat = data.length := UInt32.toNat_ofNat_of_lt' hdata
  simp only [push, reserve, hsize]
  split
  · have hstart : (laid frame stack).bytes.size = (frame ++ stack).length := List.size_toArray
    rw [ok_bind, hstart, laid, fill_grown, laid, List.append_assoc, List.append_assoc,
      List.append_assoc]
  · rw [height_laid, ok_bind]
    split
    · rfl
    · rename_i hinside
      have hstart : (laid frame stack).bytes.size - (-placement.toInt).toNat =
          frame.length + (stack.length - (-placement.toInt).toNat) := by
        simp only [laid, List.size_toArray, List.length_append]
        omega
      have hroom : frame.length + (stack.length - (-placement.toInt).toNat) + data.length ≤
          (frame ++ stack).length := by
        rw [List.length_append]
        omega
      rw [ok_bind, hstart, laid, fill_toArray hroom, Bytes.write_append]
      rfl

theorem readFrame_laid : (laid frame stack).readFrame offset size =
    if frame.length < offset.toNat + size.toNat then
      .error (.plain (.frameReadBeyond offset.toNat (offset.toNat + size.toNat) frame.length))
    else inRange (frame.slice? offset.toNat size.toNat) := by
  refine ite_congr rfl (fun _ => rfl) fun hinside => ?_
  rw [laid, slice_toArray, Bytes.slice?_append_left (Nat.le_of_not_lt hinside)]

theorem writeFrame_laid : (laid frame stack).writeFrame offset data =
    if frame.length < offset.toNat + data.length then
      .error (.plain (.frameWriteBeyond offset.toNat (offset.toNat + data.length) frame.length))
    else .ok (laid (frame.write offset.toNat data) stack) := by
  refine ite_congr rfl (fun _ => rfl) fun hbeyond => ?_
  have hinside : offset.toNat + data.length ≤ frame.length := Nat.le_of_not_lt hbeyond
  have hroom : offset.toNat + data.length ≤ (frame ++ stack).length := by
    rw [List.length_append]
    omega
  rw [laid, laid, fill_toArray hroom, Bytes.write_append_left hinside, Bytes.length_write hinside]

end Operations

-- Both have a frame, and it is the same.
def Keeps (store after : Store) : Prop :=
  store.Framed → after.Framed ∧ after.frame = store.frame

theorem Keeps.refl (store : Store) : store.Keeps store := fun h => ⟨h, rfl⟩

theorem Keeps.trans {first second third : Store} (h : first.Keeps second)
    (hnext : second.Keeps third) : first.Keeps third := by
  intro hfirst
  obtain ⟨hsecond, hsame⟩ := h hfirst
  obtain ⟨hthird, hnext⟩ := hnext hsecond
  exact ⟨hthird, hnext.trans hsame⟩

section Effects

variable {store after : Store} {placement : Int32} {data : Bytes} {offset size : UInt32}

private theorem length_lt_of_push (h : store.push placement data = .ok after) :
    data.length < UInt32.size := by
  obtain ⟨⟨start, room⟩, -, h⟩ := bind_eq_ok.mp h
  dsimp only at h
  unfold fill at h
  split at h
  · rename_i hroom
    rw [hroom.2]
    exact UInt32.toNat_lt _
  · contradiction

theorem keeps_push (h : store.push placement data = .ok after) : store.Keeps after := by
  intro hstore
  have hdata := length_lt_of_push h
  rw [hstore.eq_laid, push_laid hdata] at h
  split at h
  · cases h
    exact ⟨framed_laid .., frame_laid ..⟩
  · split at h
    · contradiction
    · cases h
      exact ⟨framed_laid .., frame_laid ..⟩

private theorem framed_of_height {height : Nat} (h : store.height = .ok height) : store.Framed := by
  unfold Store.height at h
  split at h
  · assumption
  · contradiction

theorem pop_eq_ok (h : store.pop size = .ok (data, after)) :
    store.Keeps after ∧ data.length = size.toNat := by
  obtain ⟨height, hheight, -⟩ := bind_eq_ok.mp h
  have hstore := framed_of_height hheight
  rw [hstore.eq_laid, pop_laid] at h
  split at h
  · contradiction
  · rename_i hsize
    cases h
    refine ⟨fun _ => ⟨framed_laid .., frame_laid ..⟩, ?_⟩
    rw [List.length_drop]
    omega

theorem readFrame_eq_ok (hstore : store.Framed)
    (h : store.frame.slice? offset.toNat size.toNat = some data) :
    store.readFrame offset size = .ok data := by
  have hinside : ¬ store.frame.length < offset.toNat + size.toNat := by
    intro hbeyond
    rw [Bytes.slice?, if_neg (Nat.not_le_of_lt hbeyond)] at h
    contradiction
  rw [hstore.eq_laid, readFrame_laid, if_neg hinside, h]
  rfl

theorem writeFrame_eq_ok (hstore : store.Framed) (h : store.writeFrame offset data = .ok after) :
    offset.toNat + data.length ≤ store.frame.length ∧ after.Framed ∧
      after.frame = store.frame.write offset.toNat data := by
  rw [hstore.eq_laid, writeFrame_laid] at h
  split at h
  · contradiction
  · rename_i hinside
    cases h
    exact ⟨Nat.le_of_not_lt hinside, framed_laid .., frame_laid ..⟩

end Effects

end Store

end Sluice

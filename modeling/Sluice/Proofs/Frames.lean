import Mathlib
import Sluice.Proofs.Execution

namespace Sluice

-- The frame bytes of a value.
def Ty.Slot (ty : Ty) (offset : UInt32) (byte : Nat) : Prop :=
  ∃ size, ty.size? = some size ∧ offset.toNat ≤ byte ∧ byte < offset.toNat + size.toNat

-- The frame bytes that an instruction reads or writes.
def Instruction.Touches (instruction : Instruction) (byte : Nat) : Prop :=
  ∃ offset, instruction.payload = .stack offset ∧ instruction.result.Slot offset byte

namespace Bytes

theorem slice?_write_self {bytes data : Bytes} {offset : Nat}
    (h : offset + data.length ≤ bytes.length) :
    (bytes.write offset data).slice? offset data.length = some data := by
  rw [slice?, if_pos (by rw [length_write h]; exact h), write]
  have hfront : (bytes.take offset).length = offset := List.length_take_of_le (by omega)
  rw [List.append_assoc, List.drop_left' hfront, List.take_left' rfl]

theorem getElem?_write {bytes data : Bytes} {offset index : Nat}
    (h : offset + data.length ≤ bytes.length)
    (hindex : index < offset ∨ offset + data.length ≤ index) :
    (bytes.write offset data)[index]? = bytes[index]? := by
  have hfront : (bytes.take offset).length = offset := List.length_take_of_le (by omega)
  rw [write, List.append_assoc]
  rcases hindex with hbefore | hbehind
  · rw [List.getElem?_append_left (by omega), List.getElem?_take_of_lt hbefore]
  · rw [List.getElem?_append_right (by omega), List.getElem?_append_right (by omega),
      List.getElem?_drop, hfront]
    congr 1
    omega

-- Bytes that no written byte is among stay as they were.
theorem slice?_write_of_disjoint {bytes data : Bytes} {offset start size : Nat}
    (h : offset + data.length ≤ bytes.length)
    (hdisjoint : ∀ index, start ≤ index → index < start + size →
      ¬ (offset ≤ index ∧ index < offset + data.length)) :
    (bytes.write offset data).slice? start size = bytes.slice? start size := by
  rw [slice?, slice?, length_write h]
  split
  · congr 1
    refine List.ext_getElem? fun index => ?_
    by_cases hindex : index < size
    · have hoff := hdisjoint (start + index) (by omega) (by omega)
      rw [List.getElem?_take_of_lt hindex, List.getElem?_take_of_lt hindex, List.getElem?_drop,
        List.getElem?_drop, getElem?_write h (by omega)]
    · rw [List.getElem?_take_eq_none (by omega), List.getElem?_take_eq_none (by omega)]
  · rfl

end Bytes

namespace Machine

variable {literals : Pool} {library : Library}

theorem keeps_popPair {store after : Store} {instruction : Instruction} {left right : Bytes}
    (h : popPair store instruction = .ok (left, right, after)) : store.Keeps after := by
  obtain ⟨size, -, h⟩ := bind_eq_ok.mp h
  obtain ⟨⟨found, middle⟩, hfirst, h⟩ := bind_eq_ok.mp h
  obtain ⟨size', -, h⟩ := bind_eq_ok.mp h
  obtain ⟨⟨found', last⟩, hsecond, h⟩ := bind_eq_ok.mp h
  cases h
  exact (Store.pop_eq_ok hfirst).1.trans (Store.pop_eq_ok hsecond).1

section Frames

variable {store after : Store} {instruction : Instruction} {size : UInt32}

theorem running_eq_ok {result : Except Failure Store} :
    (Outcome.running <$> result) = .ok (.running store) ↔ result = .ok store := by
  cases result <;> simp [Functor.map, Except.map]

theorem keeps_loadImmediate (h : loadImmediate store instruction = .ok after) :
    store.Keeps after := by
  unfold loadImmediate at h
  split at h
  · obtain ⟨first, -, h⟩ := bind_eq_ok.mp h
    obtain ⟨bytes, -, h⟩ := bind_eq_ok.mp h
    exact Store.keeps_push h
  · exact Store.keeps_push h
  · contradiction

theorem keeps_loadLiteral (h : loadLiteral literals store instruction size = .ok after) :
    store.Keeps after := by
  unfold loadLiteral at h
  split at h
  · split at h
    · exact Store.keeps_push h
    · contradiction
  · contradiction

theorem keeps_load (h : load store instruction size = .ok after) : store.Keeps after := by
  unfold load at h
  split at h
  · obtain ⟨bytes, -, h⟩ := bind_eq_ok.mp h
    exact Store.keeps_push h
  · contradiction

theorem copy_eq_ok (hstore : store.Framed) (h : copy store instruction size = .ok after) :
    ∃ offset bytes rest, instruction.payload = .stack offset ∧
      store.pop size = .ok (bytes, rest) ∧ offset.toNat + bytes.length ≤ store.frame.length ∧
      after.Framed ∧ after.frame = store.frame.write offset.toNat bytes := by
  unfold copy at h
  split at h
  · rename_i offset hpayload
    obtain ⟨⟨bytes, rest⟩, hpop, h⟩ := bind_eq_ok.mp h
    obtain ⟨written, hwrite, h⟩ := bind_eq_ok.mp h
    obtain ⟨hrest, hframe⟩ := (Store.pop_eq_ok hpop).1 hstore
    obtain ⟨hinside, hwritten, hwrite⟩ := Store.writeFrame_eq_ok hrest hwrite
    obtain ⟨hafter, hsame⟩ := Store.keeps_push h hwritten
    rw [hframe] at hinside hwrite
    exact ⟨offset, bytes, rest, hpayload, hpop, hinside, hafter, hsame.trans hwrite⟩
  · contradiction

theorem keeps_arithmetic {operation : Arithmetic.Operation}
    (h : arithmetic store instruction operation = .ok after) : store.Keeps after := by
  obtain ⟨⟨left, right, rest⟩, hpop, h⟩ := bind_eq_ok.mp h
  obtain ⟨first, -, h⟩ := bind_eq_ok.mp h
  obtain ⟨bytes, -, h⟩ := bind_eq_ok.mp h
  exact (keeps_popPair hpop).trans (Store.keeps_push h)

theorem keeps_negate (h : negate store instruction = .ok after) : store.Keeps after := by
  obtain ⟨size, -, h⟩ := bind_eq_ok.mp h
  obtain ⟨⟨value, rest⟩, hpop, h⟩ := bind_eq_ok.mp h
  obtain ⟨first, -, h⟩ := bind_eq_ok.mp h
  obtain ⟨bytes, -, h⟩ := bind_eq_ok.mp h
  exact (Store.pop_eq_ok hpop).1.trans (Store.keeps_push h)

theorem keeps_tuple (h : tuple store instruction size = .ok after) : store.Keeps after := by
  unfold tuple at h
  split at h
  · cases h
    exact .refl store
  · obtain ⟨⟨bytes, rest⟩, hpop, h⟩ := bind_eq_ok.mp h
    exact (Store.pop_eq_ok hpop).1.trans (Store.keeps_push h)

theorem keeps_member (h : member store instruction size = .ok after) :
    store.Keeps after := by
  unfold member at h
  split at h
  · obtain ⟨width, -, h⟩ := bind_eq_ok.mp h
    obtain ⟨⟨subject, rest⟩, hpop, h⟩ := bind_eq_ok.mp h
    dsimp only at h
    split at h
    · exact (Store.pop_eq_ok hpop).1.trans (Store.keeps_push h)
    · contradiction
  · contradiction

theorem keeps_sequence (h : sequence store instruction = .ok after) :
    store.Keeps after := by
  obtain ⟨⟨dropped, kept, rest⟩, hpop, h⟩ := bind_eq_ok.mp h
  exact (keeps_popPair hpop).trans (Store.keeps_push h)

theorem keeps_call (h : call library store instruction size = .ok after) :
    store.Keeps after := by
  obtain ⟨⟨handle, argument, rest⟩, hpop, h⟩ := bind_eq_ok.mp h
  dsimp only at h
  split at h
  · contradiction
  · split at h
    · obtain ⟨bytes, -, h⟩ := bind_eq_ok.mp h
      exact (keeps_popPair hpop).trans (Store.keeps_push h)
    · contradiction

-- Only a COPY changes the frame: it writes the bytes that it pops.
theorem frame_of_advance (hstore : store.Framed)
    (h : advance literals library store instruction = .ok after) :
    after.Framed ∧ (instruction.op ≠ .copy ∧ after.frame = store.frame ∨
      instruction.op = .copy ∧ ∃ offset size bytes rest, instruction.payload = .stack offset ∧
        instruction.result.size? = some size ∧ store.pop size = .ok (bytes, rest) ∧
        offset.toNat + bytes.length ≤ store.frame.length ∧
        after.frame = store.frame.write offset.toNat bytes) := by
  obtain ⟨outcome, hstep, hrunning⟩ := bind_eq_ok.mp h
  cases outcome with
  | done value => contradiction
  | running found =>
      cases hrunning
      obtain ⟨size, hsize, hstep⟩ := bind_eq_ok.mp hstep
      have hkeeps : store.Keeps after → instruction.op ≠ .copy →
          after.Framed ∧ (instruction.op ≠ .copy ∧ after.frame = store.frame ∨
            instruction.op = .copy ∧ ∃ offset size bytes rest, instruction.payload = .stack offset ∧
              instruction.result.size? = some size ∧ store.pop size = .ok (bytes, rest) ∧
              offset.toNat + bytes.length ≤ store.frame.length ∧
              after.frame = store.frame.write offset.toNat bytes) := fun hkept hop =>
        ⟨(hkept hstore).1, .inl ⟨hop, (hkept hstore).2⟩⟩
      cases hop : instruction.op <;> simp only [hop, running_eq_ok] at hstep hkeeps ⊢
      case copy =>
        obtain ⟨offset, bytes, rest, hpayload, hpop, hinside, hafter, hframe⟩ :=
          copy_eq_ok hstore hstep
        exact ⟨hafter, .inr ⟨trivial, offset, size, bytes, rest, hpayload, inRange_eq_ok.mp hsize,
          hpop, hinside, hframe⟩⟩
      case unresolved => contradiction
      case finish =>
        cases hfinish : finish store instruction size <;>
          simp [hfinish, Functor.map, Except.map] at hstep
      all_goals refine hkeeps ?_ (by simp)
      case nop =>
        cases hstep
        exact .refl store
      case loadI => exact keeps_loadImmediate hstep
      case loadL => exact keeps_loadLiteral hstep
      case load => exact keeps_load hstep
      case add => exact keeps_arithmetic hstep
      case sub => exact keeps_arithmetic hstep
      case mul => exact keeps_arithmetic hstep
      case neg => exact keeps_negate hstep
      case tuple => exact keeps_tuple hstep
      case member => exact keeps_member hstep
      case seq => exact keeps_sequence hstep
      case call => exact keeps_call hstep

-- A run keeps the frame below the stack.
theorem framed_of_exec {code : List Instruction} (hstore : store.Framed)
    (h : exec literals library store code = .ok after) : after.Framed := by
  induction code generalizing store with
  | nil =>
      cases h
      exact hstore
  | cons instruction code ih =>
      obtain ⟨middle, hadvance, h⟩ := bind_eq_ok.mp h
      exact ih (frame_of_advance hstore hadvance).1 h

-- A stretch of code that stays out of some bytes.
theorem slice?_of_exec {code : List Instruction} {start width : Nat} (hstore : store.Framed)
    (h : exec literals library store code = .ok after)
    (hspares : ∀ copy ∈ code, copy.op = .copy → ∀ byte, copy.Touches byte →
      ¬ (start ≤ byte ∧ byte < start + width)) :
    after.frame.slice? start width = store.frame.slice? start width := by
  induction code generalizing store with
  | nil =>
      cases h
      rfl
  | cons instruction code ih =>
      obtain ⟨middle, hadvance, h⟩ := bind_eq_ok.mp h
      obtain ⟨hfirst, hrest⟩ := List.forall_mem_cons.mp hspares
      obtain ⟨hmiddle, ⟨-, hframe⟩ |
        ⟨hop, offset, size, bytes, rest, hpayload, hsize, hpop, hinside, hframe⟩⟩ :=
        frame_of_advance hstore hadvance
      · rw [ih hmiddle h hrest, hframe]
      · rw [ih hmiddle h hrest, hframe]
        refine Bytes.slice?_write_of_disjoint hinside fun index hstart hend hwritten => ?_
        have hlength := (Store.pop_eq_ok hpop).2
        exact hfirst hop index ⟨offset, hpayload, size, hsize, by omega⟩ ⟨hstart, hend⟩

end Frames

end Machine

end Sluice

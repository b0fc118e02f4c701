import Mathlib
import Sluice.Proofs.ForeignCode
import Sluice.Proofs.StackLayout

namespace Sluice

-- Another native in place of one, with the same name and type. Only one call may tell them apart.
structure Native.Varies (native other : Native) (argument : Bytes) (width : Nat) : Prop where
  name : other.name = native.name
  ty : other.ty = native.ty
  run : ∀ (bytes : Bytes) (space : Nat), (bytes, space) ≠ (argument, width) →
    other.run bytes space = native.run bytes space

-- Gives up on one call where the native answers, and the other way around.
def Native.contrary (native : Native) (argument : Bytes) (width : Nat) : Native where
  name := native.name
  ty := native.ty
  run bytes space :=
    if (bytes, space) ≠ (argument, width) then native.run bytes space
    else (native.run bytes space).elim (some (Bytes.zeros space)) fun _ => none
  length_run := by
    intro bytes space result h
    split at h
    · exact native.length_run h
    · cases hrun : native.run bytes space with
      | none =>
          rw [hrun] at h
          cases h
          exact Bytes.length_zeros space
      | some answer =>
          rw [hrun] at h
          contradiction

theorem Native.varies_contrary (native : Native) (argument : Bytes) (width : Nat) :
    native.Varies (native.contrary argument width) argument width :=
  ⟨rfl, rfl, fun _ _ hne => if_pos hne⟩

theorem Bytes.getElem?_write_inside {bytes data : Bytes} {offset index : Nat}
    (h : offset + data.length ≤ bytes.length) (hoffset : offset ≤ index)
    (hindex : index < offset + data.length) :
    (bytes.write offset data)[index]? = data[index - offset]? := by
  have hfront : (bytes.take offset).length = offset := List.length_take_of_le (by omega)
  rw [write, List.append_assoc, List.getElem?_append_right (by omega), hfront,
    List.getElem?_append_left (by omega)]

namespace Library

def replaced (library : Library) (id : NativeId) (native : Native) : Library :=
  { library with natives := library.natives.set id.index.toNat native }

theorem native?_replaced_self {library : Library} {id : NativeId} {native other : Native}
    (h : library.native? id = some native) :
    (library.replaced id other).native? id = some other := by
  have hbound : id.index.toNat < library.natives.length := (List.getElem?_eq_some_iff.mp h).1
  exact List.getElem?_set_self hbound

theorem native?_replaced_of_ne {library : Library} {id asked : NativeId} {other : Native}
    (h : asked ≠ id) : (library.replaced id other).native? asked = library.native? asked := by
  refine List.getElem?_set_ne fun heq => h ?_
  obtain ⟨index⟩ := asked
  exact congrArg NativeId.mk (UInt32.toNat_inj.mp heq).symm

end Library

namespace Machine

-- A step asks a native about an argument, with so many zeros for the result, if another answer to
-- that would change the outcome of the step.
def Asks (literals : Pool) (library : Library) (store : Store) (instruction : Instruction)
    (native : Native) (argument : Bytes) (width : Nat) : Prop :=
  ∃ id other, library.native? id = some native ∧ native.Varies other argument width ∧
    step literals (library.replaced id other) store instruction ≠
      step literals library store instruction

section Natives

variable {literals : Pool} {library other : Library} {store : Store} {instruction : Instruction}

-- Only a CALL looks at the library.
theorem step_eq_of_not_call (h : instruction.op ≠ .call) :
    step literals other store instruction = step literals library store instruction := by
  unfold step
  cases hop : instruction.op with
  | call => exact absurd hop h
  | _ => rfl

theorem fits_varies {native changed : Native} {argument bytes : Bytes} {width : Nat}
    (h : native.Varies changed argument width) (size : UInt32) :
    fits changed instruction bytes size = fits native instruction bytes size := by
  simp only [fits, h.ty]

-- A CALL that finds a native under the handle it pops. The native is called under its own type, with
-- an argument and a result of the sizes of that type.
structure Calls (library : Library) (store : Store) (instruction : Instruction)
    (native : Native) (argument : Bytes) (width : Nat) : Prop where
  op : instruction.op = .call
  popped : ∃ handle rest, popPair store instruction = .ok (handle, argument, rest) ∧
    (NativeId.ofBytes? handle).bind library.native? = some native
  registered : ∃ ty, instruction.operands.head? = some ty ∧ ty.same native.ty = true
  argument : (native.ty.argument?.bind Ty.size?).map UInt32.toNat = some argument.length
  result : ∃ size, instruction.result.size? = some size ∧ size.toNat = width ∧
    native.ty.result?.bind Ty.size? = some size

-- The check of a CALL stands in front of every native.
theorem Asks.calls {native : Native} {argument : Bytes} {width : Nat}
    (h : Asks literals library store instruction native argument width) :
    Calls library store instruction native argument width := by
  obtain ⟨id, changed, hnative, hvaries, hne⟩ := h
  by_cases hop : instruction.op = .call
  · cases hsize : instruction.result.size? with
    | none =>
        simp only [step, hsize, inRange, error_bind] at hne
        exact absurd rfl hne
    | some size =>
        simp only [step, hsize, inRange, ok_bind, hop, call] at hne
        cases hpop : popPair store instruction with
        | error failure =>
            simp only [hpop, error_bind] at hne
            exact absurd rfl hne
        | ok popped =>
            obtain ⟨handle, found, rest⟩ := popped
            simp only [hpop, ok_bind] at hne
            cases hid : NativeId.ofBytes? handle with
            | none =>
                simp only [hid, Option.bind_none] at hne
                exact absurd rfl hne
            | some asked =>
                simp only [hid, Option.bind_some] at hne
                -- a handle of another native does not notice the change
                by_cases hasked : asked = id
                · subst hasked
                  simp only [Library.native?_replaced_self hnative, hnative, hvaries.name, hvaries.ty,
                    fits_varies hvaries] at hne
                  by_cases hfits : fits native instruction found size = true
                  · rw [if_pos hfits, if_pos hfits] at hne
                    have hcall : (found, size.toNat) = (argument, width) := by
                      by_contra hother
                      rw [hvaries.run found size.toNat hother] at hne
                      exact hne rfl
                    obtain ⟨rfl, rfl⟩ := Prod.mk.inj hcall
                    obtain ⟨hregistered, hargument, hresult⟩ := fits_iff.mp hfits
                    refine ⟨hop, ⟨handle, rest, hpop, ?_⟩, hregistered, hargument, size, hsize, rfl,
                      hresult⟩
                    rw [hid, Option.bind_some, hnative]
                  · rw [if_neg hfits, if_neg hfits] at hne
                    exact absurd rfl hne
                · rw [Library.native?_replaced_of_ne hasked] at hne
                  exact absurd rfl hne
  · exact absurd (step_eq_of_not_call hop) hne

-- Another answer would be noticed, even if the result could not be placed afterwards.
theorem Calls.asks {native : Native} {argument : Bytes} {width : Nat} (hstore : store.Framed)
    (h : Calls library store instruction native argument width) :
    Asks literals library store instruction native argument width := by
  obtain ⟨handle, rest, hpop, hbind⟩ := h.popped
  obtain ⟨size, hsize, rfl, hresult⟩ := h.result
  obtain ⟨id, hid, hnative⟩ := Option.bind_eq_some_iff.mp hbind
  have hvaries := native.varies_contrary argument size.toNat
  have hfits : fits native instruction argument size = true :=
    fits_iff.mpr ⟨h.registered, h.argument, hresult⟩
  have hchanged : (library.replaced id (native.contrary argument size.toNat)).native? id =
      some (native.contrary argument size.toNat) := Library.native?_replaced_self hnative
  refine ⟨id, _, hnative, hvaries, ?_⟩
  have hcalls : ∀ found : Library,
      (NativeId.ofBytes? handle).bind found.native? = found.native? id := by
    intro found
    rw [hid, Option.bind_some]
  have hrun : (native.contrary argument size.toNat).run argument size.toNat =
      (native.run argument size.toNat).elim (some (Bytes.zeros size.toNat)) fun _ => none :=
    if_neg (by simp)
  have hnoticed : ∀ data : Bytes, data.length = size.toNat →
      (Except.error (.plain .outOfRange) : Except Failure Outcome) ≠
        Outcome.running <$> rest.push instruction.placement data := by
    intro data hdata heq
    have hpushed := @Store.checked_push rest instruction.placement data
      (popPair_eq_ok hstore hpop).1 (hdata ▸ size.toNat_lt)
    exact hpushed.not_lost (lost_map.mp heq.symm)
  simp only [step, hsize, inRange, ok_bind, h.op, call, hpop, hcalls, hnative, hchanged,
    fits_varies hvaries, hfits, if_true, hrun]
  cases hanswer : native.run argument size.toNat with
  | none => exact (hnoticed _ (Bytes.length_zeros _)).symm
  | some result => exact hnoticed result (native.length_run hanswer)

end Natives

section Frame

variable {literals : Pool} {library : Library} {start after : Store}

-- The last COPY whose slot has the byte took this value for it off the stack.
def Left (literals : Pool) (library : Library) (start : Store) (code : List Instruction)
    (byte : Nat) (value : UInt8) : Prop :=
  ∃ front copy back, code = front ++ copy :: back ∧ copy.op = .copy ∧
    (∀ later ∈ back, later.op = .copy → ¬ later.Touches byte) ∧
    ∃ offset size reached data rest, copy.payload = .stack offset ∧
      copy.result.size? = some size ∧ exec literals library start front = .ok reached ∧
      reached.pop size = .ok (data, rest) ∧ offset.toNat ≤ byte ∧
      data[byte - offset.toNat]? = some value

theorem Left.append {code : List Instruction} {byte : Nat} {value : UInt8}
    (h : Left literals library start code byte value) {last : Instruction}
    (hlast : last.op = .copy → ¬ last.Touches byte) :
    Left literals library start (code ++ [last]) byte value := by
  obtain ⟨front, copy, back, rfl, hop, hback, htaken⟩ := h
  refine ⟨front, copy, back ++ [last], by simp, hop, ?_, htaken⟩
  exact List.forall_mem_append.mpr ⟨hback, List.forall_mem_singleton.mpr hlast⟩

-- A byte of the frame is the one it was, or the one that the last COPY of it has left.
theorem frame_byte_of_exec {code : List Instruction} (hstart : start.Framed)
    (h : exec literals library start code = .ok after) (byte : Nat) :
    ((∀ copy ∈ code, copy.op = .copy → ¬ copy.Touches byte) ∧
        after.frame[byte]? = start.frame[byte]?) ∨
      ∃ value, Left literals library start code byte value ∧ after.frame[byte]? = some value := by
  induction code using List.reverseRecOn generalizing after with
  | nil =>
      cases h
      exact .inl ⟨by simp, rfl⟩
  | append_singleton code last ih =>
      rw [exec_append] at h
      obtain ⟨reached, hreached, h⟩ := bind_eq_ok.mp h
      rw [exec_singleton] at h
      have hkept : (last.op = .copy → ¬ last.Touches byte) →
          after.frame[byte]? = reached.frame[byte]? →
          ((∀ copy ∈ code ++ [last], copy.op = .copy → ¬ copy.Touches byte) ∧
              after.frame[byte]? = start.frame[byte]?) ∨
            ∃ value, Left literals library start (code ++ [last]) byte value ∧
              after.frame[byte]? = some value := by
        intro hlast hframe
        rw [hframe]
        rcases ih hreached with ⟨hcode, hsame⟩ | ⟨value, hleft, hvalue⟩
        · refine .inl ⟨List.forall_mem_append.mpr ⟨hcode, ?_⟩, hsame⟩
          exact List.forall_mem_singleton.mpr hlast
        · exact .inr ⟨value, hleft.append hlast, hvalue⟩
      obtain ⟨-, ⟨hop, hframe⟩ |
        ⟨hop, offset, size, data, rest, hpayload, hsize, hpop, hinside, hframe⟩⟩ :=
        frame_of_advance (framed_of_exec hstart hreached) h
      · exact hkept (fun hcopy => absurd hcopy hop) (by rw [hframe])
      · have hlength := (Store.pop_eq_ok hpop).2
        by_cases hbyte : offset.toNat ≤ byte ∧ byte < offset.toNat + data.length
        · have hvalue : byte - offset.toNat < data.length := by omega
          refine .inr ⟨data[byte - offset.toNat], ⟨code, last, [], rfl, hop, by simp, offset, size,
            reached, data, rest, hpayload, hsize, hreached, hpop, hbyte.1,
            List.getElem?_eq_getElem hvalue⟩, ?_⟩
          rw [hframe, Bytes.getElem?_write_inside hinside hbyte.1 hbyte.2]
          exact List.getElem?_eq_getElem hvalue
        · refine hkept ?_ ?_
          · rintro - ⟨found, hfound, width, hwidth, hslot⟩
            cases hpayload.symm.trans hfound
            cases hsize.symm.trans hwidth
            omega
          · rw [hframe, Bytes.getElem?_write hinside (by omega)]

theorem length_frame_of_exec {code : List Instruction} (hstart : start.Framed)
    (h : exec literals library start code = .ok after) :
    after.frame.length = start.frame.length := by
  induction code using List.reverseRecOn generalizing after with
  | nil =>
      cases h
      rfl
  | append_singleton code last ih =>
      rw [exec_append] at h
      obtain ⟨reached, hreached, h⟩ := bind_eq_ok.mp h
      rw [exec_singleton] at h
      rw [← ih hreached]
      obtain ⟨-, ⟨-, hframe⟩ | ⟨-, _, _, _, _, -, -, -, hinside, hframe⟩⟩ :=
        frame_of_advance (framed_of_exec hstart hreached) h
      · rw [hframe]
      · rw [hframe, Bytes.length_write hinside]

-- No COPY that is run goes beyond the frame.
private theorem slot_inside_of_exec {code : List Instruction} (hstart : start.Framed)
    (h : exec literals library start code = .ok after) :
    ∀ copy ∈ code, copy.op = .copy → ∀ byte, copy.Touches byte → byte < start.frame.length := by
  intro copy hmem hop byte htouches
  obtain ⟨front, back, rfl⟩ := List.append_of_mem hmem
  rw [exec_append] at h
  obtain ⟨reached, hreached, h⟩ := bind_eq_ok.mp h
  obtain ⟨next, hnext, -⟩ := bind_eq_ok.mp h
  rw [← length_frame_of_exec hstart hreached]
  obtain ⟨-, ⟨hne, -⟩ | ⟨-, offset, size, data, rest, hpayload, hsize, hpop, hinside, -⟩⟩ :=
    frame_of_advance (framed_of_exec hstart hreached) hnext
  · exact absurd hop hne
  · obtain ⟨found, hfound, width, hwidth, hslot⟩ := htouches
    cases hpayload.symm.trans hfound
    cases hsize.symm.trans hwidth
    have hlength := (Store.pop_eq_ok hpop).2
    omega

end Frame

end Machine

-- Whatever part of some code has been run, its frame is intact and the natives are asked properly.
theorem exec_isolates (literals : Pool) (library : Library) (size : UInt32)
    (before after : List Instruction) (store : Store)
    (h : Machine.exec literals library (.ofFrameSize size) before = .ok store) :
    (Machine.run literals library 0 (.ofFrameSize size) (before ++ after)).2 =
      (Machine.run literals library before.length store after).2 ∧
    store.frameSize = size.toNat ∧ size.toNat ≤ store.bytes.size ∧
    (∀ byte < size.toNat,
      ((∀ copy ∈ before, copy.op = .copy → ¬ copy.Touches byte) ∧ store.bytes[byte]? = some 0) ∨
      ∃ value, Machine.Left literals library (.ofFrameSize size) before byte value ∧
        store.bytes[byte]? = some value) ∧
    (∀ copy ∈ before, copy.op = .copy → ∀ byte, copy.Touches byte → byte < size.toNat) ∧
    ∀ instruction native argument width,
      Machine.Asks literals library store instruction native argument width ↔
        Machine.Calls library store instruction native argument width := by
  have hframed : (Store.ofFrameSize size).Framed := Store.framed_ofFrameSize size
  have hstart : (Store.ofFrameSize size).frame = Bytes.zeros size.toNat := by
    rw [Store.ofFrameSize_eq, Store.frame_laid]
  have hlength : (Store.ofFrameSize size).frame.length = size.toNat := hframed.length_frame
  have hstore := Machine.framed_of_exec hframed h
  have hsize : store.frameSize = size.toNat := by
    rw [← hstore.length_frame, Machine.length_frame_of_exec hframed h, hlength]
  refine ⟨?_, hsize, hsize ▸ hstore, fun byte hbyte => ?_, ?_, ?_⟩
  · rw [Machine.run_of_exec_ok after h, Nat.zero_add]
  · have hbytes : store.bytes[byte]? = store.frame[byte]? := by
      rw [Store.frame, List.getElem?_take_of_lt (hsize ▸ hbyte), Array.getElem?_toList]
    have hzero : (Store.ofFrameSize size).frame[byte]? = some 0 := by
      rw [hstart]
      exact List.getElem?_replicate_of_lt hbyte
    rw [hbytes, ← hzero]
    exact Machine.frame_byte_of_exec hframed h byte
  · rw [← hlength]
    exact Machine.slot_inside_of_exec hframed h
  · intro instruction native argument width
    exact ⟨Machine.Asks.calls, Machine.Calls.asks hstore⟩

-- The code of `(a := seven) |> echo` in front of its CALL, the CALL, and what it finds.
def Instruction.binding : List Instruction :=
  [⟨.loadL, .ofPrimitive .i32, [], .literal 0, 0, .start⟩,
    ⟨.copy, .ofPrimitive .i32, [.ofPrimitive .i32], .stack 0, 8, .start⟩,
    ⟨.loadI, .func (.ofPrimitive .i32) (.ofPrimitive .i32), [], .native ⟨0⟩, -12, .start⟩]

def Instruction.echo : Instruction :=
  ⟨.call, .ofPrimitive .i32,
    [.func (.ofPrimitive .i32) (.ofPrimitive .i32), .ofPrimitive .i32], .none, 0, .start⟩

def Store.bound : Store := ⟨#[7, 0, 0, 0, 0, 0, 0, 0, 0, 0, 0, 0, 7, 0, 0, 0], 4⟩

theorem exec_isolates_binding :
    Machine.exec ⟨[7, 0, 0, 0]⟩ .echoing (.ofFrameSize 4) Instruction.binding = .ok .bound ∧
    (∀ byte < 4, ∃ value,
      Machine.Left ⟨[7, 0, 0, 0]⟩ .echoing (.ofFrameSize 4) Instruction.binding byte value ∧
        Store.bound.bytes[byte]? = some value) ∧
    ∃ native ∈ Library.echoing.natives,
      Machine.Asks ⟨[7, 0, 0, 0]⟩ .echoing .bound .echo native [7, 0, 0, 0] 4 := by
  have hexec : Machine.exec ⟨[7, 0, 0, 0]⟩ .echoing (.ofFrameSize 4) Instruction.binding =
      .ok .bound := by decide +kernel
  obtain ⟨-, -, -, hframe, -, hasks⟩ := exec_isolates _ _ _ _ [.echo] _ hexec
  have hsize : (Ty.ofPrimitive .i32).size? = some 4 := by decide +kernel
  refine ⟨hexec, fun byte hbyte => ?_, _, List.mem_singleton_self _, (hasks .echo _ _ _).mpr ?_⟩
  · refine (hframe byte hbyte).resolve_left fun hzero => ?_
    refine hzero.1 _ (List.mem_cons_of_mem _ List.mem_cons_self) rfl ⟨0, rfl, 4, hsize, ?_, ?_⟩
    · exact Nat.zero_le byte
    · simpa using hbyte
  · refine ⟨rfl, ⟨NativeId.toBytes ⟨0⟩, ⟨#[7, 0, 0, 0], 4⟩, by decide +kernel, rfl⟩,
      ⟨_, rfl, by decide +kernel⟩, by decide +kernel, 4, hsize, rfl, by decide +kernel⟩

end Sluice

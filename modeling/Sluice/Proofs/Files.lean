import Mathlib
import Sluice.Bytecode.File
import Sluice.Proofs.Codecs
import Sluice.Proofs.CompiledTypes
import Sluice.Proofs.Mistakes

namespace Sluice

namespace Bytecode

-- What stands in front of a program.
def heading (timestamp : UInt64) : Bytes :=
  magic ++ Bytes.ofNat 2 version.toNat ++ Bytes.ofNat 8 timestamp.toNat

theorem write_eq (timestamp : UInt64) (it : Program) :
    write timestamp it = heading timestamp ++ program.encode it := rfl

theorem length_heading (timestamp : UInt64) : (heading timestamp).length = 14 := by
  simp [heading, magic]

theorem take_eq_ok {bytes front rest : Bytes} {count : Nat}
    (h : take count bytes = .ok (front, rest)) : bytes = front ++ rest ∧ front.length = count := by
  unfold take at h
  split at h
  · contradiction
  · rename_i parts hsplit
    cases h
    exact Bytes.split?_eq_some hsplit

theorem take_append {front rest : Bytes} {count : Nat} (h : front.length = count) :
    take count (front ++ rest) = .ok (front, rest) := by
  rw [take, ← h, Bytes.split?_append]

theorem readHeader_heading (timestamp : UInt64) (rest : Bytes) :
    readHeader (heading timestamp ++ rest) = .ok (⟨version, timestamp⟩, rest) := by
  have hmagic : magic.length = 4 := rfl
  have hversion : UInt16.ofNat (Bytes.toNat (Bytes.ofNat 2 version.toNat)) = version := by decide
  have htimestamp : Bytes.toNat (Bytes.ofNat 8 timestamp.toNat) = timestamp.toNat :=
    Bytes.toNat_ofNat timestamp.toNat_lt
  simp only [heading, List.append_assoc, readHeader, take_append hmagic, ok_bind,
    take_append (Bytes.length_ofNat ..), hversion, htimestamp, UInt64.ofNat_toNat, ne_eq,
    not_true_eq_false, if_false]

theorem readHeader_eq_ok {bytes body : Bytes} {found : Header}
    (h : readHeader bytes = .ok (found, body)) : bytes = heading found.timestamp ++ body := by
  obtain ⟨⟨mark, afterMark⟩, hmark, h⟩ := bind_eq_ok.mp h
  dsimp only at h
  split at h
  · contradiction
  · rename_i hmagic
    obtain ⟨⟨number, afterNumber⟩, hnumber, h⟩ := bind_eq_ok.mp h
    dsimp only at h
    split at h
    · contradiction
    · rename_i hversion
      obtain ⟨⟨seconds, rest⟩, hseconds, h⟩ := bind_eq_ok.mp h
      cases h
      have hwritten : number = Bytes.ofNat 2 version.toNat := by
        have hwidth := (take_eq_ok hnumber).2
        have hlt := Bytes.toNat_lt number
        rw [hwidth] at hlt
        rw [← not_not.mp hversion, UInt16.toNat_ofNat_of_lt' hlt, ← hwidth, Bytes.ofNat_toNat]
      have htime : seconds = Bytes.ofNat 8 (UInt64.ofNat (Bytes.toNat seconds)).toNat := by
        have hwidth := (take_eq_ok hseconds).2
        have hlt := Bytes.toNat_lt seconds
        rw [hwidth] at hlt
        rw [UInt64.toNat_ofNat_of_lt' hlt, ← hwidth, Bytes.ofNat_toNat]
      rw [(take_eq_ok hmark).1, (take_eq_ok hnumber).1, (take_eq_ok hseconds).1, heading, ← htime,
        ← hwritten, not_not.mp hmagic, List.append_assoc, List.append_assoc]

-- A heading has fourteen bytes, and each of its three parts may be the one that breaks off.
theorem readHeader_cut {timestamp : UInt64} {front back : Bytes}
    (h : heading timestamp = front ++ back) (hback : back ≠ []) :
    readHeader front = .error .cutHeader := by
  have hlength := congrArg List.length h
  have hpositive := List.length_pos_iff.mpr hback
  rw [length_heading, List.length_append] at hlength
  have hfront : front = (heading timestamp).take front.length := by rw [h, List.take_left]
  have hshort : front.length < 14 := by omega
  rw [hfront]
  generalize front.length = count at hshort
  interval_cases count <;> rfl

theorem checkTypes_eq_ok {index : Nat} {instructions : List Instruction} :
    checkTypes index instructions = .ok () ↔
      ∀ it ∈ instructions, it.Typed fun ty => ty.isWellFormed = true := by
  induction instructions generalizing index with
  | nil => simp [checkTypes]
  | cons it rest ih =>
      rw [checkTypes, List.forall_mem_cons]
      cases hmalformed : malformed? it with
      | none =>
          have hall : it.Typed fun ty => ty.isWellFormed = true := by
            simpa [malformed?, Instruction.Typed] using List.find?_eq_none.mp hmalformed
          simp [ih, hall]
      | some ty =>
          have hsome := List.find?_some hmalformed
          have hmem := List.mem_of_find?_eq_some hmalformed
          simp only [reduceCtorEq, false_iff, not_and]
          intro hall
          rw [hall ty hmem] at hsome
          contradiction

-- Programs that can be read: lengths have eight bytes, and types are checked.
structure Readable (it : Program) : Prop where
  counted : it.Counted
  typed : ∀ instruction ∈ it.instructions.toList,
    instruction.Typed fun ty => ty.isWellFormed = true

theorem decode_body (it : Program) (hit : it.Counted) (rest : Bytes) :
    program.decode (program.encode it ++ rest) = .ok (it, rest) :=
  (lawful_program.reads hit).whole rest

theorem read_write {it : Program} (h : Readable it) (timestamp : UInt64) (rest : Bytes) :
    read (write timestamp it ++ rest) = .ok it := by
  rw [write_eq, List.append_assoc, read, readHeader_heading, ok_bind]
  dsimp only
  rw [decode_body it h.counted]
  dsimp only
  rw [checkTypes_eq_ok.mpr h.typed, ok_bind]

theorem read_cut {it : Program} {timestamp : UInt64} {front back : Bytes} (h : it.Counted)
    (hcut : write timestamp it = front ++ back) (hback : back ≠ []) :
    read front = .error (if front.length < 14 then .cutHeader else .badBody .truncated) := by
  rw [write_eq] at hcut
  rcases Codec.cut_cases hcut with ⟨left, hleft, hfront⟩ | ⟨begun, rfl, hbegun⟩
  · have hlength := congrArg List.length hfront
    have hpositive := List.length_pos_iff.mpr hleft
    rw [length_heading, List.length_append] at hlength
    rw [if_pos (by omega), read, readHeader_cut hfront hleft, error_bind]
  · rw [List.length_append, length_heading, if_neg (by omega), read, readHeader_heading, ok_bind]
    dsimp only
    rw [(lawful_program.reads h).cut hbegun hback]

theorem read_eq_ok {bytes : Bytes} {it : Program} (h : read bytes = .ok it) :
    ∃ found rest, readHeader bytes = .ok (found, program.encode it ++ rest) ∧ Readable it ∧
      bytes = write found.timestamp it ++ rest := by
  obtain ⟨⟨found, body⟩, hheader, h⟩ := bind_eq_ok.mp h
  dsimp only at h
  split at h
  · contradiction
  · rename_i decoded rest hbody
    obtain ⟨⟨⟩, htypes, h⟩ := bind_eq_ok.mp h
    cases h
    obtain ⟨hcounted, rfl⟩ := lawful_program.canonical hbody
    refine ⟨found, rest, hheader, ⟨hcounted, checkTypes_eq_ok.mp htypes⟩, ?_⟩
    rw [readHeader_eq_ok hheader, write_eq, List.append_assoc]

-- The bytes behind the program of a file.
def unread (bytes : Bytes) : Bytes :=
  match readHeader bytes with
  | .error _ => bytes
  | .ok (_, body) =>
      match program.decode body with
      | .error _ => body
      | .ok (_, rest) => rest

-- The part of a file that reading has gone through.
def consumed (bytes : Bytes) : Bytes :=
  bytes.take (bytes.length - (unread bytes).length)

theorem consumed_write {it : Program} (h : it.Counted) (timestamp : UInt64) (rest : Bytes) :
    consumed (write timestamp it ++ rest) = write timestamp it := by
  have hunread : unread (write timestamp it ++ rest) = rest := by
    rw [write_eq, List.append_assoc, unread, readHeader_heading]
    dsimp only
    rw [decode_body it h]
  rw [consumed, hunread, List.length_append, Nat.add_sub_cancel, List.take_left]

-- A file has one form: writing the program again gives the bytes it was read from. Files of one
-- program differ in nothing but the heading and what is left over, and no shorter part of what was
-- read is a file.
theorem write_eq_consumed (bytes : Bytes) (it : Program) (h : read bytes = .ok it) :
    (∃ found body, readHeader bytes = .ok (found, body) ∧
      write found.timestamp it = consumed bytes) ∧
    consumed bytes <+: bytes ∧ (∀ rest, read (consumed bytes ++ rest) = .ok it) ∧
    (∀ other, read other = .ok it → (consumed other).drop 14 = (consumed bytes).drop 14) ∧
    ∀ front, front <+: consumed bytes → front ≠ consumed bytes → ∀ program, read front ≠ .ok program := by
  obtain ⟨found, rest, hheader, hit, rfl⟩ := read_eq_ok h
  have hbody : ∀ timestamp, (write timestamp it).drop 14 = program.encode it := fun timestamp => by
    rw [write_eq, ← length_heading timestamp, List.drop_left]
  rw [consumed_write hit.counted]
  refine ⟨⟨found, _, hheader, rfl⟩, List.prefix_append .., read_write hit _, ?_, ?_⟩
  · intro other hother
    obtain ⟨again, behind, -, -, rfl⟩ := read_eq_ok hother
    rw [consumed_write hit.counted, hbody, hbody]
  · rintro front ⟨back, hback⟩ hne program hread
    have hcut : back ≠ [] := by
      rintro rfl
      exact hne (by simpa using hback)
    rw [read_cut hit.counted hback.symm hcut] at hread
    cases hread

-- A pair of a number with a point and one without, in a file that goes on with a stray byte.
def pairing : Program :=
  ⟨#[⟨.loadI, .ofPrimitive .f64, [], .immediate (.float 4609434218613702656), 0, .start⟩,
    ⟨.loadI, .ofPrimitive .i32, [], .immediate (.int (-2)), 0, .start⟩,
    ⟨.tuple, .tuple [.ofPrimitive .f64, .ofPrimitive .i32],
      [.ofPrimitive .f64, .ofPrimitive .i32], .none, 0, .start⟩,
    ⟨.finish, .tuple [.ofPrimitive .f64, .ofPrimitive .i32],
      [.tuple [.ofPrimitive .f64, .ofPrimitive .i32]], .none, 0, .start⟩], ⟨[7, 0]⟩, 3⟩

def pairFile : Bytes := write 1700000000 pairing ++ [255]

theorem write_pair_eq_consumed :
    read pairFile = .ok pairing ∧
    (∃ found body, readHeader pairFile = .ok (found, body) ∧
      write found.timestamp pairing = consumed pairFile) ∧
    consumed pairFile <+: pairFile ∧ (∀ rest, read (consumed pairFile ++ rest) = .ok pairing) ∧
    (∀ other, read other = .ok pairing → (consumed other).drop 14 = (consumed pairFile).drop 14) ∧
    ∀ front, front <+: consumed pairFile → front ≠ consumed pairFile →
      ∀ program, read front ≠ .ok program := by
  have hread : read pairFile = .ok pairing := by decide +kernel
  exact ⟨hread, write_eq_consumed pairFile pairing hread⟩

end Bytecode

theorem Source.compile_eq_ok {library : Library} {source : Bytes} {program : Program}
    (h : Source.compile library source = .ok program) :
    ∃ tokens, (Analysis.compile library tokens).2 = .ok program := by
  unfold Source.compile Source.compileLogged at h
  split at h
  · contradiction
  · rename_i tokens htokens
    exact ⟨tokens, h⟩

-- A length that fits into eight bytes is also one that member tables can point into.
theorem Instruction.Counted.indexable {it : Instruction} (h : it.Counted) : it.Indexable :=
  List.forall_mem_cons.mpr ⟨h.result.1, fun ty hty => (h.operands.2 ty hty).1⟩

private theorem Bytecode.readable_compiled {library : Library} {source : Bytes} {program : Program}
    (hlibrary : ∀ ty ∈ library.types, ty.isWellFormed = true)
    (hcompile : Source.compile library source = .ok program) (hcounted : program.Counted) :
    Readable program := by
  obtain ⟨tokens, htokens⟩ := Source.compile_eq_ok hcompile
  obtain ⟨hnatives, hconstants⟩ := List.forall_mem_append.mp hlibrary
  refine ⟨hcounted, fun instruction hmem => ?_⟩
  refine Analysis.typed_compile Ty.kept_isWellFormed rfl (List.forall_mem_map.mp hnatives)
    (List.forall_mem_map.mp hconstants) htokens ?_ instruction (Array.mem_toList_iff.mp hmem)
  intro instruction hmem
  exact (hcounted.instructions.2 instruction (Array.mem_toList_iff.mpr hmem)).indexable

-- What is compiled is read back as it was written, whatever follows in the file. A file that breaks
-- off inside of the heading or behind it is refused as such.
theorem read_write_compiled (library : Library) (source : Bytes) (program : Program)
    (timestamp : UInt64) (hlibrary : ∀ ty ∈ library.types, ty.isWellFormed = true)
    (hcompile : Source.compile library source = .ok program)
    (hlength : (Bytecode.write timestamp program).length < 2 ^ 64) :
    (∀ rest, Bytecode.read (Bytecode.write timestamp program ++ rest) = .ok program) ∧
    ∀ front, front <+: Bytecode.write timestamp program → front ≠ Bytecode.write timestamp program →
      Bytecode.read front = .error (if front.length < 14 then .cutHeader else .badBody .truncated) := by
  have hcounted : program.Counted := by
    refine Bytecode.admits_program program (Nat.lt_of_le_of_lt ?_ hlength)
    rw [Bytecode.write_eq, List.length_append]
    exact Nat.le_add_left ..
  have hreadable := Bytecode.readable_compiled hlibrary hcompile hcounted
  refine ⟨Bytecode.read_write hreadable timestamp, ?_⟩
  rintro front ⟨back, hback⟩ hne
  refine Bytecode.read_cut hcounted hback.symm ?_
  rintro rfl
  exact hne (by simpa using hback)

-- A binding, a tuple, a member, a block and a pipe.
def Source.paired : Bytes := "x := (seven, seven); \x7bx._1 |> echo\x7d, x._2".toUTF8.toList

theorem read_write_paired :
    (∀ ty ∈ Library.echoing.types, ty.isWellFormed = true) ∧
    ∃ program, Source.compile .echoing Source.paired = .ok program ∧
      (Bytecode.write 1700000000 program).length < 2 ^ 64 ∧
      (∀ rest, Bytecode.read (Bytecode.write 1700000000 program ++ rest) = .ok program) ∧
      ∀ front, front <+: Bytecode.write 1700000000 program →
        front ≠ Bytecode.write 1700000000 program →
        Bytecode.read front =
          .error (if front.length < 14 then .cutHeader else .badBody .truncated) := by
  have hlibrary : ∀ ty ∈ Library.echoing.types, ty.isWellFormed = true := by decide +kernel
  have hcompiles : (Source.compile .echoing Source.paired).toOption.any
      (fun program => (Bytecode.write 1700000000 program).length < 2 ^ 64) = true := by
    decide +kernel
  obtain ⟨program, hcompile, hlength⟩ := exists_ok_of_any hcompiles
  exact ⟨hlibrary, program, hcompile, of_decide_eq_true hlength,
    read_write_compiled .echoing Source.paired program 1700000000 hlibrary hcompile
      (of_decide_eq_true hlength)⟩

end Sluice

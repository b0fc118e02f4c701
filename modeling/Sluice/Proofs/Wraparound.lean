import Mathlib
import Sluice.Proofs.Codecs
import Sluice.Value

namespace Sluice

namespace Bytes

-- Two's complement with the lowest byte first: byte `k` counts for `256 ^ k`.
structure Encodes (width : Nat) (value : Int) (bytes : Bytes) : Prop where
  length : bytes.length = width
  digit : ∀ k byte, bytes[k]? = some byte → (byte.toNat : Int) = value / 256 ^ k % 256

variable {width : Nat} {i j : Int}

theorem capacity_eq (width : Nat) : (capacity width : Int) = 2 ^ (8 * width) := by
  rw [capacity, Nat.pow_eq, Nat.cast_pow, pow_mul]
  norm_num

theorem capacity_pos (width : Nat) : 0 < capacity width := Nat.pow_pos (by decide)

private theorem getElem?_ofNat {k : Nat} (n : Nat) (h : k < width) :
    (ofNat width n)[k]? = some (UInt8.ofNat (n / 256 ^ k)) := by
  induction width generalizing k n with
  | zero => omega
  | succ width ih =>
      cases k with
      | zero => simp [ofNat]
      | succ k =>
          rw [ofNat, List.getElem?_cons_succ, ih _ (by omega), Nat.div_div_eq_div_mul, pow_succ']

@[simp] theorem length_ofInt (width : Nat) (i : Int) : (ofInt width i).length = width :=
  length_ofNat ..

theorem encodes_ofInt (width : Nat) (i : Int) :
    (ofInt width i).Encodes width (i % 2 ^ (8 * width)) := by
  refine ⟨length_ofInt .., ?_⟩
  intro k byte hbyte
  have hk : k < width := by
    have hlt := (List.getElem?_eq_some_iff.mp hbyte).1
    rwa [length_ofInt] at hlt
  have hpos := Int.emod_nonneg i (Int.natCast_ne_zero_iff_pos.mpr (capacity_pos width))
  rw [ofInt, getElem?_ofNat _ hk] at hbyte
  obtain rfl := Option.some.inj hbyte
  rw [UInt8.toNat_ofNat', Int.natCast_mod, Int.natCast_ediv, Int.toNat_of_nonneg hpos, capacity_eq]
  norm_num

-- Only the remainder counts.
private theorem ofNat_mod (width n : Nat) : ofNat width (n % capacity width) = ofNat width n := by
  induction width generalizing n with
  | zero => rfl
  | succ width ih =>
      have hcapacity : capacity (width + 1) = 256 * capacity width := Nat.pow_succ'
      have hlow : UInt8.ofNat (n % (256 * capacity width)) = UInt8.ofNat n := by
        apply UInt8.toNat_inj.mp
        rw [UInt8.toNat_ofNat', UInt8.toNat_ofNat']
        exact Nat.mod_mul_right_mod n 256 (capacity width)
      rw [ofNat, ofNat, hcapacity, hlow, Nat.mod_mul_right_div_self, ih]

theorem ofInt_natCast (width n : Nat) : ofInt width n = ofNat width n := by
  rw [ofInt, ← Int.natCast_mod, Int.toNat_natCast, ofNat_mod]

theorem ofInt_congr (h : i ≡ j [ZMOD capacity width]) : ofInt width i = ofInt width j := by
  rw [ofInt, ofInt, h]

theorem toNat_ofInt (width : Nat) (i : Int) : ((ofInt width i).toNat : Int) = i % capacity width := by
  have hcapacity := capacity_pos width
  have hpos := Int.emod_nonneg i (Int.natCast_ne_zero_iff_pos.mpr hcapacity)
  have hlt := Int.emod_lt_of_pos i (Int.natCast_pos.mpr hcapacity)
  rw [ofInt, toNat_ofNat (by omega), Int.toNat_of_nonneg hpos]

theorem ofInt_toNat (bytes : Bytes) : ofInt bytes.length bytes.toNat = bytes := by
  rw [ofInt_natCast, ofNat_toNat]

end Bytes

namespace Arithmetic

-- The two numbers that an operand may stand for.
inductive Reading
  | signed
  | unsigned
deriving DecidableEq, Repr

namespace Reading

def value : Reading → Bytes → Int
  | signed, bytes => bytes.toInt
  | unsigned, bytes => bytes.toNat

-- With and without a sign the same bytes differ by a whole round.
theorem value_modEq (reading : Reading) (bytes : Bytes) :
    reading.value bytes ≡ bytes.toNat [ZMOD Bytes.capacity bytes.length] := by
  cases reading with
  | unsigned => rfl
  | signed =>
      rw [value, Bytes.toInt]
      split
      · rfl
      · exact Int.sub_modulus_modEq_iff.mpr rfl

theorem ofInt_value (reading : Reading) (bytes : Bytes) :
    Bytes.ofInt bytes.length (reading.value bytes) = bytes :=
  (Bytes.ofInt_congr (reading.value_modEq bytes)).trans bytes.ofInt_toNat

theorem value_ofInt (reading : Reading) (width : Nat) (i : Int) :
    reading.value (Bytes.ofInt width i) ≡ i [ZMOD Bytes.capacity width] := by
  have hvalue := reading.value_modEq (Bytes.ofInt width i)
  rw [Bytes.length_ofInt, Bytes.toNat_ofInt] at hvalue
  exact hvalue.trans (Int.mod_modEq ..)

end Reading

-- A sum, difference or product keeps to remainders.
theorem Operation.onInt_modEq (operation : Operation) {n left left' right right' : Int}
    (hleft : left ≡ left' [ZMOD n]) (hright : right ≡ right' [ZMOD n]) :
    operation.onInt left right ≡ operation.onInt left' right' [ZMOD n] := by
  cases operation with
  | add => exact hleft.add hright
  | sub => exact hleft.sub hright
  | mul => exact hleft.mul hright

theorem operand_ofInt (width : Nat) (i : Int) :
    operand width (Bytes.ofInt width i) = .ok (Bytes.ofInt width i).toNat := by
  have hsplit := Bytes.split?_append (Bytes.ofInt width i) []
  rw [List.append_nil, Bytes.length_ofInt] at hsplit
  rw [operand, hsplit]
  rfl

section Integer

variable {primitive : Primitive} (hinteger : primitive.isInteger = true)

include hinteger

private theorem binary_integer (operation : Operation) (left right : Bytes) :
    binary operation (.prim primitive) left right = (do
      let leftValue ← operand primitive.width left
      let rightValue ← operand primitive.width right
      .ok (Bytes.ofInt primitive.width (operation.onInt leftValue rightValue))) := by
  cases primitive <;> cases hinteger <;> rfl

private theorem negate_integer (bytes : Bytes) :
    negate (.prim primitive) bytes = (do
      let value ← operand primitive.width bytes
      .ok (Bytes.ofInt primitive.width (-(value : Int)))) := by
  cases primitive <;> cases hinteger <;> rfl

-- One sign on wrapped operands comes to its exact result, wrapped.
theorem binary_ofInt (operation : Operation) (left right : Int) :
    binary operation (.prim primitive) (Bytes.ofInt primitive.width left)
      (Bytes.ofInt primitive.width right) =
      .ok (Bytes.ofInt primitive.width (operation.onInt left right)) := by
  rw [binary_integer hinteger, operand_ofInt, operand_ofInt, ok_bind, ok_bind,
    Bytes.toNat_ofInt, Bytes.toNat_ofInt]
  exact congrArg Except.ok
    (Bytes.ofInt_congr (operation.onInt_modEq (Int.mod_modEq ..) (Int.mod_modEq ..)))

theorem negate_ofInt (i : Int) :
    negate (.prim primitive) (Bytes.ofInt primitive.width i) =
      .ok (Bytes.ofInt primitive.width (-i)) := by
  rw [negate_integer hinteger, operand_ofInt, ok_bind, Bytes.toNat_ofInt]
  exact congrArg Except.ok (Bytes.ofInt_congr (Int.mod_modEq ..).neg)

end Integer

-- Any finite number of signs over operands, each with the number it is taken for.
inductive Term
  | operand (reading : Reading) (bytes : Bytes)
  | negate (term : Term)
  | binary (operation : Operation) (left right : Term)
deriving DecidableEq, Repr

namespace Term

-- What the signs make of the bytes.
def run (primitive : Primitive) : Term → Except Failure Bytes
  | operand _ bytes => .ok bytes
  | negate term => do
      let bytes ← term.run primitive
      Arithmetic.negate (.prim primitive) bytes
  | binary operation left right => do
      let leftBytes ← left.run primitive
      let rightBytes ← right.run primitive
      Arithmetic.binary operation (.prim primitive) leftBytes rightBytes

-- The integer that the term stands for, of any size.
def exact : Term → Int
  | operand reading bytes => reading.value bytes
  | negate term => -term.exact
  | binary operation left right => operation.onInt left.exact right.exact

-- Every operand has the width of the type.
def Fits (width : Nat) : Term → Prop
  | operand _ bytes => bytes.length = width
  | negate term => term.Fits width
  | binary _ left right => left.Fits width ∧ right.Fits width

theorem run_eq {primitive : Primitive} (hinteger : primitive.isInteger = true) {term : Term}
    (hfits : term.Fits primitive.width) :
    term.run primitive = .ok (Bytes.ofInt primitive.width term.exact) := by
  induction term with
  | operand reading bytes =>
      have hlength : bytes.length = primitive.width := hfits
      rw [run, exact, ← hlength, reading.ofInt_value]
  | negate term ih => rw [run, ih hfits, ok_bind, negate_ofInt hinteger, exact]
  | binary operation left right ihleft ihright =>
      rw [run, ihleft hfits.1, ihright hfits.2, ok_bind, ok_bind, binary_ofInt hinteger, exact]

end Term

end Arithmetic

namespace Primitive

-- How a value of the type is read.
def reading (primitive : Primitive) : Arithmetic.Reading :=
  if primitive.isSigned then .signed else .unsigned

variable {primitive : Primitive}

theorem value_mem_range (hinteger : primitive.isInteger = true) {bytes : Bytes}
    (hlength : bytes.length = primitive.width) :
    primitive.least ≤ primitive.reading.value bytes ∧
      primitive.reading.value bytes ≤ primitive.greatest := by
  have hlt := bytes.toNat_lt
  -- Half of the numbers are negative, which asks for an even number of them.
  have heven : 2 * (Bytes.capacity primitive.width / 2) = Bytes.capacity primitive.width := by
    cases primitive <;> cases hinteger <;> rfl
  rw [hlength] at hlt
  unfold least greatest reading
  split
  · rw [Arithmetic.Reading.value, Bytes.toInt, hlength]
    split <;> omega
  · rw [Arithmetic.Reading.value]
    omega

theorem scalar?_ofPrimitive (hinteger : primitive.isInteger = true) {bytes : Bytes}
    (hlength : bytes.length = primitive.width) :
    Value.scalar? ⟨.ofPrimitive primitive, bytes⟩ =
      some (primitive, .integer (primitive.reading.value bytes)) := by
  have hread : Scalar.read? primitive bytes =
      some (.integer (primitive.reading.value bytes)) := by
    unfold Scalar.read?
    rw [if_neg (not_not.mpr hlength)]
    cases primitive <;> cases hinteger <;> rfl
  have hnumeric : primitive.isNumeric = true := by rw [isNumeric, hinteger, Bool.true_or]
  have hty : (Ty.ofPrimitive primitive).numeric? = some primitive := if_pos hnumeric
  rw [Value.scalar?, hty, Option.bind_some, hread, Option.map_some]

end Primitive

namespace Value

-- Read as a value of the type, the bytes give `n` moved into the range of the type.
def ReadsInRange (primitive : Primitive) (bytes : Bytes) (n : Int) : Prop :=
  ∃ m, scalar? ⟨.ofPrimitive primitive, bytes⟩ = some (primitive, .integer m) ∧
    primitive.least ≤ m ∧ m ≤ primitive.greatest ∧ m ≡ n [ZMOD 2 ^ (8 * primitive.width)]

theorem readsInRange_ofInt {primitive : Primitive} (hinteger : primitive.isInteger = true)
    (n : Int) : ReadsInRange primitive (Bytes.ofInt primitive.width n) n := by
  have hlength := Bytes.length_ofInt primitive.width n
  obtain ⟨hleast, hgreatest⟩ := Primitive.value_mem_range hinteger hlength
  refine ⟨_, Primitive.scalar?_ofPrimitive hinteger hlength, hleast, hgreatest, ?_⟩
  rw [← Bytes.capacity_eq]
  exact primitive.reading.value_ofInt _ n

end Value

namespace Immediate

variable {primitive : Primitive} (hinteger : primitive.isInteger = true)

include hinteger

theorem encode_integer (immediate : Immediate) :
    immediate.encode (.prim primitive) = .ok (immediate.toInteger primitive) := by
  cases primitive <;> cases hinteger <;> rfl

private theorem encode_int (n : Int64) :
    (int n).encode (.prim primitive) = .ok (Bytes.ofInt primitive.width n.toInt) := by
  rw [encode_integer hinteger, toInteger]

private theorem encode_uint (n : UInt64) :
    (uint n).encode (.prim primitive) = .ok (Bytes.ofInt primitive.width n.toNat) := by
  rw [encode_integer hinteger, toInteger, Bytes.ofInt_natCast]

end Immediate

theorem integer_arithmetic_modular (primitive : Primitive) (hinteger : primitive.isInteger = true) :
    (∀ term : Arithmetic.Term, term.Fits primitive.width →
      ∃ bytes, term.run primitive = .ok bytes ∧
        bytes.Encodes primitive.width (term.exact % 2 ^ (8 * primitive.width))) ∧
    (∀ n : Int64, ∃ bytes, (Immediate.int n).encode (.prim primitive) = .ok bytes ∧
      bytes.Encodes primitive.width (n.toInt % 2 ^ (8 * primitive.width)) ∧
      Value.ReadsInRange primitive bytes n.toInt) ∧
    (∀ n : UInt64, ∃ bytes, (Immediate.uint n).encode (.prim primitive) = .ok bytes ∧
      bytes.Encodes primitive.width (n.toNat % 2 ^ (8 * primitive.width)) ∧
      Value.ReadsInRange primitive bytes n.toNat) := by
  refine ⟨?_, ?_, ?_⟩
  · intro term hfits
    exact ⟨_, term.run_eq hinteger hfits, Bytes.encodes_ofInt ..⟩
  · intro n
    exact ⟨_, Immediate.encode_int hinteger n, Bytes.encodes_ofInt ..,
      Value.readsInRange_ofInt hinteger _⟩
  · intro n
    exact ⟨_, Immediate.encode_uint hinteger n, Bytes.encodes_ofInt ..,
      Value.readsInRange_ofInt hinteger _⟩

-- The bytes of -1 and of 65535 are the same, and the exact number leaves the range of the type.
def Arithmetic.Term.mixed : Arithmetic.Term :=
  .negate (.binary .sub (.binary .mul (.operand .signed [255, 127]) (.operand .signed [255, 255]))
    (.operand .unsigned [255, 255]))

theorem integer_arithmetic_modular_i16 :
    Primitive.i16.isInteger = true ∧ Arithmetic.Term.mixed.Fits Primitive.i16.width ∧
      Arithmetic.Term.mixed.exact = 98302 ∧
      (∃ bytes, Arithmetic.Term.mixed.run .i16 = .ok bytes ∧
        bytes.Encodes Primitive.i16.width
          (Arithmetic.Term.mixed.exact % 2 ^ (8 * Primitive.i16.width))) ∧
      (∃ bytes, (Immediate.int (-40000)).encode (.prim .i16) = .ok bytes ∧
        bytes.Encodes Primitive.i16.width
          ((-40000 : Int64).toInt % 2 ^ (8 * Primitive.i16.width)) ∧
        Value.ReadsInRange .i16 bytes (-40000 : Int64).toInt) ∧
      ∃ bytes, (Immediate.uint 18446744073709551615).encode (.prim .i16) = .ok bytes ∧
        bytes.Encodes Primitive.i16.width
          ((18446744073709551615 : UInt64).toNat % 2 ^ (8 * Primitive.i16.width)) ∧
        Value.ReadsInRange .i16 bytes (18446744073709551615 : UInt64).toNat := by
  have hinteger : Primitive.i16.isInteger = true := rfl
  have hfits : Arithmetic.Term.mixed.Fits Primitive.i16.width := ⟨⟨rfl, rfl⟩, rfl⟩
  obtain ⟨hterms, hints, huints⟩ := integer_arithmetic_modular .i16 hinteger
  exact ⟨hinteger, hfits, by decide, hterms _ hfits, hints _, huints _⟩

end Sluice

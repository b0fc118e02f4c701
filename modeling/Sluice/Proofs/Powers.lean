import Mathlib
import Sluice.Library.Standard
import Sluice.Proofs.Literals
import Sluice.Proofs.Wraparound

namespace Sluice

namespace Bytes

variable {width : Nat} {i : Int} {bytes other : Bytes}

-- A number has one row of bytes.
theorem Encodes.unique (h : bytes.Encodes width i) (hother : other.Encodes width i) :
    bytes = other := by
  apply List.ext_getElem (h.length.trans hother.length.symm)
  intro k hk hkother
  have hdigit := h.digit k _ (List.getElem?_eq_getElem hk)
  have hdigitOther := hother.digit k _ (List.getElem?_eq_getElem hkother)
  exact UInt8.toNat_inj.mp (Int.ofNat_inj.mp (hdigit.trans hdigitOther.symm))

theorem Encodes.eq_ofInt (h : bytes.Encodes width (i % 2 ^ (8 * width))) :
    bytes = ofInt width i :=
  h.unique (encodes_ofInt width i)

end Bytes

namespace Primitive

variable {primitive : Primitive}

-- A number in the range of its type is read back from its bytes.
theorem value_ofInt_of_mem_range (hinteger : primitive.isInteger = true) {i : Int}
    (hleast : primitive.least ≤ i) (hgreatest : i ≤ primitive.greatest) :
    primitive.reading.value (Bytes.ofInt primitive.width i) = i := by
  obtain ⟨hlow, hhigh⟩ := value_mem_range hinteger (Bytes.length_ofInt primitive.width i)
  have hspan : primitive.greatest - primitive.least < Bytes.capacity primitive.width := by
    cases primitive <;> cases hinteger <;> decide
  have hround := (primitive.reading.value_ofInt primitive.width i).dvd
  have hnear : |i - primitive.reading.value (Bytes.ofInt primitive.width i)| <
      Bytes.capacity primitive.width := abs_lt.mpr (by omega)
  exact (sub_eq_zero.mp (Int.eq_zero_of_abs_lt_dvd hround hnear)).symm

end Primitive

namespace Library

-- Without its sign an integer moves by whole rounds only.
theorem toNat_toUInt32_modEq (x : Int32) : (x.toUInt32.toNat : Int) ≡ x.toInt [ZMOD 2 ^ 32] := by
  have hbmod := toInt_toInt32_eq_bmod x.toUInt32
  rw [Int32.toInt32_toUInt32] at hbmod
  rw [hbmod]
  exact Int.bmod_emod.symm

theorem ofWord_toUInt32 (x : Int32) : ofWord x.toUInt32 = Bytes.ofInt 4 x.toInt := by
  rw [ofWord, ← Bytes.ofInt_natCast]
  exact Bytes.ofInt_congr (toNat_toUInt32_modEq x)

theorem word?_append (front behind : Bytes) (word : UInt32) :
    word? front.length (front ++ ofWord word ++ behind) = some word := by
  have hlength : (ofWord word).length = 4 := Bytes.length_ofNat ..
  have hslice : (front ++ ofWord word).slice? front.length 4 = some (ofWord word) :=
    hlength ▸ Bytes.slice?_append_self
  rw [word?, Bytes.slice?_append hslice, Option.map_some, ofWord,
    Bytes.toNat_ofNat word.toNat_lt, UInt32.ofNat_toNat]

-- Both words of an argument are read with their signs, and the result is written with its sign.
theorem onWords_ofInt (f : Int32 → Int32 → Int32) (x y : Int32) (width : Nat) :
    onWords f (Bytes.ofInt 4 x.toInt ++ Bytes.ofInt 4 y.toInt) width =
      some (Bytes.ofInt 4 (f x y).toInt) := by
  have hfirst := word?_append [] (ofWord y.toUInt32) x.toUInt32
  have hsecond := word?_append (ofWord x.toUInt32) [] y.toUInt32
  rw [List.nil_append, List.length_nil] at hfirst
  rw [List.append_nil, ofWord, Bytes.length_ofNat, ← ofWord] at hsecond
  rw [← ofWord_toUInt32, ← ofWord_toUInt32, onWords, hfirst, hsecond]
  simp only [Int32.toInt32_toUInt32, ofWord_toUInt32]

theorem scalar?_ofInt (x : Int32) :
    Value.scalar? ⟨integer, Bytes.ofInt 4 x.toInt⟩ = some (.i32, .integer x.toInt) := by
  have hinteger : Primitive.i32.isInteger = true := rfl
  have hvalue := Primitive.value_ofInt_of_mem_range hinteger x.le_toInt
    (Int.le_sub_one_of_lt x.toInt_lt)
  have hscalar := Primitive.scalar?_ofPrimitive hinteger
    (Bytes.length_ofInt Primitive.i32.width x.toInt)
  rw [hvalue] at hscalar
  exact hscalar

section Squaring

variable (base : Nat) {exponent : Nat}

-- One round of squaring halves the exponent and leaves a factor if it was odd.
private theorem pow_half_of_even (h : exponent % 2 = 0) :
    (base * base) ^ (exponent / 2) = base ^ exponent := by
  rw [← pow_two, ← pow_mul, Nat.mul_div_cancel' (Nat.dvd_of_mod_eq_zero h)]

private theorem pow_half_of_odd (h : exponent % 2 = 1) :
    base * (base * base) ^ (exponent / 2) = base ^ exponent := by
  have hexponent : 2 * (exponent / 2) + 1 = exponent := by omega
  rw [← pow_two, ← pow_mul, ← pow_succ', hexponent]

end Squaring

-- The induction follows the rounds of squaring: the base of the next round is a wrapped square.
private theorem power_modEq (base : UInt32) (exponent : Nat) :
    (power base exponent).toNat ≡ base.toNat ^ exponent [MOD 2 ^ 32] := by
  have hmul (x y : UInt32) : (x * y).toNat ≡ x.toNat * y.toNat [MOD 2 ^ 32] := by
    rw [UInt32.toNat_mul]
    exact Nat.mod_modEq ..
  fun_induction power base exponent with
  | case1 base => rfl
  | case2 base exponent hne half hodd ih =>
      calc (base * half).toNat
          ≡ base.toNat * half.toNat [MOD 2 ^ 32] := hmul base half
        _ ≡ base.toNat * (base.toNat * base.toNat) ^ (exponent / 2) [MOD 2 ^ 32] :=
            (ih.trans ((hmul base base).pow _)).mul_left _
        _ = base.toNat ^ exponent := pow_half_of_odd _ hodd
  | case3 base exponent hne half hodd ih =>
      calc half.toNat
          ≡ (base.toNat * base.toNat) ^ (exponent / 2) [MOD 2 ^ 32] :=
            ih.trans ((hmul base base).pow _)
        _ = base.toNat ^ exponent := pow_half_of_even _ (by omega)

theorem toInt_integerPower_of_nonneg {base exponent : Int32} (h : 0 ≤ exponent) :
    (integerPower base exponent).toInt = (base.toInt ^ exponent.toInt.toNat).bmod (2 ^ 32) := by
  have hpower : ((power base.toUInt32 exponent.toInt.toNat).toNat : Int) ≡
      base.toInt ^ exponent.toInt.toNat [ZMOD 2 ^ 32] := by
    have hword := Int.natCast_modEq_iff.mpr (power_modEq base.toUInt32 exponent.toInt.toNat)
    push_cast at hword
    exact hword.trans ((toNat_toUInt32_modEq base).pow _)
  have hbmod := congrArg (Int.bmod · (2 ^ 32)) hpower
  rw [integerPower, if_pos h, toInt_toInt32_eq_bmod]
  exact (Int.emod_bmod ..).symm.trans (hbmod.trans (Int.emod_bmod ..))

-- The integer part of a rational: the nearest integer on the way to zero.
def truncate (q : ℚ) : ℤ := if 0 ≤ q then ⌊q⌋ else ⌈q⌉

theorem truncate_intCast (n : ℤ) : truncate n = n := by
  simp [truncate]

private theorem truncate_eq_zero {q : ℚ} (h : |q| < 1) : truncate q = 0 := by
  obtain ⟨hlower, hupper⟩ := abs_lt.mp h
  by_cases hsign : 0 ≤ q
  · exact (if_pos hsign).trans (Int.floor_eq_zero_iff.mpr ⟨hsign, hupper⟩)
  · exact (if_neg hsign).trans (Int.ceil_eq_zero_iff.mpr ⟨hlower, (not_le.mp hsign).le⟩)

-- Only one and minus one have a whole reciprocal, which is the number itself.
private theorem truncate_reciprocal_of_unit {n : ℤ} (h : n.natAbs = 1) : truncate (1 / n) = n := by
  have hreciprocal : (1 : ℚ) / n = n := by
    obtain rfl | rfl := Int.natAbs_eq_iff.mp h <;> norm_num
  rw [hreciprocal, truncate_intCast]

-- The reciprocal of zero counts as zero.
private theorem truncate_reciprocal_of_not_unit {n : ℤ} (h : n.natAbs ≠ 1) :
    truncate (1 / n) = 0 := by
  obtain rfl | hne := eq_or_ne n 0
  · simp [truncate]
  · apply truncate_eq_zero
    have hlarge : 1 < |n| := by
      rw [Int.abs_eq_natAbs]
      omega
    rw [abs_div, abs_one]
    exact (div_lt_one (by positivity)).mpr (by exact_mod_cast hlarge)

private theorem truncate_reciprocal_pow (base : ℤ) {exponent : Nat} (h : exponent ≠ 0) :
    truncate (1 / (base : ℚ) ^ exponent) = if base.natAbs = 1 then base ^ exponent else 0 := by
  have hunit : (base ^ exponent).natAbs = 1 ↔ base.natAbs = 1 := by
    rw [Int.natAbs_pow, Nat.pow_eq_one]
    omega
  rw [← Int.cast_pow]
  by_cases hbase : base.natAbs = 1
  · rw [if_pos hbase, truncate_reciprocal_of_unit (hunit.mpr hbase)]
  · rw [if_neg hbase, truncate_reciprocal_of_not_unit (mt hunit.mp hbase)]

-- The parity of a negative exponent is that of its magnitude, also at the least exponent, which has
-- no magnitude of its own width.
private theorem ite_parity_eq_neg_one_pow {exponent : Int} (h : exponent < 0) :
    (if exponent % 2 = 0 then 1 else -1) = (-1 : Int) ^ (-exponent).toNat := by
  by_cases heven : exponent % 2 = 0
  · rw [if_pos heven, Even.neg_one_pow (Nat.even_iff.mpr (by omega))]
  · rw [if_neg heven, Odd.neg_one_pow (Nat.odd_iff.mpr (by omega))]

theorem toInt_integerPower_of_neg {base exponent : Int32} (h : exponent < 0) :
    (integerPower base exponent).toInt =
      truncate (1 / (base.toInt : ℚ) ^ (-exponent.toInt).toNat) := by
  have hnegative : exponent.toInt < 0 := Int32.lt_iff_toInt_lt.mp h
  rw [integerPower, if_neg (Int32.not_le.mpr h), truncate_reciprocal_pow _ (by omega)]
  by_cases hone : base = 1
  · subst hone
    have hunit : (1 : Int32).toInt.natAbs = 1 := rfl
    rw [if_pos rfl, if_pos hunit]
    exact (one_pow _).symm
  by_cases hminus : base = -1
  · subst hminus
    have hunit : (-1 : Int32).toInt.natAbs = 1 := rfl
    rw [if_neg hone, if_pos rfl, if_pos hunit, apply_ite Int32.toInt]
    exact ite_parity_eq_neg_one_pow hnegative
  have hlarge : base.toInt.natAbs ≠ 1 := by
    intro habs
    obtain hbase | hbase := Int.natAbs_eq_iff.mp habs
    · exact hone (Int32.toInt_inj.mp hbase)
    · exact hminus (Int32.toInt_inj.mp hbase)
  rw [if_neg hone, if_neg hminus, if_neg hlarge]
  rfl

end Library

namespace Native

-- From the bytes of two integers the native function makes the bytes of `value`, and they are read
-- as `value` again.
def Writes (native : Native) (first second value : Int) : Prop :=
  ∀ left right : Bytes, left.Encodes 4 (first % 2 ^ 32) → right.Encodes 4 (second % 2 ^ 32) →
    ∃ result, native.run (left ++ right) 4 = some result ∧ result.Encodes 4 (value % 2 ^ 32) ∧
      Value.scalar? ⟨Library.integer, result⟩ = some (.i32, .integer value)

theorem Writes.run_eq {native : Native} {first second value : Int}
    (h : native.Writes first second value) :
    native.run (Bytes.ofInt 4 first ++ Bytes.ofInt 4 second) 4 = some (Bytes.ofInt 4 value) := by
  obtain ⟨result, hrun, hresult, -⟩ :=
    h _ _ (Bytes.encodes_ofInt 4 first) (Bytes.encodes_ofInt 4 second)
  rw [hrun, Bytes.Encodes.eq_ofInt hresult]

private theorem fill_of_length {compute : Bytes → Nat → Option Bytes} {argument result : Bytes}
    {width : Nat} (h : compute argument width = some result) (hlength : result.length = width) :
    fill compute argument width = some result := by
  simp [fill, h, hlength, Bytes.zeros]

private theorem writes_onWords (name : String) (ty : Ty) (f : Int32 → Int32 → Int32) (x y : Int32) :
    (ofFunction name ty (Library.onWords f)).Writes x.toInt y.toInt (f x y).toInt := by
  intro left right hleft hright
  have hwrite := Library.onWords_ofInt f x y 4
  rw [← Bytes.Encodes.eq_ofInt hleft, ← Bytes.Encodes.eq_ofInt hright] at hwrite
  exact ⟨_, fill_of_length hwrite (Bytes.length_ofInt ..), Bytes.encodes_ofInt ..,
    Library.scalar?_ofInt _⟩

end Native

theorem integer_power_exact :
    ∃ native, (Library.standard.natives.filter fun found =>
        found.name = "pow" && found.ty.same (.func Library.integer Library.integerPair)) = [native] ∧
      ∀ base exponent : Int32,
        (0 ≤ exponent → native.Writes base.toInt exponent.toInt
          ((base.toInt ^ exponent.toInt.toNat).bmod (2 ^ 32))) ∧
        (exponent < 0 → base ≠ 0 → native.Writes base.toInt exponent.toInt
          (Library.truncate (1 / (base.toInt : ℚ) ^ (-exponent.toInt).toNat))) ∧
        (exponent < 0 → base = 0 → native.Writes base.toInt exponent.toInt 0) := by
  refine ⟨_, rfl, ?_⟩
  intro base exponent
  have hwrites := Native.writes_onWords "pow" (.func Library.integer Library.integerPair)
    Library.integerPower base exponent
  refine ⟨?_, ?_, ?_⟩
  · intro h
    rwa [Library.toInt_integerPower_of_nonneg h] at hwrites
  · intro h _
    rwa [Library.toInt_integerPower_of_neg h] at hwrites
  · rintro h rfl
    have hzero : Library.integerPower 0 exponent = 0 := if_neg (Int32.not_le.mpr h)
    rwa [hzero] at hwrites

-- A power that leaves the range of the type, the least exponent, and zero without a reciprocal.
theorem integer_power_exact_extremes :
    (0 : Int32) ≤ 21 ∧ Int32.minValue < 0 ∧ (-1 : Int32) ≠ 0 ∧
      ((-3) ^ 21 : Int).bmod (2 ^ 32) = -1870418611 ∧
      Library.truncate (1 / (-1) ^ 2147483648) = 1 ∧
      ∃ native ∈ Library.standard.natives,
        native.run [253, 255, 255, 255, 21, 0, 0, 0] 4 = some [77, 173, 131, 144] ∧
        native.run [255, 255, 255, 255, 0, 0, 0, 128] 4 = some [1, 0, 0, 0] ∧
        native.run [0, 0, 0, 0, 255, 255, 255, 255] 4 = some [0, 0, 0, 0] := by
  have hpower : ((-3) ^ 21 : Int).bmod (2 ^ 32) = -1870418611 := by decide
  have htruncate : Library.truncate (1 / (-1) ^ 2147483648) = 1 := by
    rw [Even.neg_one_pow (by decide), div_one]
    exact Library.truncate_intCast 1
  have hbase : (((-1 : Int32).toInt : Int) : ℚ) = -1 := by
    rw [show (-1 : Int32).toInt = -1 from rfl, Int.cast_neg, Int.cast_one]
  have hleast : (-Int32.minValue.toInt).toNat = 2147483648 := rfl
  obtain ⟨native, hnative, hwrites⟩ := integer_power_exact
  have hmem : native ∈ Library.standard.natives :=
    (List.mem_filter.mp (hnative ▸ List.mem_singleton_self native)).1
  have hwrapped := ((hwrites (-3) 21).1 (by decide)).run_eq
  have hreciprocal := (hwrites (-1) Int32.minValue).2.1 (by decide) (by decide)
  rw [hbase, hleast, htruncate] at hreciprocal
  have hzero := ((hwrites 0 (-1)).2.2 (by decide) rfl).run_eq
  exact ⟨by decide, by decide, by decide, hpower, htruncate, native, hmem, hwrapped,
    hreciprocal.run_eq, hzero⟩

end Sluice

import Mathlib
import Formula.Decimal.Nearest

/-!
The bits of finite numbers.

A number keeps the bits it was made of, unless they stand for something that is no
number and that all share one pattern. The bits below those of infinity are no such
pattern.

* `packComponents_fields`: bits are a sign, an exponent and a mantissa.
* `pack_unpack`: what is taken apart is put together again.
* `toBits_ofBits`, `isFinite_ofBits`: a magnitude below infinity has its bits and is
  finite; `lt_infinityBits_of_isFinite`: a finite magnitude is below infinity.
-/

namespace Formula.Binary64

open Float.Model Float.Model.UnpackedFloat

variable {b : BitVec Format.binary64.numBits} {w : UInt64} {bits : ℕ}

/-! ### Taking bits apart and putting them together -/

lemma toBitVec_ofBitVec_sign (v : BitVec 1) : (UnpackedFloat.Sign.ofBitVec v).toBitVec = v := by
  revert v
  decide

/-- Bits are a sign, an exponent and a mantissa. -/
lemma packComponents_fields (b : BitVec Format.binary64.numBits) :
    packComponents .binary64 (UnpackedFloat.Sign.ofBitVec (unpackSign b)) (unpackExponent b)
      (unpackMantissa b) = b := by
  simp only [packComponents, toBitVec_ofBitVec_sign, unpackSign, unpackExponent, unpackMantissa,
    BitVec.extractLsb]
  ext i hi
  grind

/-- The leading bit of a normal mantissa stands for `2 ^ 52`. -/
lemma toNat_leading_append (m : BitVec 52) : (1#1 ++ m).toNat = 2 ^ 52 + m.toNat := by
  rw [BitVec.toNat_append, ← Nat.shiftLeft_add_eq_or_of_lt m.isLt]
  rfl

lemma log2_leading_append (m : BitVec 52) : (1#1 ++ m).toNat.log2 = 52 := by
  have hm := m.isLt
  rw [toNat_leading_append, Nat.log2_eq_iff (by omega)]
  omega

lemma ofNat_leading_append (m : BitVec 52) : BitVec.ofNat 52 (1#1 ++ m).toNat = m := by
  rw [← BitVec.toNat_inj, BitVec.toNat_ofNat, toNat_leading_append, Nat.add_mod_left,
    Nat.mod_eq_of_lt m.isLt]

/-- A mantissa without a leading bit is below `2 ^ 52`. -/
lemma log2_mantissa_lt (m : BitVec 52) : m.toNat.log2 < 52 := by
  rcases Nat.eq_zero_or_pos m.toNat with h | h
  · rw [h]
    decide
  · exact (Nat.log2_lt (by omega)).mpr m.isLt

/-- A normal number is put together from its fields … -/
lemma pack_normal {s : UnpackedFloat.Sign} {m : ℕ} {e : ℤ} (hm : 0 < m) (hlog : m.log2 = 52)
    (he : e < 972) : UnpackedFloat.pack .binary64 (.finite s m e hm)
      = packComponents .binary64 s (BitVec.ofNat 11 (e + 1075).toNat) (BitVec.ofNat 52 m) := by
  have hexp : e + (Format.binary64.exponentBias : ℕ) + (52 : ℕ) = e + 1075 := by
    rw [show Format.binary64.exponentBias = 1023 from rfl]
    omega
  simp only [UnpackedFloat.pack, hexp, hlog]
  rw [if_neg (by omega), if_pos (by decide)]

/-- … and so is a subnormal one. -/
lemma pack_subnormal {s : UnpackedFloat.Sign} {m : ℕ} (hm : 0 < m) (hlog : m.log2 < 52) :
    UnpackedFloat.pack .binary64 (.finite s m (-1074) hm)
      = packComponents .binary64 s 0#11 (BitVec.ofNat 52 m) := by
  have hexp : (-1074 + (Format.binary64.exponentBias : ℕ) + (52 : ℕ) : ℤ) = 1 := rfl
  have hbits : Format.binary64.mantissaBits = 53 := rfl
  simp only [UnpackedFloat.pack, hexp, hbits]
  rw [if_neg (by decide), if_neg (by omega)]

/-- What is taken apart is put together again, and it is finite unless its exponent is
the greatest one. -/
theorem pack_unpack (h : unpackExponent b ≠ -1#_) :
    UnpackedFloat.pack .binary64 (UnpackedFloat.unpack .binary64 b) = b
      ∧ (UnpackedFloat.unpack .binary64 b).isFinite = true := by
  have hfields := packComponents_fields b
  rw [UnpackedFloat.unpack, if_neg h]
  by_cases h0 : unpackExponent b = 0#_
  · rw [if_pos h0]
    rw [h0] at hfields
    by_cases hm : unpackMantissa b = 0#_
    · rw [dif_pos hm]
      rw [hm] at hfields
      exact ⟨hfields, rfl⟩
    · rw [dif_neg hm, h0]
      refine ⟨(pack_subnormal _ (log2_mantissa_lt _)).trans ?_, rfl⟩
      rwa [BitVec.ofNat_toNat, BitVec.setWidth_eq]
  · rw [if_neg h0]
    have hne : (unpackExponent b).toNat ≠ 2047 := fun hn => h (BitVec.toNat_inj.mp hn)
    have hlt : (unpackExponent b).toNat < 2048 := (unpackExponent b).isLt
    have hbias : ((Format.binary64.exponentBias : ℕ) + (52 : ℕ) : ℤ) = 1075 := rfl
    rw [hbias]
    refine ⟨(pack_normal _ (log2_leading_append _) (by omega)).trans ?_, rfl⟩
    rwa [ofNat_leading_append, Int.sub_add_cancel, Int.toNat_natCast, BitVec.ofNat_toNat,
      BitVec.setWidth_eq]

/-! ### Magnitudes -/

lemma infinityBits_eq : infinityBits = 2047 * 2 ^ 52 := rfl

/-- The bits below those of infinity do not have the greatest exponent. -/
lemma unpackExponent_ne (h : w.toNat < infinityBits) :
    @unpackExponent .binary64 w.toBitVec ≠ -1#_ := by
  intro he
  have hexp : (@unpackExponent .binary64 w.toBitVec).toNat = w.toNat / 2 ^ 52 % 2 ^ 11 := by
    simp [unpackExponent, BitVec.extractLsb, BitVec.extractLsb'_toNat, Nat.shiftRight_eq_div_pow]
  have hgreatest : (@unpackExponent .binary64 w.toBitVec).toNat = 2047 := congrArg BitVec.toNat he
  rw [infinityBits_eq] at h
  omega

/-- A magnitude below infinity has its bits. -/
theorem toBits_ofBits (h : w.toNat < infinityBits) : (Float.ofBits w).toBits = w := by
  have hpack := (pack_unpack (unpackExponent_ne h)).1
  exact UInt64.toBitVec_inj.mp hpack

lemma isNaN_of_isFinite {x : UnpackedFloat} (h : x.isFinite = true) : x.isNaN = false := by
  cases x with
  | notANumber => cases h
  | _ => rfl

/-- A magnitude below infinity is finite … -/
lemma isFinite_ofBits (h : w.toNat < infinityBits) : (Float.ofBits w).isFinite = true := by
  obtain ⟨hpack, hfinite⟩ := pack_unpack (unpackExponent_ne h)
  rwa [← hpack] at hfinite

/-- … and so it is a number. -/
lemma isNaN_ofBits (h : w.toNat < infinityBits) : (Float.ofBits w).isNaN = false :=
  isNaN_of_isFinite (isFinite_ofBits h)

/-- A magnitude that is finite is below infinity. -/
lemma lt_infinityBits_of_isFinite (hle : bits ≤ infinityBits)
    (hfin : (Float.ofBits (UInt64.ofNat bits)).isFinite = true) : bits < infinityBits := by
  refine lt_of_le_of_ne hle ?_
  rintro rfl
  have hinf : (Float.ofBits (UInt64.ofNat infinityBits)).isFinite = false := rfl
  rw [hinf] at hfin
  cases hfin

end Formula.Binary64

import Formula.Decimal.Shortest
import Formula.Proofs.Bits

/-!
Numerals that read back as the number they are written for.

* `Binary64.nearestBits_mul`: a fraction may be expanded.
* `Binary64.nearestBits_unitsOfBits`: a magnitude is nearest to itself.
* `Binary64.toBits_shortest`: the shortest numeral of a magnitude reads back as it.
* `Decimal.exists_text_eq`: what a numeral denotes, if it is finite, is written as a
  numeral that denotes the same.
-/

namespace Formula

namespace Binary64

variable {n d k q bits : ℕ}

lemma unitsPerOne_pos : 0 < unitsPerOne := by decide +kernel

/-! ### Rounding -/

/-- A fraction may be expanded before it is rounded. -/
lemma roundHalfEven_mul (hk : 0 < k) : roundHalfEven (n * k) (d * k) = roundHalfEven n d := by
  have hlow : 2 * (n % d * k) < d * k ↔ 2 * (n % d) < d := by
    rw [← Nat.mul_assoc]
    exact Nat.mul_lt_mul_right hk
  have hhigh : d * k < 2 * (n % d * k) ↔ d < 2 * (n % d) := by
    rw [← Nat.mul_assoc]
    exact Nat.mul_lt_mul_right hk
  simp only [roundHalfEven, Nat.mul_div_mul_right n d hk, Nat.mul_mod_mul_right, hlow, hhigh]

/-- A whole number is not changed. -/
lemma roundHalfEven_whole (hd : 0 < d) : roundHalfEven (q * d) d = q := by
  have hround := roundHalfEven_mul (n := q) (d := 1) hd
  rw [Nat.one_mul] at hround
  rw [hround]
  simp [roundHalfEven, Nat.mod_one]

/-- A fraction may be expanded: the nearest number is the same. -/
theorem nearestBits_mul (hk : 0 < k) : nearestBits (n * k) (d * k) = nearestBits n d := by
  have hunits : n * k * unitsPerOne = n * unitsPerOne * k := Nat.mul_right_comm ..
  have hden : ∀ m, d * k * m = d * m * k := fun m => Nat.mul_right_comm ..
  simp only [nearestBits, hunits, hden, Nat.mul_div_mul_right _ _ hk, roundHalfEven_mul hk]

/-- A magnitude of `u * 2 ^ shift` units is nearest to itself, if `u` has as many bits as
`shift` leaves it. -/
lemma nearestBits_of_log2 {u shift : ℕ} (hlog : (u * 2 ^ shift).log2 - 52 = shift) :
    nearestBits (u * 2 ^ shift) unitsPerOne = min (shift * binade + u) infinityBits := by
  have hunits : u * 2 ^ shift * unitsPerOne / unitsPerOne = u * 2 ^ shift :=
    Nat.mul_div_cancel _ unitsPerOne_pos
  have hden : u * 2 ^ shift * unitsPerOne = u * (unitsPerOne * 2 ^ shift) := by
    rw [Nat.mul_assoc, Nat.mul_comm (2 ^ shift)]
  have hpos : 0 < unitsPerOne * 2 ^ shift := Nat.mul_pos unitsPerOne_pos (Nat.two_pow_pos _)
  simp only [nearestBits, hunits, hlog, Nat.pow_eq]
  rw [hden, roundHalfEven_whole hpos]

lemma log2_sub_of_lt {u : ℕ} (hu : u < 2 ^ 52) : u.log2 - 52 = 0 := by
  rcases Nat.eq_zero_or_pos u with rfl | hpos
  · rfl
  · have hlog := (Nat.log2_lt hpos.ne').mpr hu
    omega

lemma log2_mul_sub {u : ℕ} (hlow : 2 ^ 52 ≤ u) (hhigh : u < 2 ^ 53) (shift : ℕ) :
    (u * 2 ^ shift).log2 - 52 = shift := by
  have hpos : 0 < u * 2 ^ shift := Nat.mul_pos (by omega) (Nat.two_pow_pos _)
  have hlog : (u * 2 ^ shift).log2 = 52 + shift := by
    rw [Nat.log2_eq_iff hpos.ne', Nat.add_right_comm, Nat.pow_add, Nat.pow_add]
    exact ⟨Nat.mul_le_mul_right _ hlow, Nat.mul_lt_mul_of_pos_right hhigh (Nat.two_pow_pos _)⟩
  omega

/-- A magnitude is nearest to itself. -/
theorem nearestBits_unitsOfBits (h : bits < infinityBits) :
    nearestBits (unitsOfBits bits) unitsPerOne = bits := by
  have hbinade : binade = 2 ^ 52 := rfl
  by_cases hlt : bits < binade
  · have hlog : (bits * 2 ^ 0).log2 - 52 = 0 := by
      rw [pow_zero, Nat.mul_one]
      exact log2_sub_of_lt (hbinade ▸ hlt)
    have hnear := nearestBits_of_log2 hlog
    rw [pow_zero, Nat.mul_one, Nat.zero_mul, Nat.zero_add, min_eq_left h.le] at hnear
    rwa [unitsOfBits, if_pos hlt]
  · have hexp : 1 ≤ bits / binade := (Nat.one_le_div_iff (by decide)).mpr (Nat.le_of_not_lt hlt)
    have hmod : bits % binade < binade := Nat.mod_lt _ (by decide)
    have hnear := nearestBits_of_log2
      (log2_mul_sub (u := binade + bits % binade) (by omega) (by omega) (bits / binade - 1))
    have hbits : (bits / binade - 1) * binade + (binade + bits % binade) = bits := by
      calc (bits / binade - 1) * binade + (binade + bits % binade)
          = (bits / binade - 1 + 1) * binade + bits % binade := by
            rw [Nat.add_one_mul, Nat.add_assoc]
        _ = bits / binade * binade + bits % binade := by rw [Nat.sub_add_cancel hexp]
        _ = bits := Nat.div_add_mod' bits binade
    have hunits : unitsOfBits bits = (binade + bits % binade) * 2 ^ (bits / binade - 1) := by
      rw [unitsOfBits, if_neg hlt, Nat.pow_eq]
    rw [hunits, hnear, hbits, min_eq_left h.le]

/-! ### Numerals of a magnitude -/

variable {d : Decimal}

lemma toBits_trim_go (digits places : ℕ) :
    (Decimal.trim.go digits places).toBits = nearestBits digits (Nat.pow 10 places) := by
  induction places generalizing digits with
  | zero => rfl
  | succ places ih =>
      rw [Decimal.trim.go]
      split
      · next hzero =>
        have hdigits : digits / 10 * 10 = digits :=
          Nat.div_mul_cancel (Nat.dvd_of_mod_eq_zero hzero)
        have hden : Nat.pow 10 (places + 1) = Nat.pow 10 places * 10 := rfl
        rw [ih, hden, ← nearestBits_mul (k := 10) (by decide), hdigits]
      · rfl

/-- Zeros at the end of the places do not count. -/
lemma toBits_trim (digits places : ℕ) :
    (Decimal.trim ⟨digits, places⟩).toBits = nearestBits digits (Nat.pow 10 places) :=
  toBits_trim_go digits places

/-- A magnitude written out to its last digit reads back. A unit is `2 ^ -k` and has `k`
places. -/
lemma toBits_trim_units {k : ℕ} (hk : unitsPerOne = Nat.pow 2 k) (h : bits < infinityBits) :
    (Decimal.trim ⟨unitsOfBits bits * Nat.pow 5 k, k⟩).toBits = bits := by
  have hden : Nat.pow 10 k = Nat.pow 2 k * Nat.pow 5 k := Nat.mul_pow 2 5 k
  have hpos : 0 < Nat.pow 5 k := Nat.pow_pos (by decide)
  rw [toBits_trim, hden, nearestBits_mul hpos, ← hk, nearestBits_unitsOfBits h]

lemma toBits_exact (h : bits < infinityBits) : (exact bits).toBits = bits := by
  have hunits : unitsPerOne = Nat.pow 2 1074 := by decide +kernel
  rw [exact, toBits_trim_units hunits h]

/-- A numeral is chosen only if it reads back. -/
lemma toBits_of_ofLength? (h : ofLength? bits n = some d) : d.toBits = bits := by
  rw [ofLength?] at h
  obtain ⟨low, high, nearer⟩ := neighbours bits n
  simp only at h
  split at h
  · next hlow =>
    obtain rfl := Option.some.inj h
    exact hlow.1
  · split at h
    · next hhigh =>
      obtain rfl := Option.some.inj h
      exact hhigh
    · cases h

/-- The shortest numeral of a magnitude reads back as it. -/
theorem toBits_shortest (h : bits < infinityBits) : (shortest bits).toBits = bits := by
  rw [shortest]
  rcases hfind : (List.range' 1 17).findSome? (ofLength? bits) with _ | d
  · rw [Option.getD_none, toBits_exact h]
  · obtain ⟨n, -, hn⟩ := List.exists_of_findSome?_eq_some hfind
    exact toBits_of_ofLength? hn

end Binary64

namespace Decimal

open Binary64

variable {d : Decimal}

lemma toBits_le (d : Decimal) : d.toBits ≤ infinityBits := by
  rw [toBits, nearestBits]
  exact min_le_right _ _

/-- The bits of a numeral fit a word. -/
lemma toNat_ofNat_toBits (d : Decimal) : (UInt64.ofNat d.toBits).toNat = d.toBits :=
  UInt64.toNat_ofNat_of_lt' (d.toBits_le.trans_lt (by decide))

/-- What a numeral denotes, if it is finite, is written as a numeral that denotes the
same. -/
theorem exists_text_eq (h : d.toFloat.isFinite = true) :
    ∃ d' : Decimal, Binary64.text d.toFloat = String.ofList d'.toChars
      ∧ d'.toFloat = d.toFloat := by
  have hlt : d.toBits < infinityBits := lt_infinityBits_of_isFinite d.toBits_le h
  have hword := d.toNat_ofNat_toBits
  have hbits : d.toFloat.toBits.toNat = d.toBits := by
    rw [toFloat, toBits_ofBits (by rwa [hword]), hword]
  have hnumber : d.toFloat.isNaN = false := isNaN_ofBits (by rwa [hword])
  have hsign : d.toBits < signBit := hlt.trans (by decide)
  refine ⟨shortest d.toBits, ?_, ?_⟩
  · simp only [Binary64.text, hbits, hnumber, hsign, magnitudeText, hlt, Bool.false_eq_true,
      if_true, if_false]
  · rw [toFloat, toBits_shortest hlt, toFloat]

end Decimal

end Formula

import ScriptHost.Proofs.KeyIdentity

/-!
# Rounding and truncation

An integer goes to the nearest double, and a double is cut to 32 bits by dropping its fractional part and then bringing it into the
range. The nearest double to an integer is an integer itself, which differs from it by one part in 2^53 at most
(`Binary64.exists_toInt?_ofInt`), so that the first step changes no integer below 2^53 and leaves the others far outside of the range
that the second one clamps to. Both steps together clamp the integer (`Binary64.toInt32_ofInt`). What the second one makes of the
number that a double stands for is said in `Binary64.toInt32_of_value`.
-/

namespace ScriptHost

namespace Binary64

variable {x : Binary64} {n top s : Nat} {i : Int} {v : ℚ}

/-! ## The nearest double -/

theorem two_pow_add_one (n : Nat) : 2 ^ (n + 1075) = 2 ^ n * one := by
  unfold one
  generalize 1075 = k
  exact pow_add 2 n k

/-- A quotient rounded to the nearest integer, on a tie to the even one. -/
def rounded (n unit : Nat) : Nat :=
  if unit < 2 * (n % unit) ∨ (2 * (n % unit) = unit ∧ n / unit % 2 = 1) then n / unit + 1 else n / unit

theorem le_rounded (n unit : Nat) : n / unit ≤ rounded n unit := by
  unfold rounded
  split <;> omega

theorem rounded_le (n unit : Nat) : rounded n unit ≤ n / unit + 1 := by
  unfold rounded
  split <;> omega

/-- Rounding is off by half of the divisor at most. -/
theorem two_mul_rounded_sub_le (n : Nat) {unit : Nat} (hunit : 0 < unit) :
    2 * ((rounded n unit * unit : Nat) - n : Int).natAbs ≤ unit := by
  have hn := Nat.div_add_mod' n unit
  have hlt := Nat.mod_lt n hunit
  unfold rounded
  split
  · have hnext := Nat.succ_mul (n / unit) unit
    rw [hnext]
    omega
  · omega

/-- The bits of the nearest double to a natural number hold the place of its leading bit and the significand `s`. They stand for `w`, which
is off by no more than one part in 2^53. -/
structure Nearest (n s w : Nat) : Prop where
  bits : bitsOfNat n = (n.log2 + 1022) * 2 ^ 52 + s
  low : 2 ^ 52 ≤ s
  high : s ≤ 2 ^ 53
  whole : s * 2 ^ (n.log2 + 1023) = w * one
  error : 2 ^ 53 * ((w : Int) - n).natAbs ≤ n

/-- A number of at most fifty-three bits is its own significand, up to its place, and is exact. -/
theorem nearest_of_le (hn : n ≠ 0) (htop : n.log2 ≤ 52) : Nearest n (n * 2 ^ (52 - n.log2)) n := by
  have hlow : 2 ^ n.log2 ≤ n := Nat.log2_self_le hn
  have hhigh : n < 2 ^ (n.log2 + 1) := Nat.lt_log2_self
  have hscale : 2 ^ n.log2 * 2 ^ (52 - n.log2) = 2 ^ 52 := by rw [← pow_add, Nat.add_sub_of_le htop]
  constructor
  · simp only [bitsOfNat, if_neg hn, if_pos htop, Nat.pow_eq]
  · exact hscale ▸ Nat.mul_le_mul_right _ hlow
  · have hle := Nat.mul_le_mul_right (2 ^ (52 - n.log2)) hhigh.le
    rwa [pow_succ', mul_assoc, hscale] at hle
  · rw [mul_assoc, ← pow_add, show 52 - n.log2 + (n.log2 + 1023) = 0 + 1075 by omega, two_pow_add_one, pow_zero, one_mul]
  · simp

/-- A longer number is rounded to fifty-three bits, which may carry to the next power of two. -/
theorem nearest_of_lt (htop : 52 < n.log2) :
    Nearest n (rounded n (2 ^ (n.log2 - 52))) (rounded n (2 ^ (n.log2 - 52)) * 2 ^ (n.log2 - 52)) := by
  have hn : n ≠ 0 := by
    rintro rfl
    cases htop
  have hlow : 2 ^ n.log2 ≤ n := Nat.log2_self_le hn
  have hhigh : n < 2 ^ (n.log2 + 1) := Nat.lt_log2_self
  have hunit : 0 < 2 ^ (n.log2 - 52) := Nat.two_pow_pos _
  have hscale : 2 ^ 52 * 2 ^ (n.log2 - 52) = 2 ^ n.log2 := by rw [← pow_add, Nat.add_sub_of_le htop.le]
  have hone : 2 ^ (n.log2 + 1023) = 2 ^ (n.log2 - 52) * one := by
    rw [← two_pow_add_one, show n.log2 - 52 + 1075 = n.log2 + 1023 by omega]
  rw [pow_succ', ← hscale, ← mul_assoc] at hhigh
  rw [← hscale] at hlow
  constructor
  · simp only [bitsOfNat, rounded, if_neg hn, if_neg htop.not_ge, Nat.pow_eq]
  · exact ((Nat.le_div_iff_mul_le hunit).2 hlow).trans (le_rounded _ _)
  · exact (rounded_le _ _).trans ((Nat.div_lt_iff_lt_mul hunit).2 hhigh)
  · rw [hone, mul_assoc]
  · have herror := two_mul_rounded_sub_le n hunit
    omega

theorem exists_nearest (hn : n ≠ 0) : ∃ s w, Nearest n s w := by
  rcases le_or_gt n.log2 52 with htop | htop
  · exact ⟨_, _, nearest_of_le hn htop⟩
  · exact ⟨_, _, nearest_of_lt htop⟩

/-- The fields of a word that is made of them. -/
theorem fields_of_bits (hbits : x.bits.toNat % 2 ^ 63 = top * 2 ^ 52 + s) (htop : top < 2048) (hs : s < 2 ^ 52) :
    x.exponent = top ∧ x.fraction = s := by
  simp only [exponent, fraction, Nat.pow_eq]
  omega

/-- Above the smallest exponent the significand is the fraction behind a leading bit. -/
theorem magnitude_of_exponent (h : x.exponent ≠ 0) : x.magnitude = (2 ^ 52 + x.fraction) * 2 ^ x.exponent := by
  rw [magnitude, significand, if_neg h, Nat.max_eq_left (Nat.pos_of_ne_zero h), Nat.pow_eq, Nat.pow_eq]

/-- What a word with a place and a significand stands for, also where the significand has been rounded up to the next power of two. -/
theorem magnitude_of_bits (hbits : x.bits.toNat % 2 ^ 63 = (top + 1022) * 2 ^ 52 + s) (htop : top ≤ 1022) (hlow : 2 ^ 52 ≤ s)
    (hhigh : s ≤ 2 ^ 53) : x.exponent ≠ 2047 ∧ x.magnitude = s * 2 ^ (top + 1023) := by
  rcases hhigh.lt_or_eq with hlt | rfl
  · have hword : x.bits.toNat % 2 ^ 63 = (top + 1023) * 2 ^ 52 + (s - 2 ^ 52) := by
      rw [hbits]
      omega
    obtain ⟨hexponent, hfraction⟩ := fields_of_bits hword (by omega) (by omega)
    refine ⟨by omega, ?_⟩
    rw [magnitude_of_exponent (by omega), hexponent, hfraction, Nat.add_sub_of_le hlow]
  · -- the carry is the next place, with no fraction
    have hword : x.bits.toNat % 2 ^ 63 = (top + 1024) * 2 ^ 52 + 0 := by
      rw [hbits]
      omega
    obtain ⟨hexponent, hfraction⟩ := fields_of_bits hword (by omega) (by omega)
    have hdouble : 2 ^ (top + 1024) = 2 * 2 ^ (top + 1023) := pow_succ' 2 (top + 1023)
    refine ⟨by omega, ?_⟩
    rw [magnitude_of_exponent (by omega), hexponent, hfraction, hdouble]
    omega

/-- The nearest double to an integer is an integer that is off by no more than one part in 2^53. -/
theorem exists_toInt?_ofInt (hi : i.natAbs < 2 ^ 64) :
    ∃ w, (ofInt i).toInt? = some w ∧ 2 ^ 53 * (w - i).natAbs ≤ i.natAbs := by
  by_cases hzero : i = 0
  · subst hzero
    exact ⟨0, toInt?_of_zero (by decide), by simp⟩
  · have hn : i.natAbs ≠ 0 := Int.natAbs_ne_zero.2 hzero
    have htop : i.natAbs.log2 < 64 := (Nat.log2_lt hn).2 hi
    obtain ⟨s, w, hbits, hlow, hhigh, hw, herror⟩ := exists_nearest hn
    have hlt : bitsOfNat i.natAbs < 2 ^ 63 := by omega
    have hword : (ofInt i).bits.toNat = if i < 0 then 2 ^ 63 + bitsOfNat i.natAbs else bitsOfNat i.natAbs := by
      refine UInt64.toNat_ofNat_of_lt' ?_
      simp only [Nat.pow_eq, UInt64.size]
      split <;> omega
    have hrest : (ofInt i).bits.toNat % 2 ^ 63 = bitsOfNat i.natAbs := by
      rw [hword]
      split <;> omega
    have hneg : (ofInt i).isNegative = decide (i < 0) := by
      simp only [isNegative, hword, Nat.pow_eq, decide_eq_decide]
      split <;> omega
    obtain ⟨hfinite, hmagnitude⟩ := magnitude_of_bits (hrest.trans hbits) (by omega) hlow hhigh
    refine ⟨if i < 0 then -w else w, toInt?_eq_some_iff.2 ⟨hfinite, ?_⟩, by split <;> omega⟩
    rw [signedMagnitude, hmagnitude, hw, hneg]
    -- the unit is a power of two too large to evaluate
    generalize one = unit
    by_cases hsign : i < 0
    · rw [decide_eq_true hsign, if_pos rfl, if_pos hsign, Nat.cast_mul, Int.neg_mul]
    · rw [decide_eq_false hsign, if_neg Bool.false_ne_true, if_neg hsign, Nat.cast_mul]

/-! ## Truncation -/

/-- The integer next to a number on the side of zero. -/
def towardZero (v : ℚ) : Int := if 0 ≤ v then ⌊v⌋ else ⌈v⌉

theorem towardZero_intCast (i : Int) : towardZero i = i := by
  rw [towardZero, Int.floor_intCast, Int.ceil_intCast, ite_self]

/-- Dropping the fractional part of a quotient is division that truncates. -/
theorem towardZero_div (i : Int) (hn : 0 < n) : towardZero ((i : ℚ) / n) = i.tdiv n := by
  have hpos : (0 : ℚ) < n := by exact_mod_cast hn
  have hsign : (0 : ℚ) ≤ (i : ℚ) / n ↔ 0 ≤ i := by
    rw [le_div_iff₀ hpos, zero_mul]
    exact_mod_cast Iff.rfl
  rw [towardZero, Rat.floor_intCast_div_natCast, Rat.ceil_intCast_div_natCast]
  simp only [hsign]
  split
  · exact (Int.tdiv_eq_ediv_of_nonneg ‹_›).symm
  · rw [← Int.tdiv_eq_ediv_of_nonneg (by omega), Int.neg_tdiv, neg_neg]

/-- The magnitude without the fraction, with the sign of the double. -/
theorem tdiv_signedMagnitude (x : Binary64) :
    x.signedMagnitude.tdiv one = if x.isNegative then -((x.magnitude / one : Nat) : Int) else (x.magnitude / one : Nat) := by
  rw [signedMagnitude, Int.ofNat_tdiv]
  split
  · rw [Int.neg_tdiv]
  · rfl

/-- A double that is not a NaN is cut to its magnitude without the fraction, with its sign, brought into the range. -/
theorem toInt_toInt32 (hx : x.isNaN = false) :
    x.toInt32.toInt = max (-2 ^ 31) (min (x.signedMagnitude.tdiv one) (2 ^ 31 - 1)) := by
  rw [toInt32, if_neg (by simp [hx])]
  simp only [← tdiv_signedMagnitude]
  generalize x.signedMagnitude.tdiv one = whole
  have hclamp : clamp Int32.minValue.toInt Int32.maxValue.toInt whole = max (-2 ^ 31) (min whole (2 ^ 31 - 1)) := by
    simp only [clamp, Int32.toInt_minValue, Int32.toInt_maxValue]
    split
    · omega
    · split <;> omega
  rw [hclamp, Int32.toInt_ofInt_of_le (by omega) (by omega)]

theorem toInt32_of_nan (hx : x.isNaN = true) : x.toInt32 = 0 := by
  rw [toInt32, if_pos hx]

/-- A double that stands for a number is not a NaN. -/
theorem isNaN_of_value (hx : x.value? = some v) : x.isNaN = false := by
  simp [isNaN, (value?_eq_some_iff.1 hx).1]

/-- A double that stands for a number is cut to that number without its fractional part, brought into the range. -/
theorem toInt32_of_value (hx : x.value? = some v) : x.toInt32.toInt = max (-2 ^ 31) (min (towardZero v) (2 ^ 31 - 1)) := by
  rw [toInt_toInt32 (isNaN_of_value hx), ← (value?_eq_some_iff.1 hx).2, towardZero_div _ one_pos]

/-- An infinity, which is the only double besides the NaNs that stands for no number, goes to its end of the range. -/
theorem toInt32_of_infinite (hnan : x.isNaN = false) (hx : x.value? = none) :
    x.toInt32.toInt = if x.isNegative then -2 ^ 31 else 2 ^ 31 - 1 := by
  have hexponent : x.exponent = 2047 := by
    by_contra hfinite
    rw [value?, if_neg hfinite] at hx
    cases hx
  have hsignificand := le_significand (x := x) (by omega)
  have hlarge : 2 ^ 31 ≤ x.magnitude / one := by
    have hle : 31 + 1075 ≤ max x.exponent 1 := by omega
    rw [Nat.le_div_iff_mul_le one_pos, ← two_pow_add_one]
    generalize 31 + 1075 = bits at hle ⊢
    exact (Nat.pow_le_pow_right (by decide) hle).trans (Nat.le_mul_of_pos_left _ (by omega))
  rw [toInt_toInt32 hnan, tdiv_signedMagnitude]
  split <;> omega

/-- An integer that goes to the nearest double and is then cut to 32 bits is brought into their range, and no more: rounding changes
no integer that is inside, and takes none across an end. -/
theorem toInt32_ofInt (hi : i.natAbs < 2 ^ 64) : (ofInt i).toInt32.toInt = max (-2 ^ 31) (min i (2 ^ 31 - 1)) := by
  obtain ⟨w, hw, herror⟩ := exists_toInt?_ofInt hi
  rw [toInt32_of_value (toInt?_eq_some_iff_value.1 hw), towardZero_intCast]
  omega

end Binary64

end ScriptHost

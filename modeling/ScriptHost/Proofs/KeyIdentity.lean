import Mathlib.Data.Rat.Floor
import Mathlib.Tactic.FieldSimp
import Mathlib.Tactic.Linarith
import ScriptHost.Proofs.Keys

/-!
# Keys and primitive equality

A finite double stands for a rational number, `Binary64.value?`, which is read off its fields as the standard for floating-point
numbers has it. That is the number the exact arithmetic on magnitudes works with: two doubles are equal if they stand for the same
number or are the same infinity (`Binary64.equal_iff_value`), and a double is an integer exactly if it stands for it
(`Binary64.toInt64?_eq_some_iff_value`). From that and from what a key is, the keys of values and primitive equality are one relation
(`key_identity`).
-/

namespace ScriptHost

namespace Binary64

variable {x y : Binary64} {i : Int64} {n : Int} {v : ℚ}

/-- The number a finite double stands for. The fraction field is a number below one; it comes after a leading one, save for the
zeros and the subnormal doubles, and is scaled by the exponent. -/
def value? (x : Binary64) : Option ℚ :=
  if x.exponent = 2047 then none
  else
    let sign : ℚ := if x.isNegative then -1 else 1
    let fraction : ℚ := x.fraction / 2 ^ 52
    some (sign * if x.exponent = 0 then 2 ^ (-1022 : ℤ) * fraction else 2 ^ ((x.exponent : ℤ) - 1023) * (1 + fraction))

/-- The magnitude with the sign of the double. -/
def signedMagnitude (x : Binary64) : Int := if x.isNegative then -(x.magnitude : Int) else x.magnitude

theorem natAbs_signedMagnitude (x : Binary64) : x.signedMagnitude.natAbs = x.magnitude := by
  unfold signedMagnitude
  split <;> simp

theorem cast_two_pow (n : Nat) : ((Nat.pow 2 n : Nat) : ℚ) = 2 ^ n := by
  simp

theorem one_eq : (one : ℚ) = 2 ^ 1023 * 2 ^ 52 := by
  unfold one
  -- the power is too large to evaluate
  generalize hk : 1075 = k
  rw [cast_two_pow, ← pow_add, ← hk]

theorem one_pos : 0 < one := by
  unfold one
  generalize 1075 = k
  exact Nat.two_pow_pos k

theorem one_ne_zero : (one : ℚ) ≠ 0 := Nat.cast_ne_zero.2 one_pos.ne'

/-- The scaled fraction is the magnitude over the magnitude of one. -/
theorem magnitude_div_one (x : Binary64) :
    (x.magnitude : ℚ) / one =
      if x.exponent = 0 then 2 ^ (-1022 : ℤ) * ((x.fraction : ℚ) / 2 ^ 52)
      else 2 ^ ((x.exponent : ℤ) - 1023) * (1 + (x.fraction : ℚ) / 2 ^ 52) := by
  have hscale (e : Nat) : (2 : ℚ) ^ ((e : ℤ) - 1023) = 2 ^ e / 2 ^ 1023 := by
    rw [zpow_sub₀ two_ne_zero, zpow_natCast, zpow_ofNat]
  by_cases h : x.exponent = 0
  · have hsubnormal : (2 : ℚ) ^ (-1022 : ℤ) = 2 ^ 1 / 2 ^ 1023 := hscale 1
    rw [if_pos h, magnitude, significand, if_pos h, h, Nat.cast_mul, hsubnormal, one_eq]
    simp only [Nat.pow_eq, Nat.cast_ofNat, zero_le, sup_of_le_right, pow_one]
    generalize (2 : ℚ) ^ 1023 = scale
    ring
  · have hmax : max x.exponent 1 = x.exponent := by omega
    rw [if_neg h, magnitude, significand, if_neg h, hmax, Nat.cast_mul, hscale, one_eq]
    simp only [Nat.pow_eq, Nat.cast_add, Nat.cast_pow, Nat.cast_ofNat]
    field_simp

/-- A finite double stands for its signed magnitude over the magnitude of one. -/
theorem value?_eq_some_iff : x.value? = some v ↔ x.exponent ≠ 2047 ∧ (x.signedMagnitude : ℚ) / one = v := by
  by_cases h : x.exponent = 2047
  · rw [value?, if_pos h]
    exact ⟨nofun, fun hv => absurd h hv.1⟩
  · have hvalue : x.value? = some ((x.signedMagnitude : ℚ) / one) := by
      rw [value?, if_neg h, Option.some_inj, ← magnitude_div_one, signedMagnitude]
      split <;> push_cast <;> ring
    rw [hvalue, Option.some_inj]
    exact (and_iff_right h).symm

/-! ## Doubles that are integers -/

/-- A finite double is an integer if its magnitude is that many times the magnitude of one. -/
theorem toInt?_eq_some_iff : x.toInt? = some n ↔ x.exponent ≠ 2047 ∧ x.signedMagnitude = n * one := by
  constructor
  · intro h
    obtain ⟨-, hmagnitude, hneg, hpos⟩ := of_toInt? h
    have hfinite : x.exponent ≠ 2047 := by
      intro he
      rw [toInt?, if_pos he] at h
      cases h
    have hcast : (x.magnitude : Int) = n.natAbs * one := by exact_mod_cast hmagnitude
    refine ⟨hfinite, ?_⟩
    rw [signedMagnitude, hcast]
    rcases Int.lt_trichotomy n 0 with hn | rfl | hn
    · rw [if_pos (hneg hn), Int.ofNat_natAbs_of_nonpos hn.le, Int.neg_mul, Int.neg_neg]
    · generalize (one : Int) = unit
      simp
    · rw [if_neg (by simp [hpos hn]), Int.natAbs_of_nonneg hn.le]
  · rintro ⟨hfinite, hsigned⟩
    have hpos := one_pos
    rw [toInt?, if_neg hfinite]
    revert hsigned hpos
    generalize one = unit
    intro hsigned hpos
    have hmagnitude : x.magnitude = n.natAbs * unit := by
      rw [← natAbs_signedMagnitude, hsigned, Int.natAbs_mul, Int.natAbs_natCast]
    have hsign : (if x.isNegative then -(n.natAbs : Int) else n.natAbs) = n := by
      refine Int.eq_of_mul_eq_mul_right (Int.natCast_pos.2 hpos).ne' ?_
      rw [← hsigned, signedMagnitude, hmagnitude]
      split <;> push_cast <;> ring
    rw [hmagnitude, if_pos (Nat.mul_mod_left _ _), Nat.mul_div_cancel _ hpos, hsign]

/-- A double is an integer exactly if it stands for it. -/
theorem toInt?_eq_some_iff_value : x.toInt? = some n ↔ x.value? = some (n : ℚ) := by
  rw [toInt?_eq_some_iff, value?_eq_some_iff, div_eq_iff one_ne_zero]
  exact_mod_cast Iff.rfl

/-- No integer of 64 bits is taken for another number, and none is missed: the double is that integer. -/
theorem toInt64?_eq_some_iff_value : x.toInt64? = some i ↔ x.value? = some (i.toInt : ℚ) :=
  toInt64?_eq_some_iff.trans toInt?_eq_some_iff_value

/-- The doubles at the ends of the range of 64-bit integers. The lower end is a double, the upper one is not: the nearest double is
already outside. -/
theorem value?_ofInt_bounds :
    (ofInt Int64.minValue.toInt).value? = some (-2 ^ 63) ∧ (ofInt Int64.maxValue.toInt).value? = some (2 ^ 63) := by
  have hmin : (ofInt Int64.minValue.toInt).toInt? = some (-2 ^ 63) := by decide +kernel
  have hmax : (ofInt Int64.maxValue.toInt).toInt? = some (2 ^ 63) := by decide +kernel
  exact ⟨by exact_mod_cast toInt?_eq_some_iff_value.1 hmin, by exact_mod_cast toInt?_eq_some_iff_value.1 hmax⟩

/-- A double is a 64-bit integer if it has no fractional part, is not below the lower end of the range as a double, and is below the
upper end as a double. -/
theorem exists_toInt64?_iff (hx : x.value? = some v) :
    (∃ i, x.toInt64? = some i) ↔
      Int.fract v = 0 ∧ ∃ lo hi, (ofInt Int64.minValue.toInt).value? = some lo ∧ (ofInt Int64.maxValue.toInt).value? = some hi ∧
        lo ≤ v ∧ v < hi := by
  simp only [value?_ofInt_bounds, Option.some_inj, toInt64?_eq_some_iff_value, hx, existsAndEq, true_and]
  constructor
  · rintro ⟨i, rfl⟩
    have hlo : -2 ^ 63 ≤ i.toInt := i.minValue_le_toInt
    have hhi : i.toInt < 2 ^ 63 := i.toInt_lt
    exact ⟨Int.fract_intCast _, by exact_mod_cast hlo, by exact_mod_cast hhi⟩
  · rintro ⟨hwhole, hlo, hhi⟩
    obtain ⟨n, rfl⟩ := Int.fract_eq_zero_iff.1 hwhole
    have hlo : -2 ^ 63 ≤ n := by exact_mod_cast hlo
    have hhi : n < 2 ^ 63 := by exact_mod_cast hhi
    exact ⟨Int64.ofInt n, by rw [Int64.toInt_ofInt_of_le hlo hhi]⟩

/-- Doubles are equal if they stand for the same number or are the same infinity. A NaN is neither. -/
theorem equal_iff_value :
    x.equal y = true ↔ (∃ v, x.value? = some v ∧ y.value? = some v) ∨
      x.isInfinite = true ∧ y.isInfinite = true ∧ x.isNegative = y.isNegative := by
  have hvalue : ∀ z : Binary64, z.exponent ≠ 2047 → ∃ v, z.value? = some v := fun z h => ⟨_, value?_eq_some_iff.2 ⟨h, rfl⟩⟩
  constructor
  · intro h
    simp only [equal, Bool.and_eq_true, Bool.not_eq_true', Bool.or_eq_true, beq_iff_eq] at h
    obtain ⟨⟨hx, -⟩, hbits | ⟨hx0, hy0⟩⟩ := h
    · obtain rfl : x = y := by
        cases x
        cases y
        exact congrArg _ hbits
      by_cases hexponent : x.exponent = 2047
      · have hfraction : x.fraction = 0 := by simpa [isNaN, hexponent] using hx
        exact Or.inr (by simp [isInfinite, hexponent, hfraction])
      · obtain ⟨v, hv⟩ := hvalue x hexponent
        exact Or.inl ⟨v, hv, hv⟩
    · exact Or.inl ⟨_, toInt?_eq_some_iff_value.1 (toInt?_of_zero hx0), toInt?_eq_some_iff_value.1 (toInt?_of_zero hy0)⟩
  · rintro (⟨v, hx, hy⟩ | ⟨hx, hy, hsign⟩)
    · obtain ⟨hfx, hvx⟩ := value?_eq_some_iff.1 hx
      obtain ⟨hfy, hvy⟩ := value?_eq_some_iff.1 hy
      have hsigned : x.signedMagnitude = y.signedMagnitude := by
        have heq := hvx.trans hvy.symm
        rw [div_left_inj' one_ne_zero] at heq
        exact_mod_cast heq
      have hmagnitude : x.magnitude = y.magnitude := by
        rw [← natAbs_signedMagnitude, hsigned, natAbs_signedMagnitude]
      have hbits : x.bits = y.bits ∨ x.magnitude = 0 ∧ y.magnitude = 0 := by
        by_cases hzero : x.magnitude = 0
        · exact Or.inr ⟨hzero, hmagnitude ▸ hzero⟩
        · refine Or.inl (bits_eq hmagnitude ?_)
          rw [signedMagnitude, signedMagnitude, ← hmagnitude] at hsigned
          cases hsx : x.isNegative <;> cases hsy : y.isNegative <;> simp [hsx, hsy] at hsigned ⊢ <;> omega
      simpa [equal, isNaN, hfx, hfy] using hbits
    · simp only [isInfinite, Bool.and_eq_true, decide_eq_true_eq] at hx hy
      have hmagnitude : x.magnitude = y.magnitude := by
        rw [magnitude, magnitude, significand, significand, hx.1, hx.2, hy.1, hy.2]
      simp [equal, isNaN, hx, hy, bits_eq hmagnitude hsign]

end Binary64

/-! ## Values that have a key -/

/-- A value that can be a key: it is not nil and not a NaN. -/
def Value.Keyed (v : Value) : Prop := v ≠ .nil ∧ ∀ x, v = .number x → x.isNaN = false

/-- The values that can be keys are those that have one. -/
theorem Value.keyed_iff {v : Value} : v.Keyed ↔ ∃ k, Key.ofValue v = .ok k := by
  cases v with
  | nil => simp [Keyed, Key.ofValue]
  | number x =>
    rw [Key.ofValue_number]
    cases hx : x.isNaN with
    | true => simp [Keyed, hx]
    | false => cases x.toInt64? <;> simp [Keyed, hx]
  | _ => simp [Keyed, Key.ofValue]

/-- A key made from a value stands for a value with that same key. A key for a double is never one of an integer or a NaN, though
there are such keys. -/
theorem Key.ofValue_toValue {v : Value} {k : Key} (h : ofValue v = .ok k) : ofValue k.toValue = .ok k := by
  cases v with
  | nil => cases h
  | number x =>
    rw [ofValue_number] at h
    cases hx : x.isNaN with
    | true => simp [hx] at h
    | false =>
      cases hi : x.toInt64? with
      | some i =>
        simp only [hx, hi, Bool.false_eq_true, ↓reduceIte, Except.ok.injEq] at h
        subst h
        rfl
      | none =>
        simp only [hx, hi, Bool.false_eq_true, ↓reduceIte, Except.ok.injEq] at h
        subst h
        simp [toValue, ofValue_number, hx, hi]
  | _ =>
    cases h
    rfl

/-- Values are the same to a script exactly if they have the same key, as long as one of them has any. -/
theorem Key.ofValue_eq_iff {v w : Value} (hv : v.Keyed) : ofValue v = ofValue w ↔ v.rawEqual w = true := by
  obtain ⟨k, hk⟩ := Value.keyed_iff.1 hv
  rw [Value.rawEqual_iff_of_key hk, hk, eq_comm]

/-- An integer and a double are the same to a script exactly if the double stands for the integer. -/
theorem Value.rawEqual_integer_number {i : Int64} {x : Binary64} :
    (integer i).rawEqual (number x) = true ↔ x.value? = some (i.toInt : ℚ) :=
  beq_iff_eq.trans Binary64.toInt64?_eq_some_iff_value

theorem Value.rawEqual_number_integer {i : Int64} {x : Binary64} :
    (number x).rawEqual (integer i) = true ↔ x.value? = some (i.toInt : ℚ) :=
  beq_iff_eq.trans Binary64.toInt64?_eq_some_iff_value

/-- **Keys are primitive equality.** Of values that are neither nil nor a NaN, those with the same key are those that are the same to
a script. An integer and a double are the same if the double stands for that integer, and for no other number. On values that can be
keys it is an equivalence. The key of a value stands for a value with that key, which is the same to a script as the value it was made
from. -/
theorem key_identity :
    (∀ a b : Value, a.Keyed → b.Keyed → (Key.ofValue a = Key.ofValue b ↔ a.rawEqual b = true)) ∧
    (∀ (i : Int64) (x : Binary64),
      ((Value.integer i).rawEqual (.number x) = true ↔ x.value? = some (i.toInt : ℚ)) ∧
      ((Value.number x).rawEqual (.integer i) = true ↔ x.value? = some (i.toInt : ℚ))) ∧
    (Equivalence fun a b : { v : Value // v.Keyed } => a.val.rawEqual b.val = true) ∧
    ∀ a : Value, a.Keyed →
      ∃ k, Key.ofValue a = .ok k ∧ Key.ofValue k.toValue = .ok k ∧ k.toValue.rawEqual a = true := by
  have same : ∀ a b : { v : Value // v.Keyed }, a.val.rawEqual b.val = true ↔ Key.ofValue a.val = Key.ofValue b.val :=
    fun a _ => (Key.ofValue_eq_iff a.property).symm
  refine ⟨fun a b ha _ => Key.ofValue_eq_iff ha, fun i x => ⟨Value.rawEqual_integer_number, Value.rawEqual_number_integer⟩, ?_, ?_⟩
  · exact {
      refl := fun a => (same a a).2 rfl
      symm := fun {a b} h => (same b a).2 ((same a b).1 h).symm
      trans := fun {a b c} h h' => (same a c).2 (((same a b).1 h).trans ((same b c).1 h')) }
  · intro a ha
    obtain ⟨k, hk⟩ := Value.keyed_iff.1 ha
    have hback := Key.ofValue_toValue hk
    exact ⟨k, hk, hback, (Value.rawEqual_iff_of_key hback).2 hk⟩

/-- At the edges: the negative zero is the integer zero; 2^53 + 1 is not the double 2^53 it would be rounded to; and the double 2^63 is
no 64-bit integer, the largest one included. -/
theorem key_identity_edges :
    Key.ofValue (.integer 0) = Key.ofValue (.number ⟨0x8000000000000000⟩) ∧
    Key.ofValue (.integer 9007199254740993) ≠ Key.ofValue (.number ⟨0x4340000000000000⟩) ∧
    Binary64.value? ⟨0x43E0000000000000⟩ = some (2 ^ 63) ∧
    ∀ i, (Value.integer i).rawEqual (.number ⟨0x43E0000000000000⟩) = false := by
  have hinteger (i : Int64) : (Value.integer i).Keyed := ⟨nofun, nofun⟩
  have hnumber (x : Binary64) (hx : x.isNaN = false) : (Value.number x).Keyed := by
    refine ⟨nofun, fun y hy => ?_⟩
    cases hy
    exact hx
  have hvalue : Binary64.value? ⟨0x43E0000000000000⟩ = some (2 ^ 63) := by
    have h : Binary64.toInt? ⟨0x43E0000000000000⟩ = some (2 ^ 63) := by decide +kernel
    exact_mod_cast Binary64.toInt?_eq_some_iff_value.1 h
  refine ⟨(key_identity.1 _ _ (hinteger _) (hnumber _ (by decide))).2 (by decide +kernel), fun h => ?_, hvalue, fun i => ?_⟩
  · have hsame := (key_identity.1 _ _ (hinteger _) (hnumber _ (by decide))).1 h
    exact absurd hsame (by decide +kernel)
  · refine Bool.eq_false_iff.2 fun h => ?_
    have hi := (key_identity.2.1 _ _).1.1 h
    rw [hvalue, Option.some_inj] at hi
    have hlt := i.toInt_lt
    have heq : (2 : Int) ^ 63 = i.toInt := by exact_mod_cast hi
    omega

end ScriptHost

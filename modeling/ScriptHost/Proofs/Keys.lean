import Mathlib.Tactic.Ring
import ScriptHost.Key

/-!
# Equal values have equal keys

Two values are the same to a script exactly if they have the same key (`Value.rawEqual_iff_of_key`). For doubles that is a matter of
their bits: a double other than zero is determined by its sign and its magnitude, so two doubles that are the same integer have the
same bits, unless they are the two zeros (`Binary64.bits_eq`).
-/

namespace ScriptHost

namespace Binary64

variable {x y : Binary64} {i : Int64}

theorem fraction_lt (x : Binary64) : x.fraction < 2 ^ 52 := Nat.mod_lt _ (by decide)

theorem significand_lt (x : Binary64) : x.significand < 2 ^ 53 := by
  have h := x.fraction_lt
  simp only [significand, Nat.pow_eq]
  split <;> omega

/-- Above the smallest exponent a significand has its leading bit. -/
theorem le_significand (h : x.exponent ≠ 0) : 2 ^ 52 ≤ x.significand := by
  simp only [significand, if_neg h, Nat.pow_eq]
  omega

/-- A double with a smaller exponent is smaller. -/
theorem magnitude_lt (h : x.exponent < y.exponent) : x.magnitude < y.magnitude := by
  have hy := le_significand (x := y) (by omega)
  have hmax : max y.exponent 1 = y.exponent := by omega
  simp only [magnitude, Nat.pow_eq, hmax]
  by_cases hx : x.exponent = 0
  · have hsig : x.significand < 2 ^ 52 := by
      rw [significand, if_pos hx]
      exact x.fraction_lt
    have hle : 2 ^ max x.exponent 1 ≤ 2 ^ y.exponent := Nat.pow_le_pow_right (by decide) (by omega)
    calc x.significand * 2 ^ max x.exponent 1
        < 2 ^ 52 * 2 ^ max x.exponent 1 := Nat.mul_lt_mul_of_pos_right hsig (Nat.two_pow_pos _)
      _ ≤ y.significand * 2 ^ y.exponent := Nat.mul_le_mul hy hle
  · have hle : 2 ^ (max x.exponent 1 + 1) ≤ 2 ^ y.exponent := Nat.pow_le_pow_right (by decide) (by omega)
    calc x.significand * 2 ^ max x.exponent 1
        < 2 ^ 53 * 2 ^ max x.exponent 1 := Nat.mul_lt_mul_of_pos_right x.significand_lt (Nat.two_pow_pos _)
      _ = 2 ^ 52 * 2 ^ (max x.exponent 1 + 1) := by ring
      _ ≤ y.significand * 2 ^ y.exponent := Nat.mul_le_mul hy hle

/-- The magnitude determines the exponent and the fraction. -/
theorem fields_of_magnitude (h : x.magnitude = y.magnitude) : x.exponent = y.exponent ∧ x.fraction = y.fraction := by
  have hexponent : x.exponent = y.exponent := by
    rcases Nat.lt_trichotomy x.exponent y.exponent with hlt | heq | hlt
    · exact absurd h (magnitude_lt hlt).ne
    · exact heq
    · exact absurd h.symm (magnitude_lt hlt).ne
  refine ⟨hexponent, ?_⟩
  have hsig : x.significand = y.significand := by
    simp only [magnitude, hexponent] at h
    exact Nat.eq_of_mul_eq_mul_right (Nat.two_pow_pos _) h
  simp only [significand, hexponent] at hsig
  split at hsig <;> omega

/-- The sign and the magnitude determine the bits. -/
theorem bits_eq (h : x.magnitude = y.magnitude) (hs : x.isNegative = y.isNegative) : x.bits = y.bits := by
  obtain ⟨hexponent, hfraction⟩ := fields_of_magnitude h
  have hx := x.bits.toNat_lt
  have hy := y.bits.toNat_lt
  simp only [exponent, fraction, Nat.pow_eq] at hexponent hfraction
  simp only [isNegative, Nat.pow_eq, decide_eq_decide] at hs
  exact UInt64.toNat_inj.1 (by omega)

/-! ## Doubles that are integers -/

theorem toInt64?_eq_some_iff : x.toInt64? = some i ↔ x.toInt? = some i.toInt := by
  unfold toInt64?
  cases x.toInt? with
  | none => simp
  | some n =>
    simp only [Option.some.injEq]
    constructor
    · intro h
      split at h
      · rename_i hrange
        cases h
        exact (Int64.toInt_ofInt_of_le hrange.1 (Int.lt_add_one_iff.2 hrange.2)).symm
      · cases h
    · rintro rfl
      rw [if_pos ⟨i.minValue_le_toInt, Int.lt_add_one_iff.1 i.toInt_lt⟩, Int64.ofInt_toInt]

/-- A double that is an integer is a number, of the magnitude of the integer. -/
theorem of_toInt? {n : Int} (h : x.toInt? = some n) :
    x.isNaN = false ∧ x.magnitude = n.natAbs * one ∧ (n < 0 → x.isNegative = true) ∧ (0 < n → x.isNegative = false) := by
  unfold toInt? at h
  split at h
  · cases h
  rename_i hfinite
  split at h
  · rename_i hwhole
    have hmagnitude := Nat.div_mul_cancel (Nat.dvd_of_mod_eq_zero hwhole)
    revert h hmagnitude
    generalize x.magnitude / one = q
    intro h hmagnitude
    refine ⟨by simp [isNaN, hfinite], ?_⟩
    cases hs : x.isNegative <;> simp only [hs, ↓reduceIte, Bool.false_eq_true, Option.some.injEq] at h <;> subst h
    · exact ⟨by rw [Int.natAbs_natCast, hmagnitude], by omega, fun _ => rfl⟩
    · exact ⟨by rw [Int.natAbs_neg, Int.natAbs_natCast, hmagnitude], fun _ => rfl, by omega⟩
  · cases h

/-- Doubles that are the same integer have the same bits, or are zeros. -/
theorem bits_eq_or_zero {n : Int} (hx : x.toInt? = some n) (hy : y.toInt? = some n) :
    x.bits = y.bits ∨ x.magnitude = 0 ∧ y.magnitude = 0 := by
  obtain ⟨-, hx, hxneg, hxpos⟩ := of_toInt? hx
  obtain ⟨-, hy, hyneg, hypos⟩ := of_toInt? hy
  rcases Int.lt_trichotomy n 0 with hn | rfl | hn
  · exact Or.inl (bits_eq (hx.trans hy.symm) ((hxneg hn).trans (hyneg hn).symm))
  · exact Or.inr ⟨by simpa using hx, by simpa using hy⟩
  · exact Or.inl (bits_eq (hx.trans hy.symm) ((hxpos hn).trans (hypos hn).symm))

/-- The zeros are the integer zero. -/
theorem toInt?_of_zero (h : x.magnitude = 0) : x.toInt? = some 0 := by
  have hfinite : x.exponent ≠ 2047 := by
    intro he
    have hpos : 0 < x.magnitude :=
      Nat.mul_pos (Nat.lt_of_lt_of_le (by decide) (le_significand (by omega))) (Nat.two_pow_pos _)
    omega
  simp [toInt?, hfinite, h]

end Binary64

/-! ## Keys of numbers -/

namespace Key

open Binary64

variable {x y : Binary64}

theorem ofValue_number (x : Binary64) :
    ofValue (.number x) = if x.isNaN then .error .nan else
      match x.toInt64? with
      | some i => .ok (.integer i)
      | none => .ok (.number x.bits) := rfl

/-- Doubles are the same to a script if they have the same key. -/
theorem equal_iff {k : Key} (hx : ofValue (.number x) = .ok k) : x.equal y = true ↔ ofValue (.number y) = .ok k := by
  have hnx : x.isNaN = false := by
    rw [ofValue_number] at hx
    split at hx
    · cases hx
    · exact Bool.eq_false_iff.2 ‹_›
  cases hny : y.isNaN with
  | true => simp [equal, ofValue_number, hny]
  | false =>
    rw [ofValue_number, hnx] at hx
    simp only [equal, hnx, hny, Bool.not_false, Bool.and_self, Bool.true_and, Bool.or_eq_true, beq_iff_eq, Bool.and_eq_true,
      ofValue_number, Bool.false_eq_true, ↓reduceIte] at hx ⊢
    rw [← hx]
    constructor
    · rintro (hbits | ⟨hx0, hy0⟩)
      · cases x
        cases y
        cases hbits
        rfl
      · rw [(toInt64?_eq_some_iff (i := 0)).2 (toInt?_of_zero hx0), (toInt64?_eq_some_iff (i := 0)).2 (toInt?_of_zero hy0)]
    · intro hkeys
      cases hix : x.toInt64? with
      | some i =>
        cases hiy : y.toInt64? with
        | some j =>
          simp only [hix, hiy, Except.ok.injEq, integer.injEq] at hkeys
          subst hkeys
          exact bits_eq_or_zero (toInt64?_eq_some_iff.1 hix) (toInt64?_eq_some_iff.1 hiy)
        | none => simp [hix, hiy] at hkeys
      | none =>
        cases hiy : y.toInt64? with
        | some j => simp [hix, hiy] at hkeys
        | none =>
          simp only [hix, hiy, Except.ok.injEq, number.injEq] at hkeys
          exact Or.inl hkeys.symm

/-- A double has the key of an integer if it is that integer. -/
theorem ofValue_number_eq_integer_iff {i : Int64} : ofValue (.number x) = .ok (.integer i) ↔ x.toInt64? = some i := by
  rw [ofValue_number]
  constructor
  · intro h
    split at h
    · cases h
    · cases hi : x.toInt64? with
      | some j =>
        simp only [hi, Except.ok.injEq, integer.injEq] at h
        rw [h]
      | none => simp [hi] at h
  · intro h
    rw [(of_toInt? (toInt64?_eq_some_iff.1 h)).1, h]
    rfl

end Key

/-- What has a key is the same to a script as what has the same key, and as nothing else. -/
theorem Value.rawEqual_iff_of_key {v w : Value} {k : Key} (hv : Key.ofValue v = .ok k) :
    v.rawEqual w = true ↔ Key.ofValue w = .ok k := by
  cases v with
  | nil => cases hv
  | number x =>
    cases w with
    | number y => exact Key.equal_iff hv
    | integer i =>
      constructor
      · intro h
        rw [← hv, Key.ofValue_number_eq_integer_iff.2 (beq_iff_eq.1 h)]
        rfl
      · intro h
        cases h
        exact beq_iff_eq.2 (Key.ofValue_number_eq_integer_iff.1 hv)
    | _ =>
      rw [Key.ofValue_number] at hv
      split at hv
      · cases hv
      · split at hv <;> cases hv <;> simp [rawEqual, Key.ofValue]
  | integer i =>
    cases hv
    cases w with
    | number y => exact beq_iff_eq.trans Key.ofValue_number_eq_integer_iff.symm
    | _ => grind [rawEqual, Key.ofValue]
  | _ =>
    cases hv
    cases w with
    | number y =>
      rw [Key.ofValue_number]
      simp only [rawEqual, Bool.false_eq_true, false_iff]
      intro h
      split at h
      · cases h
      · split at h <;> cases h
    | _ => grind [rawEqual, Key.ofValue]

end ScriptHost

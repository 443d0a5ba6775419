import ScriptHost.Proofs.ArgumentVectors
import ScriptHost.Proofs.Rounding

/-!
# Staged integers

What a value is staged as, for native code to write over, is an integer of 32 bits: the number it is, without its fractional part
and brought into the range (`Value.ClampsTo`). A 64-bit integer takes the way over the nearest double, and the double that is the same
to a script takes none; both come to the same (`Arguments.clampsTo_initialInteger`). Whether anything can be staged does not depend on
the value, but on whether there is a table to list the cell in (`integers_staged_in_every_run_false`).
-/

namespace ScriptHost

variable {χ σ : Type}

/-! ## The integer of a value -/

/-- The integer of 32 bits that a value comes to: for what is the same to a script as an integer, that integer brought into the range;
for a double that stands for a number, the number without its fractional part brought into the range; for an infinity, which is the
double besides the NaNs that stands for no number, its end of the range; and zero for a NaN and for what is no number. -/
structure Value.ClampsTo (v : Value) (n : Int32) : Prop where
  integer : ∀ i : Int64, v.rawEqual (.integer i) = true → n.toInt = max (-2 ^ 31) (min i.toInt (2 ^ 31 - 1))
  finite : ∀ x q, v = .number x → x.value? = some q → n.toInt = max (-2 ^ 31) (min (Binary64.towardZero q) (2 ^ 31 - 1))
  infinite : ∀ x, v = .number x → x.value? = none → x.isNaN = false → n.toInt = if x.isNegative then -2 ^ 31 else 2 ^ 31 - 1
  nan : ∀ x, v = .number x → x.isNaN = true → n = 0
  other : v.isNumber = false → n = 0

namespace Arguments

open ScriptHost.Action Machine

variable {m : Machine χ σ} {R : Table}

/-- An integer comes to itself in the range, whatever rounding does on the way. -/
theorem toInt_initialInteger (i : Int64) : (initialInteger (.integer i)).toInt = max (-2 ^ 31) (min i.toInt (2 ^ 31 - 1)) := by
  have hlow := i.le_toInt
  have hhigh := i.toInt_lt
  exact Binary64.toInt32_ofInt (by omega)

/-- Every value is staged as the integer that it comes to. -/
theorem clampsTo_initialInteger (v : Value) : v.ClampsTo (initialInteger v) := by
  cases v with
  | integer i =>
    refine ⟨fun j hj => ?_, nofun, nofun, nofun, nofun⟩
    obtain rfl : i = j := beq_iff_eq.1 hj
    exact toInt_initialInteger i
  | number x =>
    refine ⟨fun i hi => ?_, ?_, ?_, ?_, nofun⟩
    · have h := Binary64.toInt32_of_value (Value.rawEqual_number_integer.1 hi)
      rwa [Binary64.towardZero_intCast] at h
    · rintro _ q ⟨⟩ hq
      exact Binary64.toInt32_of_value hq
    · rintro _ ⟨⟩ hvalue hnan
      exact Binary64.toInt32_of_infinite hnan hvalue
    · rintro _ ⟨⟩ hnan
      exact Binary64.toInt32_of_nan hnan
  | _ => exact ⟨nofun, nofun, nofun, nofun, fun _ => rfl⟩

/-! ## Staging -/

/-- An integer is staged exactly if cells can be, in a cell that holds it. -/
theorem stageInteger_spec (hw : m.heap.WellFormed) (hR : m.heap.object? m.registry = some (.table R)) (v : Value) :
    ((∃ staged m', stageInteger v m = (.ok staged, m')) ↔ m.TakesCells) ∧
      ∀ staged m', stageInteger v m = (.ok staged, m') → staged.value = initialInteger v ∧
        m'.heap.object? staged.cell = some (.userdata (.ofPayload (.int32 staged.value))) := by
  by_cases hcells : m.TakesCells
  · obtain ⟨r, m₁, hstage, -, hr⟩ := exists_stage hw hR hcells (.int32 (initialInteger v))
    have hvalue : stageInteger v m = (.ok ⟨r, initialInteger v⟩, m₁) := bind_of_ok hstage
    refine ⟨⟨fun _ => hcells, fun _ => ⟨_, _, hvalue⟩⟩, fun staged m' h => ?_⟩
    cases hvalue.symm.trans h
    exact ⟨rfl, hr⟩
  · obtain ⟨e, m₁, hstage⟩ := stage_refused hw hR hcells (.int32 (initialInteger v))
    have hvalue : stageInteger v m = (.error e, m₁) := bind_of_error hstage
    refine ⟨⟨?_, fun h => absurd h hcells⟩, fun staged m' h => ?_⟩
    · rintro ⟨staged, m', h⟩
      cases hvalue.symm.trans h
    · cases hvalue.symm.trans h

end Arguments

open Arguments Machine

/-- **Staged integers are clamped exactly.** On every machine of a run, any value is staged exactly if the registry does not have, where
the cells are kept, a reference to no table; and it has none if native code has left the names of the registry to the binding layer.
What is staged is in its cell, and is the integer of 32 bits that the value comes to. -/
theorem staged_integers_clamp {Γ : Host χ σ} {P : Machine χ σ → Request χ σ → Prop} {m : Machine χ σ} (hm : Reached Γ P m) (v : Value) :
    (Γ.Lawful (Spares False) (Unshared False) → Reached Γ (Spares False) m → m.TakesCells) ∧
    ((∃ staged m', stageInteger v m = (.ok staged, m')) ↔ m.TakesCells) ∧
    ∀ staged m', stageInteger v m = (.ok staged, m') →
      m'.heap.object? staged.cell = some (.userdata (.ofPayload (.int32 staged.value))) ∧ v.ClampsTo staged.value := by
  obtain ⟨R, hR⟩ := hm.exists_registry
  obtain ⟨hstaged, hspec⟩ := stageInteger_spec hm.wellFormed hR v
  refine ⟨fun hΓ hspares => (hspares.unshared hΓ).takesCells, hstaged, fun staged m' h => ?_⟩
  obtain ⟨hvalue, hcell⟩ := hspec staged m' h
  exact ⟨hcell, hvalue ▸ clampsTo_initialInteger v⟩

/-- A new machine stages the largest integer, which is rounded up to 2^63 on the way, as the largest of 32 bits, and a double of minus
two and a half as minus two. -/
theorem staged_integers_clamp_start :
    (∃ staged m', stageInteger (.integer Int64.maxValue) (.start .standard () : Machine Unit Unit) = (.ok staged, m') ∧
      staged.value = 2147483647) ∧
    ∃ staged m', stageInteger (.number ⟨0xC004000000000000⟩) (.start .standard () : Machine Unit Unit) = (.ok staged, m') ∧
      staged.value = -2 := by
  have hm : Reached idleHost (fun _ _ => True) (.start .standard () : Machine Unit Unit) := .start .standard ()
  have hcells : ∀ v, ∃ staged m', stageInteger v (.start .standard () : Machine Unit Unit) = (.ok staged, m') := fun v =>
    (staged_integers_clamp hm v).2.1.2 ((staged_integers_clamp hm v).1 lawful_idleHost (.start .standard ()))
  refine ⟨?_, ?_⟩
  · obtain ⟨staged, m', hvalue⟩ := hcells (.integer Int64.maxValue)
    refine ⟨staged, m', hvalue, Int32.toInt_inj.1 ?_⟩
    rw [((staged_integers_clamp hm _).2.2 staged m' hvalue).2.integer Int64.maxValue (by decide)]
    decide
  · obtain ⟨staged, m', hvalue⟩ := hcells (.number ⟨0xC004000000000000⟩)
    have hnumber : Binary64.value? ⟨0xC004000000000000⟩ = some (-5 / 2) := by
      have hexponent : Binary64.exponent ⟨0xC004000000000000⟩ = 1024 := by decide
      have hfraction : Binary64.fraction ⟨0xC004000000000000⟩ = 2 ^ 50 := by decide
      have hnegative : Binary64.isNegative ⟨0xC004000000000000⟩ = true := by decide
      simp only [Binary64.value?, hexponent, hfraction, hnegative]
      norm_num
    have htwo : Binary64.towardZero (-5 / 2) = -2 := by norm_num [Binary64.towardZero]
    refine ⟨staged, m', hvalue, Int32.toInt_inj.1 ?_⟩
    rw [((staged_integers_clamp hm _).2.2 staged m' hvalue).2.finite _ _ rfl hnumber, htwo]
    decide

/-- Not in every run can an integer be staged: the cells may be gone. -/
theorem integers_staged_in_every_run_false :
    ¬∀ (m : Machine Unit Unit), Reached idleHost (fun _ _ => True) m → ∀ i : Int64,
      ∃ staged m', stageInteger (.integer i) m = (.ok staged, m') ∧ staged.value.toInt = max (-2 ^ 31) (min i.toInt (2 ^ 31 - 1)) := by
  intro h
  obtain ⟨staged, m', hvalue, -⟩ := h cellsGone (reached_requested _) 5
  have hnone : (stageInteger (.integer 5) cellsGone).1.toOption = none := by decide +kernel
  rw [hvalue] at hnone
  cases hnone

end ScriptHost

import Mathlib.Data.List.Basic
import Mathlib.Tactic.Common
import ScriptHost.Binding.Arguments
import ScriptHost.Proofs.Table

/-!
# Telling overloads apart

An overload is missing arguments where a range of places holds nothing but nil. The range is one of the list, cut at its end
(`Arguments.isMissing_iff_between`). Its end is cut also at the last 64-bit number, and place zero is in no list: neither shows,
as no list of arguments in memory is so long that it has a place of that number.
-/

namespace ScriptHost

namespace Arguments

variable {α : Type} {args : List Value} {start count : UInt64}

/-- The elements of a list from one index on and up to another one pass a test if each of them does that is there. -/
theorem all_drop_take {l : List α} {p : α → Bool} {first stop : Nat} :
    ((l.take stop).drop first).all p = true ↔ ∀ j x, first ≤ j → j < stop → l[j]? = some x → p x = true := by
  rw [List.all_eq_true]
  constructor
  · intro h j x hfirst hstop hx
    refine h x (List.mem_iff_getElem?.2 ⟨j - first, ?_⟩)
    rwa [List.getElem?_drop, Nat.add_sub_of_le hfirst, List.getElem?_take_of_lt hstop]
  · intro h x hx
    obtain ⟨j, hj⟩ := List.mem_iff_getElem?.1 hx
    rw [List.getElem?_drop, List.getElem?_take] at hj
    obtain ⟨hstop, hx⟩ := Option.ite_none_right_eq_some.1 hj
    exact h _ x (Nat.le_add_right _ _) hstop hx

/-- The places of a range hold nothing but nil if each of them does that is a place of the list, the end of the range being no
more than the last 64-bit number. -/
theorem isMissing_iff_between :
    isMissing args start count = true ↔ ∀ i v, 1 ≤ i → start.toNat ≤ i →
      i < min (start.toNat + count.toNat) (UInt64.size - 1) → args[i - 1]? = some v → v = .nil := by
  rw [isMissing, all_drop_take]
  simp only [Value.isNil_iff]
  constructor
  · intro h i v hone hstart hstop
    exact h (i - 1) v (by omega) (by omega)
  · intro h j v hstart hstop hv
    exact h (j + 1) v (by omega) (by omega) (by omega) hv

/-- The places of a range hold nothing but nil if and only if no argument that is not nil stands at one of them, the end of the
range counted without overflow. A list has fewer than `2 ^ 64 - 1` arguments: its length is a 64-bit number of bytes, and an
argument takes more than one of them. -/
theorem isMissing_iff (hlength : args.length < UInt64.size - 1) :
    isMissing args start count = true ↔
      ¬∃ i v, 1 ≤ i ∧ i ≤ args.length ∧ start.toNat ≤ i ∧ i < start.toNat + count.toNat ∧ args[i - 1]? = some v ∧ v ≠ .nil := by
  rw [isMissing_iff_between]
  constructor
  · rintro h ⟨i, v, hone, hlast, hstart, hstop, hv, hnil⟩
    exact hnil (h i v hone hstart (Nat.lt_min.2 ⟨hstop, by omega⟩) hv)
  · intro h i v hone hstart hstop hv
    by_contra hnil
    have hlast : i - 1 < args.length := (List.getElem?_eq_some_iff.1 hv).1
    exact h ⟨i, v, hone, by omega, hstart, (Nat.lt_min.1 hstop).1, hv, hnil⟩

/-- The second of two arguments is found by the longest range that starts at it, whose end is cut, and by none that starts behind
it. -/
theorem isMissing_iff_longest :
    [Value.nil, .integer 7].length < UInt64.size - 1 ∧
    isMissing [.nil, .integer 7] 2 (UInt64.ofNat (UInt64.size - 1)) = false ∧
    (isMissing [.nil, .integer 7] 3 (UInt64.ofNat (UInt64.size - 1)) = true ↔
      ¬∃ i v, 1 ≤ i ∧ i ≤ 2 ∧ 3 ≤ i ∧ i < 3 + (UInt64.size - 1) ∧ [Value.nil, .integer 7][i - 1]? = some v ∧ v ≠ .nil) := by
  refine ⟨by decide, ?_, isMissing_iff (by decide)⟩
  exact Bool.eq_false_iff.2 fun h => (isMissing_iff (by decide)).1 h ⟨2, .integer 7, by decide⟩

end Arguments

end ScriptHost

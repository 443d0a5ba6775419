import Mathlib.Algebra.Group.Nat.Defs
import Mathlib.Data.List.Nodup
import Mathlib.Data.List.Perm.Subperm
import ScriptHost.Binding.Arguments
import ScriptHost.Proofs.Table

/-!
# Tables of texts

A table has texts up to a number if each place from one to that number has a text or a number, and the place after it has neither. The
texts at the front of such a table are those of exactly these places (`Table.leadingTexts_eq`). A new table that is filled with texts
lists them: its entries are the texts at the places from one on, and no others (`Table.lists_withTexts`). Places are 64-bit integers,
so two places are the same only if their numbers are 2^64 apart (`Table.place_inj`).
-/

namespace ScriptHost

/-- A text or a number. -/
def Value.TextOrNumber (v : Value) : Prop := v.isString = true ∨ v.isNumber = true

/-- Texts and numbers are what has a form as a text. -/
theorem Value.isSome_coerceText? {v : Value} : v.coerceText?.isSome = true ↔ v.TextOrNumber := by
  cases v <;> simp [coerceText?, TextOrNumber, isString, isNumber]

namespace Table

variable {T : Table} {n : Nat} {texts : List String} {k : Key} {v : Value}

/-- The key of a place. -/
def place (n : Nat) : Key := .integer (Int64.ofNat n)

/-- Each place from one to a number has a text or a number, and the place after it has neither. -/
structure TextsUpTo (T : Table) (n : Nat) : Prop where
  texts : ∀ i, 1 ≤ i → i ≤ n → (T.get (place i)).TextOrNumber
  ends : ¬(T.get (place (n + 1))).TextOrNumber

/-- The forms as texts of what a table has at the places from one to a number. -/
def forms (T : Table) (n : Nat) : List String :=
  (List.range n).map fun i => (T.get (place (i + 1))).coerceText?.getD ""

/-- The entries of a table are texts, at the places from one on. -/
structure Lists (T : Table) (texts : List String) : Prop where
  entries : ∀ k v, (k, v) ∈ T.entries ↔ ∃ i s, texts[i]? = some s ∧ k = place (i + 1) ∧ v = .string s
  size : T.size = texts.length

/-! ## Places -/

theorem place_inj {i j : Nat} : place i = place j ↔ i % 2 ^ 64 = j % 2 ^ 64 := by
  rw [place, place, Key.integer.injEq, ← Int64.toBitVec_inj, ← BitVec.toNat_inj]
  exact Iff.rfl

/-- The places from one to a number, which are no more than there are integers, are different. -/
theorem nodup_places (hn : n ≤ 2 ^ 64) : ((List.range n).map fun i => place (i + 1)).Nodup := by
  refine List.Nodup.map_on (fun i hi j hj h => ?_) List.nodup_range
  rw [List.mem_range] at hi hj
  rw [place_inj] at h
  omega

/-- A table with texts up to a number has fewer texts than there are integers, and at least as many entries as texts. -/
theorem TextsUpTo.bounds (h : T.TextsUpTo n) : n < 2 ^ 64 ∧ n ≤ T.size := by
  have hlt : n < 2 ^ 64 := by
    by_contra hle
    -- the place after the last one is one of the places before
    have hagain : ∃ i, 1 ≤ i ∧ i ≤ n ∧ place i = place (n + 1) := by
      by_cases hzero : (n + 1) % 2 ^ 64 = 0
      · exact ⟨2 ^ 64, by omega, by omega, place_inj.2 (by omega)⟩
      · exact ⟨(n + 1) % 2 ^ 64, by omega, by omega, place_inj.2 (by omega)⟩
    obtain ⟨i, hi, hin, hsame⟩ := hagain
    exact h.ends (hsame ▸ h.texts i hi hin)
  refine ⟨hlt, ?_⟩
  have hsubset : ((List.range n).map fun i => place (i + 1)) ⊆ T.entries.map Prod.fst := by
    intro k hk
    obtain ⟨i, hi, rfl⟩ := List.mem_map.1 hk
    have htext := h.texts (i + 1) (by omega) (by have := List.mem_range.1 hi; omega)
    have hne : T.get (place (i + 1)) ≠ .nil := by
      intro e
      rw [e] at htext
      rcases htext with htext | htext <;> cases htext
    exact List.mem_map.2 ⟨_, mem_of_find? (find?_of_get rfl hne), rfl⟩
  have hle := (List.subperm_of_subset (nodup_places (Nat.le_of_lt hlt)) hsubset).length_le
  simpa [size] using hle

/-! ## The texts at the front -/

theorem leadingTexts_eq (h : T.TextsUpTo n) : T.leadingTexts = T.forms n := by
  obtain ⟨-, hsize⟩ := h.bounds
  obtain ⟨rest, hrest⟩ : ∃ rest, T.size = n + rest := ⟨T.size - n, by omega⟩
  have hform : ∀ i ∈ List.range n, (T.get (place (i + 1))).coerceText? =
      some ((T.get (place (i + 1))).coerceText?.getD "") := by
    intro i hi
    have hsome := Value.isSome_coerceText?.2 (h.texts (i + 1) (by omega) (by have := List.mem_range.1 hi; omega))
    obtain ⟨s, hs⟩ := Option.isSome_iff_exists.1 hsome
    rw [hs, Option.getD_some]
  have hfront : (List.range n).map (fun i => (T.get (place (i + 1))).coerceText?) = (T.forms n).map some := by
    rw [forms, List.map_map]
    exact List.map_congr_left hform
  have hnone : (T.get (place (n + 1))).coerceText? = none := by
    rw [← Option.not_isSome_iff_eq_none, Value.isSome_coerceText?]
    exact h.ends
  have hback : (((List.range rest).map (n + ·)).map fun i => (T.get (place (i + 1))).coerceText?).takeWhile Option.isSome = [] := by
    cases rest with
    | zero => rfl
    | succ rest =>
      rw [List.range_succ_eq_map, List.map_cons, List.map_cons, Nat.add_zero, hnone]
      rfl
  show (((List.range T.size).map fun i => (T.get (place (i + 1))).coerceText?).takeWhile Option.isSome).filterMap id = _
  rw [hrest, List.range_add, List.map_append, hfront, List.takeWhile_append_of_pos (by simp), hback, List.append_nil,
    List.filterMap_map]
  exact List.filterMap_some

/-! ## Filling a table -/

/-- The table with texts put into it, at the places after a number. -/
def withTexts (T : Table) : Nat → List String → Table
  | _, [] => T
  | n, s :: rest => (T.set (place (n + 1)) (.string s)).withTexts (n + 1) rest

theorem Unique.withTexts (hT : T.Unique) (n : Nat) (texts : List String) : (T.withTexts n texts).Unique := by
  induction texts generalizing T n with
  | nil => exact hT
  | cons s rest ih => exact ih (hT.set _ _) (n + 1)

/-- What is found is what was put there, and elsewhere what was there. -/
theorem find?_withTexts (hlen : texts.length ≤ 2 ^ 64) :
    (T.withTexts n texts).find? k = some v ↔
      (∃ i s, texts[i]? = some s ∧ k = place (n + i + 1) ∧ v = .string s) ∨
        (∀ i, i < texts.length → k ≠ place (n + i + 1)) ∧ T.find? k = some v := by
  induction texts generalizing T n with
  | nil => simp [withTexts]
  | cons s rest ih =>
    rw [List.length_cons] at hlen
    rw [withTexts, ih (by omega), find?_set]
    have hshift : ∀ i, n + (i + 1) + 1 = n + 1 + i + 1 := fun i => by omega
    by_cases hk : k = place (n + 1)
    · have hother : ∀ i, i < rest.length → k ≠ place (n + 1 + i + 1) := by
        intro i hi
        rw [hk, Ne, place_inj]
        omega
      rw [if_pos hk]
      constructor
      · rintro (⟨i, w, hi, hki, -⟩ | ⟨-, hv⟩)
        · exact absurd hki (hother i (List.getElem?_eq_some_iff.1 hi).1)
        · exact Or.inl ⟨0, s, rfl, hk, (Option.some.inj hv).symm⟩
      · rintro (⟨i, w, hi, hki, rfl⟩ | ⟨hnone, -⟩)
        · cases i with
          | zero =>
            cases hi
            exact Or.inr ⟨hother, rfl⟩
          | succ i =>
            rw [List.getElem?_cons_succ] at hi
            exact absurd (hshift i ▸ hki) (hother i (List.getElem?_eq_some_iff.1 hi).1)
        · exact absurd hk (hnone 0 (Nat.succ_pos _))
    · rw [if_neg hk]
      constructor
      · rintro (⟨i, w, hi, hki, rfl⟩ | ⟨hnone, hv⟩)
        · exact Or.inl ⟨i + 1, w, hi, hshift i ▸ hki, rfl⟩
        · refine Or.inr ⟨fun i hi => ?_, hv⟩
          cases i with
          | zero => exact hk
          | succ i => exact hshift i ▸ hnone i (Nat.lt_of_succ_lt_succ hi)
      · rintro (⟨i, w, hi, hki, rfl⟩ | ⟨hnone, hv⟩)
        · cases i with
          | zero => exact absurd hki hk
          | succ i => exact Or.inl ⟨i, w, hi, hshift i ▸ hki, rfl⟩
        · exact Or.inr ⟨fun i hi => hshift i ▸ hnone (i + 1) (Nat.succ_lt_succ hi), hv⟩

/-- A new table filled with texts has them for entries. -/
theorem lists_withTexts (hlen : texts.length < 2 ^ 64) : (Table.empty.withTexts 0 texts).Lists texts := by
  have hunique := unique_empty.withTexts 0 texts
  have hentries : ∀ k v, (k, v) ∈ (Table.empty.withTexts 0 texts).entries ↔
      ∃ i s, texts[i]? = some s ∧ k = place (i + 1) ∧ v = .string s := by
    intro k v
    rw [hunique.mem_entries_iff, find?_withTexts (Nat.le_of_lt hlen)]
    simp [Table.empty, find?]
  refine ⟨hentries, ?_⟩
  have hperm : ((Table.empty.withTexts 0 texts).entries.map Prod.fst).Perm ((List.range texts.length).map fun i => place (i + 1)) := by
    refine (List.perm_ext_iff_of_nodup hunique (nodup_places (Nat.le_of_lt hlen))).2 fun k => ?_
    constructor
    · intro hk
      obtain ⟨⟨k, v⟩, he, rfl⟩ := List.mem_map.1 hk
      obtain ⟨i, s, hi, rfl, -⟩ := (hentries k v).1 he
      exact List.mem_map.2 ⟨i, List.mem_range.2 (List.getElem?_eq_some_iff.1 hi).1, rfl⟩
    · intro hk
      obtain ⟨i, hi, rfl⟩ := List.mem_map.1 hk
      rw [List.mem_range] at hi
      exact List.mem_map.2 ⟨_, (hentries _ _).2 ⟨i, texts[i], List.getElem?_eq_getElem hi, rfl, rfl⟩, rfl⟩
  simpa [size] using hperm.length_eq

/-- A table that lists texts has them at its front. -/
theorem Lists.textsUpTo (h : T.Lists texts) (hT : T.Unique) (hlen : texts.length < 2 ^ 64) :
    T.TextsUpTo texts.length ∧ T.forms texts.length = texts := by
  have hget : ∀ i s, texts[i]? = some s → T.get (place (i + 1)) = .string s := by
    intro i s hi
    have hfind := hT.mem_entries_iff.1 ((h.entries _ _).2 ⟨i, s, hi, rfl, rfl⟩)
    rw [get, hfind, Option.getD_some]
  have hend : T.get (place (texts.length + 1)) = .nil := by
    by_contra hne
    obtain ⟨i, s, hi, hplace, -⟩ := (h.entries _ _).1 (mem_of_find? (find?_of_get rfl hne))
    have hlt := (List.getElem?_eq_some_iff.1 hi).1
    rw [place_inj] at hplace
    omega
  refine ⟨⟨fun i hi hle => ?_, fun hn => ?_⟩, ?_⟩
  · obtain ⟨j, rfl⟩ := Nat.exists_eq_add_of_le' hi
    rw [hget j texts[j] (List.getElem?_eq_getElem hle)]
    exact Or.inl rfl
  · rw [hend] at hn
    rcases hn with hn | hn <;> cases hn
  · refine List.ext_getElem (by simp [forms]) fun i hi hi' => ?_
    simp only [forms, List.getElem_map, List.getElem_range, hget i texts[i] (List.getElem?_eq_getElem hi')]
    rfl

end Table

end ScriptHost

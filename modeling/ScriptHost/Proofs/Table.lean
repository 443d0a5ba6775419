import ScriptHost.Table

/-!
# What a table has under a key

`set` and `erase` by what is found under each key after them. The list of entries of a table that scripts can make has no key
twice (`Table.Unique`), so that what is found and what is in the list are the same (`mem_entries_iff`), also after entries were
filtered out (`find?_filter`). Where a list has a key more than once, the last entry with it may be the one that counts
(`lookup_reverse_cons`).
-/

namespace ScriptHost

/-- Only nil is found to be nil. -/
theorem Value.isNil_iff {v : Value} : v.isNil = true ↔ v = .nil := by
  cases v <;> simp [isNil]

/-! ## The last entry with a key -/

section

variable {κ α : Type} [DecidableEq κ] {l : List (κ × α)} {k : κ} {a : α}

/-- What is found from the end of a list is what is found in the rest of it, and otherwise its first entry. -/
theorem lookup_reverse_cons (e : κ × α) (rest : List (κ × α)) (k : κ) :
    (e :: rest).reverse.lookup k = (rest.reverse.lookup k).or (if k = e.1 then some e.2 else none) := by
  rw [List.reverse_cons, List.lookup_append, List.lookup_cons, List.lookup_nil]
  congr 1
  by_cases h : k = e.1
  · simp [h]
  · simp [h, beq_false_of_ne h]

/-- What is found from the end of a list is in the last entry with the key. -/
theorem lookup_reverse_eq_some_iff :
    l.reverse.lookup k = some a ↔ ∃ earlier later, l = earlier ++ (k, a) :: later ∧ ∀ e ∈ later, e.1 ≠ k := by
  rw [List.lookup_eq_some_iff]
  constructor
  · rintro ⟨front, back, hsplit, hfront⟩
    refine ⟨back.reverse, front.reverse, ?_, fun e he => ?_⟩
    · rw [← List.reverse_reverse l, hsplit]
      simp
    · have hne := hfront e (List.mem_reverse.1 he)
      exact fun heq => by simp [heq] at hne
  · rintro ⟨earlier, later, rfl, hlater⟩
    refine ⟨later.reverse, earlier.reverse, by simp, fun e he => ?_⟩
    simpa using Ne.symm (hlater e (List.mem_reverse.1 he))

end

namespace Table

/-- No key is in the list of entries twice. -/
def Unique (t : Table) : Prop := (t.entries.map Prod.fst).Nodup

/-! ## Erasing and setting -/

@[simp] theorem metatable_set (t : Table) (k : Key) (v : Value) : (t.set k v).metatable = t.metatable := by
  unfold set
  split <;> rfl

theorem find?_erase (t : Table) (k k' : Key) : (t.erase k).find? k' = if k' = k then none else t.find? k' := by
  unfold find? erase
  induction t.entries with
  | nil => simp
  | cons e rest ih =>
    obtain ⟨k₀, v₀⟩ := e
    by_cases hk : k₀ = k
    · by_cases hk' : k' = k
      · simpa [List.filter_cons, hk, hk'] using ih
      · simpa [List.filter_cons, hk, hk', List.lookup_cons, beq_eq_false_iff_ne.2 hk'] using ih
    · by_cases hk' : k' = k₀
      · simp [hk, hk']
      · simpa [List.filter_cons, hk, List.lookup_cons, beq_eq_false_iff_ne.2 hk'] using ih

theorem find?_set (t : Table) (k k' : Key) (v : Value) :
    (t.set k v).find? k' = if k' = k then (if v.isNil then none else some v) else t.find? k' := by
  unfold set
  by_cases hv : v.isNil = true
  · simp [hv, find?_erase]
  · by_cases hk : k' = k
    · simp [hv, hk, find?]
    · have herase := find?_erase t k k'
      simp only [hk, if_false] at herase
      simpa [hv, hk, find?, List.lookup_cons, beq_eq_false_iff_ne.2 hk] using herase

theorem get_set (t : Table) (k k' : Key) (v : Value) : (t.set k v).get k' = if k' = k then v else t.get k' := by
  unfold get
  rw [find?_set]
  split
  · cases v <;> rfl
  · rfl

/-- What is in a table after an entry was set is that entry, unless it was set to nil, or was there under another key. -/
theorem mem_entries_set {t : Table} {k : Key} {v : Value} {e : Key × Value} (he : e ∈ (t.set k v).entries) :
    e = (k, v) ∧ v ≠ .nil ∨ e ∈ t.entries ∧ e.1 ≠ k := by
  have herase : ∀ e ∈ (t.erase k).entries, e ∈ t.entries ∧ e.1 ≠ k := by
    intro e he
    obtain ⟨he, hk⟩ := List.mem_filter.1 he
    exact ⟨he, by simpa using hk⟩
  unfold set at he
  split at he
  · exact Or.inr (herase e he)
  · rename_i hv
    rcases List.mem_cons.1 he with rfl | he
    · refine Or.inl ⟨rfl, ?_⟩
      rintro rfl
      exact hv rfl
    · exact Or.inr (herase e he)

/-- An entry under a key that has none comes before the entries that are there. -/
theorem entries_set_of_new {t : Table} {k : Key} {v : Value} (hk : ∀ e ∈ t.entries, e.1 ≠ k) (hv : v.isNil = false) :
    (t.set k v).entries = (k, v) :: t.entries := by
  have herase : (t.erase k).entries = t.entries := List.filter_eq_self.2 fun e he => by simpa using hk e he
  rw [set, if_neg (by simp [hv]), herase]

/-! ## Tables without a key twice -/

theorem unique_empty : Table.empty.Unique := List.nodup_nil

theorem Unique.filter {t : Table} (ht : t.Unique) (p : Key × Value → Bool) :
    Table.Unique { t with entries := t.entries.filter p } :=
  List.Sublist.nodup (List.filter_sublist.map Prod.fst) ht

theorem Unique.erase {t : Table} (ht : t.Unique) (k : Key) : (t.erase k).Unique := ht.filter _

theorem Unique.set {t : Table} (ht : t.Unique) (k : Key) (v : Value) : (t.set k v).Unique := by
  unfold Table.set
  split
  · exact ht.erase k
  · refine List.nodup_cons.2 ⟨?_, ht.erase k⟩
    simp [Table.erase]

theorem mem_of_find? {t : Table} {k : Key} {v : Value} (h : t.find? k = some v) : (k, v) ∈ t.entries := by
  obtain ⟨l, l', hl, -⟩ := List.lookup_eq_some_iff.1 h
  simp [hl]

/-- A value other than nil that is read under a key is found there. -/
theorem find?_of_get {t : Table} {k : Key} {v : Value} (h : t.get k = v) (hv : v ≠ .nil) : t.find? k = some v := by
  unfold get at h
  cases hf : t.find? k with
  | none => exact absurd (by rw [← h, hf]; rfl) hv
  | some w => rw [hf] at h; exact congrArg some h

/-- What is found under a key is what the list has under it. -/
theorem Unique.mem_entries_iff {t : Table} (ht : t.Unique) {k : Key} {v : Value} :
    (k, v) ∈ t.entries ↔ t.find? k = some v := by
  refine ⟨fun hkv => ?_, mem_of_find?⟩
  obtain ⟨l, l', hl⟩ := List.append_of_mem hkv
  refine List.lookup_eq_some_iff.2 ⟨l, l', hl, fun e he => ?_⟩
  unfold Unique at ht
  rw [hl, List.map_append, List.map_cons, List.nodup_append] at ht
  have hne := ht.2.2 e.1 (List.mem_map_of_mem he) k (by simp)
  simpa using Ne.symm hne

/-- Of the entries that are left, what was found before is found again. -/
theorem Unique.find?_filter {t : Table} (ht : t.Unique) (p : Key × Value → Bool) (k : Key) :
    Table.find? { t with entries := t.entries.filter p } k = (t.find? k).filter (fun v => p (k, v)) := by
  refine Option.ext fun v => ?_
  rw [← (ht.filter p).mem_entries_iff, Option.filter_eq_some_iff, ← ht.mem_entries_iff]
  exact List.mem_filter

end Table

end ScriptHost

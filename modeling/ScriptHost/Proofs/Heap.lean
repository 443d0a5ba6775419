import ScriptHost.Collection

/-!
# What a reference finds

Every operation on the heap is described by what a reference finds after it, in terms of what it found before: `object?` of
`put`, `changeTable`, `release`, and of the loops of a collection over them. The lemmas hold on every heap, also on one whose
free slots are in disorder, because a slot belongs to one live reference at most.
-/

namespace ScriptHost

variable {χ : Type}

namespace Heap

/-! ## Slots and references -/

theorem object?_eq_some_iff {h : Heap χ} {r : Ref} {o : Object χ} :
    h.object? r = some o ↔ ∃ s, h.slots[r.slot]? = some s ∧ s.generation = r.generation ∧ s.object = some o := by
  unfold object?
  cases hs : h.slots[r.slot]? with
  | none => simp
  | some s =>
    by_cases hg : s.generation = r.generation
    · simp [hg]
    · simp [hg]

theorem contains_iff {h : Heap χ} {r : Ref} : h.contains r = true ↔ ∃ o, h.object? r = some o :=
  Option.isSome_iff_exists

theorem contains_of_object? {h : Heap χ} {r : Ref} {o : Object χ} (ho : h.object? r = some o) : h.contains r = true :=
  contains_iff.2 ⟨o, ho⟩

/-- A live reference is to one of the slots. -/
theorem slot_lt_of_contains {h : Heap χ} {r : Ref} (hr : h.contains r = true) : r.slot < h.capacity := by
  obtain ⟨o, ho⟩ := contains_iff.1 hr
  obtain ⟨s, hs, -⟩ := object?_eq_some_iff.1 ho
  exact (Array.getElem?_eq_some_iff.1 hs).1

/-- A slot belongs to one live reference at most. -/
theorem eq_of_slot_eq {h : Heap χ} {r s : Ref} (hr : h.contains r = true) (hs : h.contains s = true)
    (e : r.slot = s.slot) : r = s := by
  obtain ⟨o, ho⟩ := contains_iff.1 hr
  obtain ⟨p, hp⟩ := contains_iff.1 hs
  obtain ⟨x, hx, hxg, -⟩ := object?_eq_some_iff.1 ho
  obtain ⟨y, hy, hyg, -⟩ := object?_eq_some_iff.1 hp
  rw [e, hy] at hx
  cases hx
  cases r
  cases s
  simp only at e hxg hyg
  rw [e, ← hxg, ← hyg]

theorem get_eq_ok_iff {h : Heap χ} {r : Ref} {o : Object χ} : h.get r = .ok o ↔ h.object? r = some o := by
  unfold get
  cases h.object? r <;> simp

theorem table_eq_ok_iff {h : Heap χ} {r : Ref} {t : Table} : h.table r = .ok t ↔ h.object? r = some (.table t) := by
  rw [← get_eq_ok_iff]
  unfold table
  rcases h.get r with e | (t' | u | f) <;> simp

theorem userdata_eq_ok_iff {h : Heap χ} {r : Ref} {u : Userdata} :
    h.userdata r = .ok u ↔ h.object? r = some (.userdata u) := by
  rw [← get_eq_ok_iff]
  unfold userdata
  rcases h.get r with e | (t | u' | f) <;> simp

theorem function_eq_ok_iff {h : Heap χ} {r : Ref} {f : NativeFunction χ} :
    h.function r = .ok f ↔ h.object? r = some (.function f) := by
  rw [← get_eq_ok_iff]
  unfold function
  rcases h.get r with e | (t | u | f') <;> simp

/-- No reference finds both a table and a userdata. -/
theorem ne_of_table_of_userdata {h : Heap χ} {r s : Ref} {t : Table} {u : Userdata}
    (hr : h.object? r = some (.table t)) (hs : h.object? s = some (.userdata u)) : r ≠ s := by
  rintro rfl
  rw [hr] at hs
  cases hs

/-! ## Overwriting an object -/

@[simp] theorem capacity_put (h : Heap χ) (i : Nat) (o : Object χ) : (h.put i o).capacity = h.capacity := by
  simp [put, capacity]

/-- Overwriting the object of a live reference changes what that reference finds, and nothing else. -/
theorem object?_put {h : Heap χ} {r : Ref} (hr : h.contains r = true) (o : Object χ) (s : Ref) :
    (h.put r.slot o).object? s = if s = r then some o else h.object? s := by
  obtain ⟨p, hp⟩ := contains_iff.1 hr
  obtain ⟨x, hx, hg, -⟩ := object?_eq_some_iff.1 hp
  by_cases hs : s.slot = r.slot
  · by_cases hsr : s = r
    · subst hsr
      simp [object?, put, Array.getElem?_modify, hx, hg]
    · have hgs : x.generation ≠ s.generation := by
        intro e
        apply hsr
        cases r
        cases s
        simp_all
      simp [object?, put, Array.getElem?_modify, hs, hx, hgs, hsr]
  · have hsr : s ≠ r := fun e => hs (congrArg Ref.slot e)
    simp [object?, put, Array.getElem?_modify, Ne.symm hs, hsr]

/-- A table that is changed was there, and only it is another one. -/
theorem changeTable_eq_ok_iff {h h' : Heap χ} {r : Ref} {f : Table → Table} :
    h.changeTable r f = .ok h' ↔ ∃ t, h.object? r = some (.table t) ∧ h' = h.put r.slot (.table (f t)) := by
  unfold changeTable
  constructor
  · intro hc
    cases ht : h.table r with
    | error e => simp [ht] at hc
    | ok t =>
      simp only [ht, Except.ok.injEq] at hc
      exact ⟨t, table_eq_ok_iff.1 ht, hc.symm⟩
  · rintro ⟨t, ht, rfl⟩
    simp [table_eq_ok_iff.2 ht]

/-- A userdata that is changed was there, and only it is another one. -/
theorem changeUserdata_eq_ok_iff {h h' : Heap χ} {r : Ref} {f : Userdata → Userdata} :
    h.changeUserdata r f = .ok h' ↔ ∃ u, h.object? r = some (.userdata u) ∧ h' = h.put r.slot (.userdata (f u)) := by
  unfold changeUserdata
  constructor
  · intro hc
    cases hu : h.userdata r with
    | error e => simp [hu] at hc
    | ok u =>
      simp only [hu, Except.ok.injEq] at hc
      exact ⟨u, userdata_eq_ok_iff.1 hu, hc.symm⟩
  · rintro ⟨u, hu, rfl⟩
    simp [userdata_eq_ok_iff.2 hu]

/-! ## Freeing -/

/-- After a release the reference finds nothing, and every other one finds what it found. -/
theorem object?_release (h : Heap χ) (r s : Ref) :
    (h.release r).object? s = if s = r then none else h.object? s := by
  by_cases hr : h.contains r = true
  · obtain ⟨p, hp⟩ := contains_iff.1 hr
    obtain ⟨x, hx, hg, -⟩ := object?_eq_some_iff.1 hp
    by_cases hs : s.slot = r.slot
    · have hnone : (h.release r).object? s = none := by
        simp [object?, release, hr, Array.getElem?_modify, hs, hx]
      by_cases hsr : s = r
      · simp [hsr, hsr ▸ hnone]
      · have hgs : x.generation ≠ s.generation := by
          intro e
          apply hsr
          cases r
          cases s
          simp_all
        rw [hnone, if_neg hsr]
        simp [object?, hs, hx, hgs]
    · have hsr : s ≠ r := fun e => hs (congrArg Ref.slot e)
      simp [object?, release, hr, Array.getElem?_modify, Ne.symm hs, hsr]
  · have hnone : h.object? r = none := by
      cases ho : h.object? r with
      | none => rfl
      | some o => exact absurd (contains_of_object? ho) hr
    by_cases hsr : s = r
    · simp [release, hr, hsr, hnone]
    · simp [release, hr, hsr]

/-- After releases the references released find nothing, and every other one finds what it found. -/
theorem object?_releaseAll (refs : List Ref) (h : Heap χ) (s : Ref) :
    (h.releaseAll refs).object? s = if s ∈ refs then none else h.object? s := by
  unfold releaseAll
  induction refs generalizing h with
  | nil => simp
  | cons r rest ih =>
    rw [List.foldl_cons, ih, object?_release]
    by_cases hs : s ∈ rest
    · simp [hs]
    · by_cases hsr : s = r
      · simp [hsr]
      · simp [hs, hsr]

/-! ## The list of all references -/

theorem mem_refs_iff {h : Heap χ} {r : Ref} : r ∈ h.refs ↔ h.contains r = true := by
  simp only [refs, List.mem_filterMap, Prod.exists, List.mem_zipIdx_iff_getElem?, Array.getElem?_toList,
    Option.map_eq_some_iff, contains_iff, object?_eq_some_iff]
  constructor
  · rintro ⟨x, i, hx, o, ho, rfl⟩
    exact ⟨o, x, hx, rfl, ho⟩
  · rintro ⟨o, x, hx, hg, ho⟩
    exact ⟨x, r.slot, hx, o, ho, by rw [hg]⟩

/-- The references are listed in ascending order of their slots. -/
theorem pairwise_refs (h : Heap χ) : h.refs.Pairwise (fun r s => r.slot < s.slot) := by
  have hz : h.slots.toList.zipIdx.Pairwise (fun a b => a.2 < b.2) := by
    rw [← List.pairwise_map (f := Prod.snd), List.zipIdx_map_snd]
    exact List.pairwise_lt_range'
  refine List.Pairwise.filterMap _ ?_ hz
  intro a b hab r hr s hs
  obtain ⟨_, _, rfl⟩ := Option.map_eq_some_iff.1 hr
  obtain ⟨_, _, rfl⟩ := Option.map_eq_some_iff.1 hs
  exact hab

theorem nodup_refs (h : Heap χ) : h.refs.Nodup := by
  refine h.pairwise_refs.imp ?_
  rintro r s hlt rfl
  exact Nat.lt_irrefl _ hlt

end Heap

end ScriptHost

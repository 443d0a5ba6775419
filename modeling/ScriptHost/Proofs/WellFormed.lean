import ScriptHost.Proofs.Depth
import ScriptHost.Proofs.Table

/-!
# Well-formed heaps

An allocation takes a slot off the free list without looking at it, so it overwrites nothing only if the list names empty slots
and no slot twice. With tables that have no key twice, this makes a heap well-formed (`Heap.WellFormed`). Every primitive step
and every phase of a collection keeps it. On such a heap primitive
steps only make objects and change tables and userdata: what was there stays there (`Heap.Grown`), so no call that is made
while a collection is under way takes anything away.
-/

namespace ScriptHost

variable {χ σ : Type}

namespace Heap

/-- The free list names empty slots only and none of them twice, and no table has a key twice. -/
structure WellFormed (h : Heap χ) : Prop where
  nodup : h.free.Nodup
  empty : ∀ i ∈ h.free, ∃ g, h.slots[i]? = some ⟨g, none⟩
  unique : ∀ r t, h.object? r = some (.table t) → t.Unique

theorem wellFormed_empty : (Heap.empty : Heap χ).WellFormed :=
  ⟨List.nodup_nil, fun _ hi => absurd hi List.not_mem_nil, fun r t ht => by simp [object?, Heap.empty] at ht⟩

/-- The slot of a live reference is not free. -/
theorem WellFormed.slot_not_free {h : Heap χ} (hh : h.WellFormed) {r : Ref} (hr : h.contains r = true) :
    r.slot ∉ h.free := by
  intro hi
  obtain ⟨g, hg⟩ := hh.empty _ hi
  obtain ⟨o, ho⟩ := contains_iff.1 hr
  obtain ⟨s, hs, -, hso⟩ := object?_eq_some_iff.1 ho
  rw [hg] at hs
  cases hs
  cases hso

/-! ## Making an object -/

/-- A new object is where its reference says, and nothing else is different. -/
theorem WellFormed.object?_allocate {h : Heap χ} (hh : h.WellFormed) (o : Object χ) (s : Ref) :
    (h.allocate o).2.object? s = if s = (h.allocate o).1 then some o else h.object? s := by
  unfold allocate
  cases hf : h.free with
  | nil =>
    by_cases hs : s.slot = h.slots.size
    · by_cases hsr : s = ⟨h.slots.size, 0⟩
      · simp [object?, hsr]
      · have hg : ¬(0 = s.generation) := by
          intro e
          apply hsr
          cases s
          simp_all
        simp [object?, hs, hsr, hg]
    · have hsr : s ≠ ⟨h.slots.size, 0⟩ := fun e => hs (congrArg Ref.slot e)
      simp [object?, Array.getElem?_push, hs, hsr]
  | cons i rest =>
    obtain ⟨g, hg⟩ := hh.empty i (by simp [hf])
    simp only [hg, Option.map_some, Option.getD_some]
    by_cases hs : s.slot = i
    · by_cases hsr : s = ⟨i, g⟩
      · simp [object?, put, Array.getElem?_modify, hsr, hg]
      · have hgs : g ≠ s.generation := by
          intro e
          apply hsr
          cases s
          simp_all
        simp [object?, put, Array.getElem?_modify, hs, hsr, hg, hgs]
    · have hsr : s ≠ ⟨i, g⟩ := fun e => hs (congrArg Ref.slot e)
      simp [object?, put, Array.getElem?_modify, Ne.symm hs, hsr]

/-- The reference of a new object found nothing before. -/
theorem WellFormed.not_contains_allocate {h : Heap χ} (hh : h.WellFormed) (o : Object χ) :
    ¬h.contains (h.allocate o).1 = true := by
  intro hc
  unfold allocate at hc
  cases hf : h.free with
  | nil =>
    rw [hf] at hc
    exact Nat.lt_irrefl _ (slot_lt_of_contains hc)
  | cons i rest =>
    rw [hf] at hc
    exact hh.slot_not_free hc (by simp [hf])

theorem WellFormed.allocate {h : Heap χ} (hh : h.WellFormed) {o : Object χ} (ho : ∀ t, o = .table t → t.Unique) :
    (h.allocate o).2.WellFormed := by
  have hunique : ∀ r t, (h.allocate o).2.object? r = some (.table t) → t.Unique := by
    intro r t ht
    rw [hh.object?_allocate] at ht
    split at ht
    · exact ho t (Option.some.inj ht)
    · exact hh.unique r t ht
  cases hf : h.free with
  | nil =>
    have hfree : (h.allocate o).2.free = [] := by
      unfold Heap.allocate
      simp [hf]
    exact ⟨by simp [hfree], by simp [hfree], hunique⟩
  | cons i rest =>
    have hnodup := hh.nodup
    rw [hf] at hnodup
    obtain ⟨hi, hrest⟩ := List.nodup_cons.1 hnodup
    have hheap : (h.allocate o).2 = { h.put i o with free := rest, live := h.live + 1 } := by
      unfold Heap.allocate
      simp [hf]
    refine ⟨by rw [hheap]; exact hrest, ?_, hunique⟩
    rw [hheap]
    intro j hj
    obtain ⟨g, hg⟩ := hh.empty j (by simp [hf, show j ∈ rest from hj])
    have hij : i ≠ j := by
      rintro rfl
      exact hi hj
    exact ⟨g, by simp [put, Array.getElem?_modify, hij, hg]⟩

/-! ## Overwriting and freeing -/

theorem WellFormed.put {h : Heap χ} (hh : h.WellFormed) {r : Ref} (hr : h.contains r = true) {o : Object χ}
    (ho : ∀ t, o = .table t → t.Unique) : (h.put r.slot o).WellFormed := by
  refine ⟨hh.nodup, fun i hi => ?_, fun s t ht => ?_⟩
  · obtain ⟨g, hg⟩ := hh.empty i hi
    have hne : r.slot ≠ i := fun e => hh.slot_not_free hr (e ▸ hi)
    exact ⟨g, by simp [Heap.put, Array.getElem?_modify, hne, hg]⟩
  · rw [object?_put hr] at ht
    split at ht
    · exact ho t (Option.some.inj ht)
    · exact hh.unique s t ht

theorem WellFormed.release {h : Heap χ} (hh : h.WellFormed) (r : Ref) : (h.release r).WellFormed := by
  by_cases hr : h.contains r = true
  · refine ⟨?_, ?_, fun s t ht => ?_⟩
    · simp only [Heap.release, hr, ↓reduceIte]
      exact List.nodup_cons.2 ⟨hh.slot_not_free hr, hh.nodup⟩
    · simp only [Heap.release, hr, ↓reduceIte]
      intro i hi
      rcases List.mem_cons.1 hi with rfl | hi
      · obtain ⟨o, ho⟩ := contains_iff.1 hr
        obtain ⟨s, hs, -⟩ := object?_eq_some_iff.1 ho
        exact ⟨s.generation + 1, by simp [Array.getElem?_modify, hs]⟩
      · obtain ⟨g, hg⟩ := hh.empty i hi
        have hne : r.slot ≠ i := fun e => hh.slot_not_free hr (e ▸ hi)
        exact ⟨g, by simp [Array.getElem?_modify, hne, hg]⟩
    · rw [object?_release] at ht
      split at ht
      · cases ht
      · exact hh.unique s t ht
  · simpa [Heap.release, hr] using hh

theorem WellFormed.releaseAll {h : Heap χ} (hh : h.WellFormed) (refs : List Ref) : (h.releaseAll refs).WellFormed := by
  unfold Heap.releaseAll
  induction refs generalizing h with
  | nil => exact hh
  | cons r rest ih => exact ih (hh.release r)

theorem WellFormed.flagAll {h : Heap χ} (hh : h.WellFormed) (refs : List Ref) : (h.flagAll refs).WellFormed := by
  unfold Heap.flagAll
  induction refs generalizing h with
  | nil => exact hh
  | cons r rest ih =>
    rw [List.foldl_cons]
    refine ih ?_
    cases hc : h.changeUserdata r (fun u => { u with finalized := true }) with
    | error e => exact hh
    | ok h' =>
      obtain ⟨u, hu, rfl⟩ := changeUserdata_eq_ok_iff.1 hc
      exact hh.put (contains_of_object? hu) fun _ e => nomatch e

theorem WellFormed.clearWeak {h : Heap χ} (hh : h.WellFormed) (marks : Marks) : (h.clearWeak marks).WellFormed := by
  refine ⟨hh.nodup, fun i hi => ?_, fun r t ht => ?_⟩
  · obtain ⟨g, hg⟩ := hh.empty i hi
    exact ⟨g, by simp [Heap.clearWeak, hg]⟩
  · rw [object?_clearWeak] at ht
    split at ht
    · obtain ⟨o, ho, hot⟩ := Option.map_eq_some_iff.1 ht
      cases o with
      | table t₀ =>
        cases hot
        simp only [Heap.clearTable]
        split
        · exact (hh.unique r t₀ ho).filter _
        · exact hh.unique r t₀ ho
      | userdata u => cases hot
      | function f => cases hot
    · exact hh.unique r t ht

theorem WellFormed.step {h h' : Heap χ} (hh : h.WellFormed) (hs : h.Step h') : h'.WellFormed := by
  cases hs with
  | allocate o ho =>
    refine hh.allocate fun t e => ?_
    subst e
    rw [ho]
    exact Table.unique_empty
  | store k v ht => exact hh.put (contains_of_object? ht) fun _ e => Object.table.inj e ▸ (hh.unique _ _ ht).set k v
  | erase k ht => exact hh.put (contains_of_object? ht) fun _ e => Object.table.inj e ▸ (hh.unique _ _ ht).erase k
  | @tableClass r t mt ht =>
    have hu : Table.Unique { t with metatable := mt } := hh.unique r t ht
    exact hh.put (contains_of_object? ht) fun _ e => Object.table.inj e ▸ hu
  | userdata hu _ => exact hh.put (contains_of_object? hu) fun _ e => nomatch e

/-! ## Heaps that grow -/

end Heap

/-- What an object may turn into without being freed: a function into nothing else, a userdata into one with the same flag. -/
def Object.Becomes : Object χ → Object χ → Prop
  | .table _, o => ∃ t, o = .table t
  | .userdata u, o => ∃ u', o = .userdata u' ∧ u'.finalized = u.finalized
  | .function f, o => o = .function f

theorem Object.Becomes.refl (o : Object χ) : o.Becomes o := by
  cases o with
  | table t => exact ⟨t, rfl⟩
  | userdata u => exact ⟨u, rfl, rfl⟩
  | function f => rfl

theorem Object.Becomes.trans {o p q : Object χ} (h : o.Becomes p) (h' : p.Becomes q) : o.Becomes q := by
  cases o with
  | table t =>
    obtain ⟨t', rfl⟩ := h
    exact h'
  | userdata u =>
    obtain ⟨u', rfl, hu⟩ := h
    obtain ⟨u'', rfl, hu'⟩ := h'
    exact ⟨u'', rfl, hu'.trans hu⟩
  | function f =>
    cases h
    exact h'

namespace Heap

/-- What was on the heap is still there, at the same references. -/
def Grown (h h' : Heap χ) : Prop := ∀ r o, h.object? r = some o → ∃ o', h'.object? r = some o' ∧ o.Becomes o'

theorem Grown.refl (h : Heap χ) : h.Grown h := fun _ o ho => ⟨o, ho, .refl o⟩

theorem Grown.trans {h h' h'' : Heap χ} (hg : h.Grown h') (hg' : h'.Grown h'') : h.Grown h'' := by
  intro r o ho
  obtain ⟨o', ho', hb⟩ := hg r o ho
  obtain ⟨o'', ho'', hb'⟩ := hg' r o' ho'
  exact ⟨o'', ho'', hb.trans hb'⟩

theorem Grown.function {h h' : Heap χ} (hg : h.Grown h') {r : Ref} {f : NativeFunction χ}
    (hf : h.function r = .ok f) : h'.function r = .ok f := by
  obtain ⟨o, ho, hb⟩ := hg r _ (function_eq_ok_iff.1 hf)
  exact function_eq_ok_iff.2 (ho.trans (congrArg some hb))

/-- Overwriting an object with what it may turn into. -/
theorem grown_put {h : Heap χ} {r : Ref} {o p : Object χ} (ho : h.object? r = some o) (hb : o.Becomes p) :
    h.Grown (h.put r.slot p) := by
  intro s q hq
  rw [object?_put (contains_of_object? ho)]
  by_cases hs : s = r
  · subst hs
    rw [ho] at hq
    cases hq
    exact ⟨p, by simp, hb⟩
  · exact ⟨q, by simp [hs, hq], .refl q⟩

theorem WellFormed.grown_step {h h' : Heap χ} (hh : h.WellFormed) (hs : h.Step h') : h.Grown h' := by
  cases hs with
  | allocate o _ =>
    intro r p hp
    have hne : r ≠ (h.allocate o).1 := fun e => hh.not_contains_allocate o (e ▸ contains_of_object? hp)
    exact ⟨p, by rw [hh.object?_allocate, if_neg hne, hp], .refl p⟩
  | store k v ht => exact grown_put ht ⟨_, rfl⟩
  | erase k ht => exact grown_put ht ⟨_, rfl⟩
  | tableClass mt ht => exact grown_put ht ⟨_, rfl⟩
  | userdata hu hf => exact grown_put hu ⟨_, rfl, hf⟩

end Heap

/-! ## On the machine -/

namespace Machine

theorem wellFormed_start (limits : Limits) (host : σ) : (start limits host : Machine χ σ).heap.WellFormed :=
  have hnew : ∀ t, (Object.table .empty : Object χ) = .table t → t.Unique := fun _ e =>
    Object.table.inj e ▸ Table.unique_empty
  (Heap.wellFormed_empty.allocate hnew).allocate hnew

/-- On a new machine there are two tables, both empty. -/
theorem eq_empty_of_start {limits : Limits} {host : σ} {r : Ref} {o : Object χ}
    (ho : (start limits host : Machine χ σ).heap.object? r = some o) : o = .table .empty := by
  obtain ⟨s, hs, -, hso⟩ := Heap.object?_eq_some_iff.1 ho
  have hslots : (start limits host : Machine χ σ).heap.slots =
      #[⟨0, some (.table .empty)⟩, ⟨0, some (.table .empty)⟩] := rfl
  rw [hslots] at hs
  have hmem := Array.mem_of_getElem? hs
  simp only [List.mem_toArray, List.mem_cons, List.not_mem_nil, or_false, or_self] at hmem
  rw [hmem] at hso
  exact (Option.some.inj hso).symm

theorem Step.wellFormed {m m' : Machine χ σ} (hm : m.heap.WellFormed) (hs : m.Step m') : m'.heap.WellFormed := by
  cases hs with
  | heap hh => exact hm.step hh
  | _ => exact hm

theorem Step.grown {m m' : Machine χ σ} (hm : m.heap.WellFormed) (hs : m.Step m') : m.heap.Grown m'.heap := by
  cases hs with
  | heap hh => exact hm.grown_step hh
  | _ => exact .refl _

theorem wellFormed_swept {m : Machine χ σ} (hm : m.heap.WellFormed) : m.swept.heap.WellFormed := by
  rw [swept_eq]
  exact ((hm.flagAll _).clearWeak _).releaseAll _

end Machine

/-- Everything keeps a heap well-formed. -/
theorem stable_wellFormed {P : Machine χ σ → Request χ σ → Prop} : Stable (fun m => m.heap.WellFormed) P :=
  .of_steps (fun _ _ hm hs => hs.wellFormed hm) (fun _ hm _ => Machine.wellFormed_swept hm) (fun _ _ _ _ _ hm => hm)
    (fun _ _ _ _ _ hm => hm)

theorem call_wellFormed (Γ : Host χ σ) (f : Value) (args : List Value) {m : Machine χ σ} (hm : m.heap.WellFormed) :
    (call Γ f args m).2.heap.WellFormed :=
  (call_keeps_all Γ stable_wellFormed (fun _ _ _ hm => hm) (fun _ _ hm => hm) f args m trivial hm).2

end ScriptHost

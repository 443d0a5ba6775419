import ScriptHost.Proofs.WellFormed

/-!
# References given and references to come

A reference was given to an object if its slot is of a later generation by now, or of its own and not free (`Heap.Given`). Which
references the next new objects get is settled in advance, by the free slots and the number of slots (`Heap.due`). Primitive steps
take them in this order: after so many new objects the references given are those of before and the first so many that were due, and
the others are still due (`Heap.Gives`).
-/

namespace ScriptHost

variable {χ σ α : Type}

namespace Heap

/-- The reference was given to an object, which it still finds or which is gone. -/
def Given (h : Heap χ) (r : Ref) : Prop :=
  ∃ s, h.slots[r.slot]? = some s ∧
    (r.generation.toNat < s.generation.toNat ∨ r.generation = s.generation ∧ s.object.isSome = true)

instance (h : Heap χ) (r : Ref) : Decidable (h.Given r) :=
  decidable_of_iff (∃ s ∈ h.slots[r.slot]?, r.generation.toNat < s.generation.toNat ∨
    r.generation = s.generation ∧ s.object.isSome = true) Iff.rfl

/-- The reference of the new object that comes after so many others. -/
def due (h : Heap χ) (k : Nat) : Ref :=
  match h.free[k]? with
  | some i => ⟨i, (h.slots[i]?.map Slot.generation).getD 0⟩
  | none => ⟨h.slots.size + (k - h.free.length), 0⟩

/-- From the first heap to the second so many new objects were made, and none was freed. -/
structure Gives (c : Nat) (h h' : Heap χ) : Prop where
  live : h'.live = h.live + c
  due : ∀ k, h'.due k = h.due (c + k)
  given : ∀ r, h'.Given r ↔ h.Given r ∨ ∃ k < c, r = h.due k

variable {h h' h'' : Heap χ} {r s : Ref} {c c' : Nat}

theorem given_of_contains (hr : h.contains r = true) : h.Given r := by
  obtain ⟨o, ho⟩ := contains_iff.1 hr
  obtain ⟨s, hs, hg, hso⟩ := object?_eq_some_iff.1 ho
  exact ⟨s, hs, Or.inr ⟨hg.symm, by rw [hso]; rfl⟩⟩

theorem object?_of_not_given (hr : ¬h.Given r) : h.object? r = none :=
  Option.eq_none_iff_forall_ne_some.2 fun _ ho => hr (given_of_contains (contains_of_object? ho))

/-! ## What is due was not given -/

theorem WellFormed.not_given_due (hw : h.WellFormed) (k : Nat) : ¬h.Given (h.due k) := by
  rintro ⟨s, hs, hgen⟩
  unfold due at hs hgen
  cases hk : h.free[k]? with
  | some i =>
    obtain ⟨g, hg⟩ := hw.empty i (List.mem_of_getElem? hk)
    simp only [hk, hg, Option.map_some, Option.getD_some] at hs hgen
    cases hs
    rcases hgen with hlt | ⟨-, hsome⟩
    · exact Nat.lt_irrefl _ hlt
    · cases hsome
  | none =>
    simp only [hk] at hs
    rw [Array.getElem?_eq_none (Nat.le_add_right _ _)] at hs
    cases hs

theorem WellFormed.due_injective (hw : h.WellFormed) : Function.Injective h.due := by
  have hslot : ∀ (k i : Nat), h.free[k]? = some i → i < h.slots.size := by
    intro k i hk
    obtain ⟨g, hg⟩ := hw.empty i (List.mem_of_getElem? hk)
    exact (Array.getElem?_eq_some_iff.1 hg).1
  intro j k hjk
  have hsame := congrArg Ref.slot hjk
  unfold due at hsame
  cases hj : h.free[j]? with
  | some i =>
    cases hk : h.free[k]? with
    | some i' =>
      simp only [hj, hk] at hsame
      exact (List.getElem?_inj (List.getElem?_eq_some_iff.1 hj).1 hw.nodup).1 (hj.trans (hsame ▸ hk.symm))
    | none =>
      have hlt := hslot j i hj
      simp only [hj, hk] at hsame
      omega
  | none =>
    have hjle := List.getElem?_eq_none_iff.1 hj
    cases hk : h.free[k]? with
    | some i =>
      have hlt := hslot k i hk
      simp only [hj, hk] at hsame
      omega
    | none =>
      have hkle := List.getElem?_eq_none_iff.1 hk
      simp only [hj, hk] at hsame
      omega

/-! ## New objects -/

theorem allocate_fst (h : Heap χ) (o : Object χ) : (h.allocate o).1 = h.due 0 := by
  unfold allocate due
  cases hf : h.free <;> simp

theorem live_allocate (h : Heap χ) (o : Object χ) : (h.allocate o).2.live = h.live + 1 := by
  unfold allocate
  split <;> rfl

/-- Overwriting an object leaves the generations of the slots. -/
theorem generation_put (h : Heap χ) (i j : Nat) (o : Object χ) :
    ((h.put i o).slots[j]?).map Slot.generation = (h.slots[j]?).map Slot.generation := by
  simp only [put, Array.getElem?_modify]
  split
  · cases h.slots[j]? <;> rfl
  · rfl

theorem due_put (h : Heap χ) (i : Nat) (o : Object χ) (k : Nat) : (h.put i o).due k = h.due k := by
  have hsize : (h.put i o).slots.size = h.slots.size := capacity_put h i o
  unfold due
  rw [show (h.put i o).free = h.free from rfl, hsize]
  simp only [generation_put]

theorem due_allocate (h : Heap χ) (o : Object χ) (k : Nat) : (h.allocate o).2.due k = h.due (k + 1) := by
  unfold allocate
  cases hf : h.free with
  | nil => simp [due, hf, Nat.add_assoc, Nat.add_comm]
  | cons i rest =>
    have hput := h.due_put i o (k + 1)
    have hsize : (h.put i o).slots.size = h.slots.size := capacity_put h i o
    rw [← hput]
    unfold due
    rw [show (h.put i o).free = i :: rest from hf]
    simp

theorem WellFormed.given_allocate_iff (hw : h.WellFormed) (o : Object χ) :
    (h.allocate o).2.Given r ↔ h.Given r ∨ r = h.due 0 := by
  rw [← h.allocate_fst o]
  unfold Heap.allocate
  cases hf : h.free with
  | nil =>
    unfold Given
    simp only [Array.getElem?_push]
    by_cases hr : r.slot = h.slots.size
    · rw [if_pos hr, Array.getElem?_eq_none (Nat.le_of_eq hr.symm)]
      constructor
      · rintro ⟨s, hs, hgen⟩
        cases hs
        refine Or.inr ?_
        rcases hgen with hlt | ⟨hg, -⟩
        · exact absurd hlt (Nat.not_lt_zero _)
        · cases r
          exact congrArg₂ Ref.mk hr hg
      · rintro (⟨s, hs, -⟩ | rfl)
        · cases hs
        · exact ⟨_, rfl, Or.inr ⟨rfl, rfl⟩⟩
    · rw [if_neg hr]
      exact (or_iff_left fun e => hr (congrArg Ref.slot e)).symm
  | cons i rest =>
    obtain ⟨g, hg⟩ := hw.empty i (by simp [hf])
    unfold Given
    simp only [Heap.put, Array.getElem?_modify, hg, Option.map_some, Option.getD_some]
    by_cases hr : i = r.slot
    · subst hr
      rw [if_pos rfl, hg]
      constructor
      · rintro ⟨s, hs, hgen⟩
        cases hs
        rcases hgen with hlt | ⟨hg', -⟩
        · exact Or.inl ⟨_, rfl, Or.inl hlt⟩
        · refine Or.inr ?_
          cases r
          exact congrArg (Ref.mk _) hg'
      · rintro (⟨s, hs, hgen⟩ | hr)
        · cases hs
          rcases hgen with hlt | ⟨-, hsome⟩
          · exact ⟨_, rfl, Or.inl hlt⟩
          · cases hsome
        · exact ⟨_, rfl, Or.inr ⟨congrArg Ref.generation hr, rfl⟩⟩
    · rw [if_neg hr]
      exact (or_iff_left fun e => hr (congrArg Ref.slot e).symm).symm

theorem given_put_iff {o : Object χ} (hs : h.contains s = true) : (h.put s.slot o).Given r ↔ h.Given r := by
  obtain ⟨p, hp⟩ := contains_iff.1 hs
  obtain ⟨x, hx, -, hxo⟩ := object?_eq_some_iff.1 hp
  unfold Given
  simp only [put, Array.getElem?_modify]
  by_cases hr : s.slot = r.slot
  · rw [if_pos hr, ← hr, hx]
    simp [hxo]
  · rw [if_neg hr]

/-! ## So many new objects -/

theorem Gives.refl (h : Heap χ) : h.Gives 0 h :=
  ⟨rfl, fun k => by rw [Nat.zero_add], fun r => by simp⟩

theorem Gives.trans (hg : Gives c h h') (hg' : Gives c' h' h'') : Gives (c + c') h h'' := by
  refine ⟨?_, fun k => ?_, fun r => ?_⟩
  · rw [hg'.live, hg.live, Nat.add_assoc]
  · rw [hg'.due, hg.due, Nat.add_assoc]
  · rw [hg'.given, hg.given, or_assoc]
    refine or_congr_right ⟨?_, ?_⟩
    · rintro (⟨k, hk, rfl⟩ | ⟨k, hk, rfl⟩)
      · exact ⟨k, Nat.lt_add_right _ hk, rfl⟩
      · exact ⟨c + k, Nat.add_lt_add_left hk c, hg.due k⟩
    · rintro ⟨k, hk, rfl⟩
      by_cases hkc : k < c
      · exact Or.inl ⟨k, hkc, rfl⟩
      · refine Or.inr ⟨k - c, by omega, ?_⟩
        rw [hg.due]
        congr 1
        omega

theorem Gives.mono (hg : Gives c h h') (hr : h.Given r) : h'.Given r := (hg.given r).2 (Or.inl hr)

theorem WellFormed.gives_allocate (hw : h.WellFormed) (o : Object χ) : h.Gives 1 (h.allocate o).2 := by
  refine ⟨live_allocate h o, fun k => ?_, fun r => ?_⟩
  · rw [due_allocate, Nat.add_comm]
  · rw [hw.given_allocate_iff]
    refine or_congr_right ⟨fun hr => ⟨0, Nat.one_pos, hr⟩, ?_⟩
    rintro ⟨k, hk, rfl⟩
    rw [Nat.lt_one_iff.1 hk]

theorem gives_put {o : Object χ} (hr : h.contains r = true) : h.Gives 0 (h.put r.slot o) :=
  ⟨rfl, fun k => by rw [due_put, Nat.zero_add], fun s => by simp [given_put_iff hr]⟩

theorem WellFormed.gives_step (hw : h.WellFormed) (hs : h.Step h') : ∃ c, h.Gives c h' := by
  cases hs with
  | allocate o _ => exact ⟨1, hw.gives_allocate o⟩
  | store k v ht => exact ⟨0, gives_put (contains_of_object? ht)⟩
  | erase k ht => exact ⟨0, gives_put (contains_of_object? ht)⟩
  | tableClass mt ht => exact ⟨0, gives_put (contains_of_object? ht)⟩
  | userdata hu _ => exact ⟨0, gives_put (contains_of_object? hu)⟩

end Heap

/-- Primitive steps make so many objects. -/
theorem Machine.Steps.exists_gives {m m' : Machine χ σ} (hs : m.Steps m') (hw : m.heap.WellFormed) :
    m'.heap.WellFormed ∧ ∃ c, m.heap.Gives c m'.heap := by
  refine hs.keep (I := fun x => x.heap.WellFormed ∧ ∃ c, m.heap.Gives c x.heap) (fun x y hx hstep => ?_) ⟨hw, 0, .refl _⟩
  obtain ⟨hwx, c, hc⟩ := hx
  refine ⟨hstep.wellFormed hwx, ?_⟩
  cases hstep with
  | heap hh =>
    obtain ⟨c', hc'⟩ := hwx.gives_step hh
    exact ⟨c + c', hc.trans hc'⟩
  | _ => exact ⟨c, hc⟩

end ScriptHost

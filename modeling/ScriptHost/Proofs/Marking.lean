import Mathlib.Logic.Relation
import ScriptHost.Proofs.Reachability

/-!
# Marking is exact

After marking from some references, a live object is marked exactly when it was marked before or the references keep it alive
(`markFrom_iff`). The invariant is that of every worklist: what is marked and not waiting any more has all that it holds on to
marked (`Covered`). Each round that goes on marks a slot that was not marked, so the bound on the rounds is never what ends
them (`markRounds_eq`). The same holds of a worklist from which the references are taken one by one, in whatever order
(`Visit`): it runs empty (`acc_visit`), and with the same marks.
-/

namespace ScriptHost

variable {χ : Type}

/-! ## Marks -/

namespace Marks

/-- How many slots have no mark. -/
def unmarked (s : Marks) : Nat := s.marked.count false

theorem has_none (slots i : Nat) : (none slots).has i = false := by
  by_cases hi : i < slots
  · simp [has, none, hi]
  · simp [has, none, hi]

@[simp] theorem size_mark (s : Marks) (i : Nat) : (s.mark i).marked.size = s.marked.size := by simp [mark]

theorem has_mark_iff {s : Marks} {i j : Nat} (hi : i < s.marked.size) :
    (s.mark i).has j = true ↔ j = i ∨ s.has j = true := by
  by_cases hj : i = j
  · subst hj
    simp [has, mark, hi]
  · simp [has, mark, hj, Ne.symm hj]

/-- Marking a slot without a mark leaves one slot fewer without a mark. -/
theorem unmarked_mark {s : Marks} {i : Nat} (hi : i < s.marked.size) (hs : s.has i = false) :
    (s.mark i).unmarked + 1 = s.unmarked := by
  have hget : s.marked[i] = false := by simpa [has, hi] using hs
  have hpos : 0 < s.marked.count false := Array.count_pos_iff.2 (hget ▸ Array.getElem_mem hi)
  simp only [unmarked, mark, Array.setIfInBounds, hi, ↓reduceDIte, Array.count_set, hget, beq_self_eq_true, ↓reduceIte]
  simp only [Bool.true_beq, Bool.false_eq_true, ↓reduceIte, Nat.add_zero]
  omega

end Marks

namespace Heap

variable {h : Heap χ}

/-! ## One round -/

theorem size_markAll (refs : List Ref) (marks : Marks) :
    (h.markAll refs marks).2.marked.size = marks.marked.size := by
  induction refs generalizing marks with
  | nil => rfl
  | cons r rest ih =>
    rw [markAll]
    split
    · rw [ih, Marks.size_mark]
    · exact ih marks

/-- The fresh references are among those given, find an object, and were not marked. -/
theorem of_mem_markAll {refs : List Ref} {marks : Marks} (hsize : marks.marked.size = h.capacity) {r : Ref}
    (hr : r ∈ (h.markAll refs marks).1) : r ∈ refs ∧ h.contains r = true ∧ marks.has r.slot = false := by
  induction refs generalizing marks with
  | nil => simp [markAll] at hr
  | cons s rest ih =>
    rw [markAll] at hr
    split at hr
    · rename_i hs
      simp only [Bool.and_eq_true, Bool.not_eq_true'] at hs
      rcases List.mem_cons.1 hr with rfl | hr
      · exact ⟨List.mem_cons_self, hs⟩
      · obtain ⟨hm, hc, hn⟩ := ih (by simpa using hsize) hr
        refine ⟨List.mem_cons_of_mem _ hm, hc, ?_⟩
        rw [← Bool.not_eq_true] at hn ⊢
        exact fun hh => hn ((Marks.has_mark_iff (hsize ▸ slot_lt_of_contains hs.1)).2 (Or.inr hh))
    · obtain ⟨hm, hc, hn⟩ := ih hsize hr
      exact ⟨List.mem_cons_of_mem _ hm, hc, hn⟩

/-- A live reference is marked after a round when it was before or it is fresh. -/
theorem has_markAll_iff {refs : List Ref} {marks : Marks} (hsize : marks.marked.size = h.capacity) {r : Ref}
    (hr : h.contains r = true) :
    (h.markAll refs marks).2.has r.slot = true ↔ marks.has r.slot = true ∨ r ∈ (h.markAll refs marks).1 := by
  induction refs generalizing marks with
  | nil => simp [markAll]
  | cons s rest ih =>
    rw [markAll]
    split
    · rename_i hs
      simp only [Bool.and_eq_true, Bool.not_eq_true'] at hs
      rw [ih (by simpa using hsize), Marks.has_mark_iff (hsize ▸ slot_lt_of_contains hs.1), List.mem_cons]
      have hslot : r.slot = s.slot ↔ r = s := ⟨eq_of_slot_eq hr hs.1, congrArg Ref.slot⟩
      rw [hslot, or_assoc, or_left_comm]
    · exact ih hsize

/-- Every live reference given to a round is marked after it. -/
theorem has_markAll_of_mem {refs : List Ref} {marks : Marks} (hsize : marks.marked.size = h.capacity) {r : Ref}
    (hr : r ∈ refs) (hc : h.contains r = true) : (h.markAll refs marks).2.has r.slot = true := by
  induction refs generalizing marks with
  | nil => cases hr
  | cons s rest ih =>
    by_cases hs : r = s
    · subst hs
      rw [has_markAll_iff hsize hc, markAll]
      split
      · exact Or.inr List.mem_cons_self
      · rename_i hn
        exact Or.inl (by simpa [hc] using hn)
    · have hrest : r ∈ rest := (List.mem_cons.1 hr).resolve_left hs
      rw [markAll]
      split
      · exact ih (by simpa using hsize) hrest
      · exact ih hsize hrest

/-- Each fresh reference takes one slot off those without a mark. -/
theorem unmarked_markAll (refs : List Ref) (marks : Marks) (hsize : marks.marked.size = h.capacity) :
    (h.markAll refs marks).2.unmarked + (h.markAll refs marks).1.length = marks.unmarked := by
  induction refs generalizing marks with
  | nil => rfl
  | cons s rest ih =>
    rw [markAll]
    split
    · rename_i hs
      simp only [Bool.and_eq_true, Bool.not_eq_true'] at hs
      have h1 := ih (marks.mark s.slot) (by simpa using hsize)
      have h2 := Marks.unmarked_mark (hsize ▸ slot_lt_of_contains hs.1) hs.2
      simp only [List.length_cons]
      omega
    · exact ih marks hsize

/-! ## All rounds -/

/-- What is marked has everything it holds on to marked, unless that is among the references still to come. -/
def Covered (h : Heap χ) (refs : List Ref) (marks : Marks) : Prop :=
  ∀ r s, h.contains r = true → marks.has r.slot = true → h.Holds r s → h.contains s = true →
    marks.has s.slot = true ∨ s ∈ refs

/-- A round keeps it: what it marks has its own edges among the references of the next round. -/
theorem Covered.markAll {refs : List Ref} {marks : Marks} (hcov : h.Covered refs marks)
    (hsize : marks.marked.size = h.capacity) :
    h.Covered ((h.markAll refs marks).1.flatMap h.strong) (h.markAll refs marks).2 := by
  intro r s hr hm he hs
  rcases (has_markAll_iff hsize hr).1 hm with hm | hm
  · rcases hcov r s hr hm he hs with h' | h'
    · exact Or.inl ((has_markAll_iff hsize hs).2 (Or.inl h'))
    · exact Or.inl (has_markAll_of_mem hsize h' hs)
  · exact Or.inr (List.mem_flatMap.2 ⟨r, hm, mem_strong_iff.2 he⟩)

theorem size_markRounds (n : Nat) (refs : List Ref) (marks : Marks) :
    (h.markRounds n refs marks).marked.size = marks.marked.size := by
  induction n generalizing refs marks with
  | zero => rfl
  | succ n ih =>
    rw [markRounds]
    split
    · rename_i heq
      rw [← size_markAll refs marks, heq]
    · rename_i heq
      rw [ih, ← size_markAll refs marks, heq]

/-- With more rounds than slots without a mark, what is marked in the end is covered by itself, and is what was marked before or
what the references keep alive. -/
theorem markRounds_spec (n : Nat) (refs : List Ref) (marks : Marks) (hsize : marks.marked.size = h.capacity)
    (hn : marks.unmarked < n) (hcov : h.Covered refs marks) :
    h.Covered [] (h.markRounds n refs marks) ∧
      (∀ r, h.contains r = true → marks.has r.slot = true → (h.markRounds n refs marks).has r.slot = true) ∧
      (∀ r ∈ refs, h.contains r = true → (h.markRounds n refs marks).has r.slot = true) ∧
      (∀ r, h.contains r = true → (h.markRounds n refs marks).has r.slot = true →
        marks.has r.slot = true ∨ h.Kept (· ∈ refs) r) := by
  induction n generalizing refs marks with
  | zero => omega
  | succ n ih =>
    have hsize' : (h.markAll refs marks).2.marked.size = h.capacity := (size_markAll refs marks).trans hsize
    have hcov' := hcov.markAll hsize
    have hcount := unmarked_markAll refs marks hsize
    rw [markRounds]
    split
    · rename_i out heq
      rw [heq] at hcov'
      have hiff : ∀ r, h.contains r = true → (out.has r.slot = true ↔ marks.has r.slot = true) := by
        intro r hr
        have hall : (h.markAll refs marks).2.has r.slot = true ↔ _ := has_markAll_iff hsize hr
        rw [heq] at hall
        simpa using hall
      refine ⟨hcov', fun r hr hm => (hiff r hr).2 hm, ?_, fun r hr hm => Or.inl ((hiff r hr).1 hm)⟩
      intro r hr hc
      have := has_markAll_of_mem hsize hr hc
      rwa [heq] at this
    · rename_i fresh out hfresh heq
      rw [heq] at hsize' hcov' hcount
      have hpos : 0 < fresh.length := List.length_pos_iff.2 hfresh
      simp only at hsize' hcov' hcount
      obtain ⟨h1, h2, h3, h4⟩ := ih (fresh.flatMap h.strong) out hsize' (by omega) hcov'
      have hiff : ∀ r, h.contains r = true → (out.has r.slot = true ↔ marks.has r.slot = true ∨ r ∈ fresh) := by
        intro r hr
        have hall : (h.markAll refs marks).2.has r.slot = true ↔ _ := has_markAll_iff hsize hr
        rwa [heq] at hall
      have hfresh' : ∀ r ∈ fresh, r ∈ refs ∧ h.contains r = true := by
        intro r hr
        have hall : r ∈ (h.markAll refs marks).1 := by rwa [heq]
        have hmarked := of_mem_markAll hsize hall
        exact ⟨hmarked.1, hmarked.2.1⟩
      refine ⟨h1, fun r hr hm => h2 r hr ((hiff r hr).2 (Or.inl hm)), ?_, ?_⟩
      · intro r hr hc
        have := has_markAll_of_mem hsize hr hc
        rw [heq] at this
        exact h2 r hc this
      · intro r hr hm
        rcases h4 r hr hm with hm | hk
        · rcases (hiff r hr).1 hm with hm | hm
          · exact Or.inl hm
          · exact Or.inr (.root (hfresh' r hm).1 hr)
        · refine Or.inr (hk.least ?_ (fun _ _ hs he hc => hs.held he hc))
          intro s hs hc
          obtain ⟨r', hr', he⟩ := List.mem_flatMap.1 hs
          exact .held (.root (hfresh' r' hr').1 (hfresh' r' hr').2) (mem_strong_iff.1 he) hc

theorem size_markFrom (refs : List Ref) (marks : Marks) : (h.markFrom refs marks).marked.size = marks.marked.size :=
  size_markRounds _ refs marks

theorem unmarked_lt {marks : Marks} (hsize : marks.marked.size = h.capacity) : marks.unmarked < h.capacity + 1 := by
  have hcount : marks.unmarked ≤ marks.marked.size := Array.count_le_size
  omega

/-- Marks that are exactly what a set keeps are covered by themselves. -/
theorem covered_of_kept {S : Ref → Prop} {marks : Marks}
    (hmarks : ∀ r, h.contains r = true → (marks.has r.slot = true ↔ h.Kept S r)) (refs : List Ref) :
    h.Covered refs marks := by
  intro r s hr hm he hs
  exact Or.inl ((hmarks s hs).2 (((hmarks r hr).1 hm).held he hs))

/-- Marks that are covered by themselves have everything that marked references keep. -/
theorem Covered.has_of_kept {S : Ref → Prop} {marks : Marks} (hcov : h.Covered [] marks)
    (hS : ∀ r, S r → h.contains r = true → marks.has r.slot = true) {r : Ref} (hr : h.Kept S r) :
    marks.has r.slot = true := by
  have key : h.contains r = true ∧ marks.has r.slot = true := by
    refine hr.least (S := fun s => h.contains s = true ∧ marks.has s.slot = true)
      (fun s hs hc => ⟨hc, hS s hs hc⟩) ?_
    rintro s t ⟨hs, hm⟩ he ht
    exact ⟨ht, (hcov s t hs hm he ht).resolve_right List.not_mem_nil⟩
  exact key.2

/-- Marking is exact: when the marks are what a set keeps, marking from some references adds what these keep, and nothing else. -/
theorem markFrom_iff {S : Ref → Prop} {marks : Marks} (hsize : marks.marked.size = h.capacity)
    (hmarks : ∀ r, h.contains r = true → (marks.has r.slot = true ↔ h.Kept S r)) (refs : List Ref) {r : Ref}
    (hr : h.contains r = true) :
    (h.markFrom refs marks).has r.slot = true ↔ h.Kept (fun s => h.Kept S s ∨ s ∈ refs) r := by
  obtain ⟨hcov, hold, hrefs, hsound⟩ :=
    markRounds_spec (h.capacity + 1) refs marks hsize (unmarked_lt hsize) (covered_of_kept hmarks refs)
  constructor
  · intro hm
    rcases hsound r hr hm with hm | hk
    · exact .root (Or.inl ((hmarks r hr).1 hm)) hr
    · exact hk.mono (fun _ hs => Or.inr hs)
  · refine hcov.has_of_kept ?_
    rintro s (hs | hs) hc
    · exact hold s hc ((hmarks s hc).2 hs)
    · exact hrefs s hs hc

/-- Nothing keeps nothing. -/
theorem not_kept_false (r : Ref) : ¬h.Kept (fun _ => False) r :=
  fun hr => hr.least (fun _ hf _ => hf) (fun _ _ hf _ _ => hf)

theorem has_none_iff (r : Ref) : (Marks.none h.capacity).has r.slot = true ↔ h.Kept (fun _ => False) r := by
  simp [Marks.has_none, not_kept_false]

/-- Marking without earlier marks: what is marked is what the references keep. -/
theorem markFrom_none_iff (refs : List Ref) {r : Ref} (hr : h.contains r = true) :
    (h.markFrom refs (.none h.capacity)).has r.slot = true ↔ h.Kept (· ∈ refs) r := by
  rw [markFrom_iff (by simp [Marks.none]) (fun s _ => has_none_iff s) refs hr]
  simp only [not_kept_false, false_or]

/-- The bound on the rounds does not end them: any larger number of rounds comes to the same marks. -/
theorem markRounds_eq {n k : Nat} {refs : List Ref} {marks : Marks} (hsize : marks.marked.size = h.capacity)
    (hn : marks.unmarked < n) (hk : marks.unmarked < k) : h.markRounds n refs marks = h.markRounds k refs marks := by
  induction n generalizing k refs marks with
  | zero => omega
  | succ n ih =>
    obtain ⟨k, rfl⟩ : ∃ j, k = j + 1 := ⟨k - 1, by omega⟩
    have hsize' := size_markAll (h := h) refs marks
    have hcount := unmarked_markAll refs marks hsize
    rw [markRounds, markRounds]
    split
    · rfl
    · rename_i fresh out hfresh heq
      rw [heq] at hsize' hcount
      have hpos : 0 < fresh.length := List.length_pos_iff.2 hfresh
      simp only at hcount hsize'
      exact ih (hsize'.trans hsize) (by omega) (by omega)

/-! ## Worklists -/

/-- One step of a worklist: some reference of it is taken out, and what it holds on to, listed in any order, is marked and put
in, unless it was marked before. -/
inductive Visit (h : Heap χ) : List Ref × Marks → List Ref × Marks → Prop where
  | mk (before after children : List Ref) (r : Ref) (marks : Marks) (hchildren : ∀ s, s ∈ children ↔ h.Holds r s) :
      Visit h (before ++ r :: after, marks)
        (before ++ after ++ (h.markAll children marks).1, (h.markAll children marks).2)

/-- A worklist runs empty, whichever reference is taken out next and whatever the order of what it holds: a step takes a
reference out, and each one it puts in takes a slot off those without a mark. -/
theorem acc_visit (w : List Ref × Marks) (hw : w.2.marked.size = h.capacity) :
    Acc (fun y x => h.Visit x y) w := by
  obtain ⟨n, hn⟩ : ∃ n, 2 * w.2.unmarked + w.1.length = n := ⟨_, rfl⟩
  induction n using Nat.strongRecOn generalizing w with
  | ind n ih =>
    refine Acc.intro w fun y hy => ?_
    cases hy with
    | mk before after children r marks hchildren =>
      have hcount := unmarked_markAll children marks hw
      refine ih _ ?_ _ ((size_markAll children marks).trans hw) rfl
      simp only [List.length_append, List.length_cons] at hn ⊢
      omega

/-- What a worklist keeps: what is marked has all it holds on to marked, unless it is waiting in the list, and all that is
waiting or marked is kept. -/
structure Worklist (h : Heap χ) (S : Ref → Prop) (w : List Ref × Marks) : Prop where
  size : w.2.marked.size = h.capacity
  start : ∀ r, S r → h.contains r = true → w.2.has r.slot = true
  waiting : ∀ r ∈ w.1, h.Kept S r
  sound : ∀ r, h.contains r = true → w.2.has r.slot = true → h.Kept S r
  done : ∀ r s, h.contains r = true → w.2.has r.slot = true → r ∉ w.1 → h.Holds r s → h.contains s = true →
    w.2.has s.slot = true

theorem Worklist.visit {S : Ref → Prop} {w w' : List Ref × Marks} (hw : h.Worklist S w) (hv : h.Visit w w') :
    h.Worklist S w' := by
  cases hv with
  | mk before after children r marks hchildren =>
    have hsize : marks.marked.size = h.capacity := hw.size
    have hrk : h.Kept S r := hw.waiting r (by simp)
    have hfresh : ∀ s ∈ (h.markAll children marks).1, h.Kept S s := by
      intro s hs
      obtain ⟨hm, hc, -⟩ := of_mem_markAll hsize hs
      exact hrk.held ((hchildren s).1 hm) hc
    refine ⟨(size_markAll children marks).trans hsize, ?_, ?_, ?_, ?_⟩
    · intro s hs hc
      exact (has_markAll_iff hsize hc).2 (Or.inl (hw.start s hs hc))
    · intro s hs
      rcases List.mem_append.1 hs with hs | hs
      · refine hw.waiting s ?_
        simp only [List.mem_append, List.mem_cons] at hs ⊢
        exact hs.imp_right Or.inr
      · exact hfresh s hs
    · intro s hc hm
      rcases (has_markAll_iff hsize hc).1 hm with hm | hm
      · exact hw.sound s hc hm
      · exact hfresh s hm
    · intro s t hs hm hout he ht
      simp only [List.mem_append, not_or] at hout
      by_cases hsr : s = r
      · subst hsr
        exact has_markAll_of_mem hsize ((hchildren t).2 he) ht
      · rcases (has_markAll_iff hsize hs).1 hm with hm | hm
        · refine (has_markAll_iff hsize ht).2 (Or.inl (hw.done s t hs hm ?_ he ht))
          simp only [List.mem_append, List.mem_cons, not_or]
          exact ⟨hout.1.1, hsr, hout.1.2⟩
        · exact absurd hm hout.2

/-- When a worklist has run empty, what is marked is what the start keeps. -/
theorem Worklist.has_iff {S : Ref → Prop} {marks : Marks} (hw : h.Worklist S ([], marks)) {r : Ref}
    (hr : h.contains r = true) : marks.has r.slot = true ↔ h.Kept S r := by
  refine ⟨hw.sound r hr, Covered.has_of_kept ?_ hw.start⟩
  intro s t hs hm he ht
  exact Or.inl (hw.done s t hs hm List.not_mem_nil he ht)

/-- Steps, as many as there are, keep it. -/
theorem Worklist.visits {S : Ref → Prop} {w w' : List Ref × Marks} (hw : h.Worklist S w)
    (hv : Relation.ReflTransGen h.Visit w w') : h.Worklist S w' := by
  induction hv with
  | refl => exact hw
  | tail _ hv ih => exact ih.visit hv

/-- The worklist that some references start, when the marks are what a set keeps: those of them that are live and had no mark. -/
theorem worklist_markAll {S : Ref → Prop} {marks : Marks} (hsize : marks.marked.size = h.capacity)
    (hmarks : ∀ r, h.contains r = true → (marks.has r.slot = true ↔ h.Kept S r)) (refs : List Ref) :
    h.Worklist (fun r => h.Kept S r ∨ r ∈ refs) (h.markAll refs marks) := by
  have hfresh : ∀ r ∈ (h.markAll refs marks).1, h.Kept (fun r => h.Kept S r ∨ r ∈ refs) r := by
    intro r hr
    obtain ⟨hm, hc, -⟩ := of_mem_markAll hsize hr
    exact .root (Or.inr hm) hc
  refine ⟨(size_markAll refs _).trans hsize, ?_, hfresh, ?_, ?_⟩
  · rintro r (hr | hr) hc
    · exact (has_markAll_iff hsize hc).2 (Or.inl ((hmarks r hc).2 hr))
    · exact has_markAll_of_mem hsize hr hc
  · intro r hr hm
    rcases (has_markAll_iff hsize hr).1 hm with hm | hm
    · exact .root (Or.inl ((hmarks r hr).1 hm)) hr
    · exact hfresh r hm
  · intro r s hr hm hout he hs
    rcases (has_markAll_iff hsize hr).1 hm with hm | hm
    · exact (has_markAll_iff hsize hs).2 (Or.inl ((hmarks s hs).2 (((hmarks r hr).1 hm).held he hs)))
    · exact absurd hm hout

end Heap

end ScriptHost

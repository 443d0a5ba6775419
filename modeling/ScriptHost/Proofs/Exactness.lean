import ScriptHost.Proofs.Clearing
import ScriptHost.Proofs.During

/-!
# A collection is exact

What a collection keeps, flags and frees, in terms of the graph of strong edges alone (`collect_exact`), and that its marking
comes to an end. Marking is stated for the worklist too, from which references may be taken in any order: every worklist runs
empty, and when it has, what is marked is what lives on.
-/

namespace ScriptHost

variable {χ σ : Type}

namespace Machine

variable {m : Machine χ σ}

/-- The first worklist, started by the roots: once it is empty, what is marked is what the roots keep. -/
theorem has_first_iff {marks : Marks}
    (hv : Relation.ReflTransGen m.heap.Visit (m.heap.markAll m.roots (.none m.heap.capacity)) ([], marks)) :
    marks.marked.size = m.heap.capacity ∧
      ∀ r, m.heap.contains r = true → (marks.has r.slot = true ↔ m.heap.Kept m.IsRoot r) := by
  have hw := (Heap.worklist_markAll (by simp [Marks.none]) (fun r _ => Heap.has_none_iff r) m.roots).visits hv
  refine ⟨hw.size, fun r hr => ?_⟩
  rw [hw.has_iff hr]
  simp only [Heap.not_kept_false, false_or, mem_roots_iff]

/-- The second worklist, started by the userdata taken up: once it is empty, what is marked is what survives. -/
theorem has_second_iff {marks marks' : Marks} (hsize : marks.marked.size = m.heap.capacity)
    (hmarks : ∀ r, m.heap.contains r = true → (marks.has r.slot = true ↔ m.heap.Kept m.IsRoot r))
    (hv : Relation.ReflTransGen m.flagged.Visit (m.flagged.markAll m.doomed marks) ([], marks')) {r : Ref}
    (hr : m.heap.contains r = true) : marks'.has r.slot = true ↔ m.Survives r := by
  have ha := m.alike_flagged
  have hsize' : marks.marked.size = m.flagged.capacity := by rw [hsize, flagged, Heap.capacity_flagAll]
  have hmarks' : ∀ s, m.flagged.contains s = true → (marks.has s.slot = true ↔ m.flagged.Kept m.IsRoot s) := by
    intro s hs
    rw [ha.kept_iff]
    exact hmarks s ((ha.contains s).symm.trans hs)
  have hw := (Heap.worklist_markAll hsize' hmarks' m.doomed).visits hv
  rw [hw.has_iff ((ha.contains r).trans hr), ha.kept_iff]
  simp only [ha.kept_iff, mem_doomed_iff]
  rfl

/-- The userdata that become flagged are those taken up. -/
theorem flagged_iff {r : Ref} :
    (∃ u u', m.heap.object? r = some (.userdata u) ∧ u.finalized = false ∧
      m.swept.heap.object? r = some (.userdata u') ∧ u'.finalized = true) ↔ m.Doomed r := by
  constructor
  · rintro ⟨u, u', hu, hf, hu', hf'⟩
    have hr := contains_swept_iff.1 (Heap.contains_of_object? hu')
    rw [swept_userdata hr hu] at hu'
    cases hu'
    simpa [hf, mem_doomed_iff] using hf'
  · intro hr
    obtain ⟨-, u, mt, named, hu, hf, -⟩ := id hr
    exact ⟨u, _, hu, hf, swept_userdata hr.survives hu, by simp [mem_doomed_iff.2 hr]⟩

/-- The loops of marking have come to an end when they stop: with any larger bound they come to the same marks. -/
theorem rounds_eq (m : Machine χ σ) {n : Nat} (hn : m.heap.capacity < n) :
    m.heap.markRounds n m.roots (.none m.heap.capacity) = m.held ∧
      m.flagged.markRounds n m.doomed m.held = m.survivors := by
  have hfirst : (Marks.none m.heap.capacity).marked.size = m.heap.capacity := by simp [Marks.none]
  have hcap : m.flagged.capacity = m.heap.capacity := by rw [flagged, Heap.capacity_flagAll]
  have hsecond : m.held.marked.size = m.flagged.capacity := by rw [hcap, size_held]
  have hlt := Heap.unmarked_lt hfirst
  have hlt' := Heap.unmarked_lt hsecond
  exact ⟨Heap.markRounds_eq hfirst (by omega) (by omega), Heap.markRounds_eq hsecond (by omega) (by omega)⟩

end Machine

/-- What a collection counts, and what it answers when no finalizer fails. -/
theorem collect_counts (Γ : Host χ σ) {m : Machine χ σ} (hm : m.collecting = false) :
    (Action.collect (call Γ) m).2.statistics.lastFreed = m.dead.length ∧
      (Action.collect (call Γ) m).2.statistics.objectsFreed = m.statistics.objectsFreed + m.dead.length ∧
      ((∀ t ∈ turns (call Γ) m.swept.pending m.swept, t.failure (call Γ) = none) →
        (Action.collect (call Γ) m).1 = .ok m.dead.length) := by
  have hbooks := (finalizeAll_books_eq Γ m.swept.pending (m := m.swept) rfl).2
  have hstat : (Action.finalizeAll (call Γ) m.swept.pending m.swept).2.statistics = m.statistics :=
    congrArg Machine.Frame.statistics hbooks
  rw [collect_eq hm]
  refine ⟨rfl, by simp only [Machine.finish, Statistics.add, hstat], fun hok => ?_⟩
  have hnone : (Action.finalizeAll (call Γ) m.swept.pending m.swept).1.failure = none := by
    rw [finalizeAll_eq]
    exact List.findSome?_eq_none_iff.2 hok
  simp only [hnone]

/-- A collection marks to the end, keeps what the roots or the userdata taken up keep and frees all other objects, flags the
userdata taken up and no other one, and counts what it freed. The machine it leaves is that of the sweep after the turns of the
finalizers, and has the heap of the sweep if none is called. -/
theorem collect_exact (Γ : Host χ σ) (m : Machine χ σ) (hm : m.collecting = false) :
    -- both worklists run empty, whatever is taken out next, and then exactly what survives is marked
    (∀ w : List Ref × Marks, w.2.marked.size = m.heap.capacity →
      Acc (fun y x => m.heap.Visit x y) w ∧ Acc (fun y x => m.flagged.Visit x y) w) ∧
    (∀ marks marks',
      Relation.ReflTransGen m.heap.Visit (m.heap.markAll m.roots (.none m.heap.capacity)) ([], marks) →
      Relation.ReflTransGen m.flagged.Visit (m.flagged.markAll m.doomed marks) ([], marks') →
      ∀ r, m.heap.contains r = true →
        (marks.has r.slot = true ↔ m.heap.Kept m.IsRoot r) ∧ (marks'.has r.slot = true ↔ m.Survives r)) ∧
    -- so do the rounds, before their bound
    (∀ n, m.heap.capacity < n → m.heap.markRounds n m.roots (.none m.heap.capacity) = m.held ∧
      m.flagged.markRounds n m.doomed m.held = m.survivors) ∧
    -- the sweep
    (∀ r, m.swept.heap.contains r = true ↔ m.Survives r) ∧
    (∀ r, (∃ u u', m.heap.object? r = some (.userdata u) ∧ u.finalized = false ∧
      m.swept.heap.object? r = some (.userdata u') ∧ u'.finalized = true) ↔ m.Doomed r) ∧
    -- the machine that is left
    ((Action.collect (call Γ) m).2 =
      (((turns (call Γ) m.swept.pending m.swept).getLast?.map (Turn.after (call Γ))).getD m.swept).finish
        (Action.collect (call Γ) m).2.statistics) ∧
    ((∀ t ∈ turns (call Γ) m.swept.pending m.swept, t.finalizer? = none) →
      (Action.collect (call Γ) m).2.heap = m.swept.heap) ∧
    -- the count
    (∃ freed : List Ref, freed.Nodup ∧ (∀ r, r ∈ freed ↔ m.heap.contains r = true ∧ ¬m.Survives r) ∧
      (Action.collect (call Γ) m).2.statistics.lastFreed = freed.length ∧
      (Action.collect (call Γ) m).2.statistics.objectsFreed = m.statistics.objectsFreed + freed.length ∧
      ((∀ t ∈ turns (call Γ) m.swept.pending m.swept, t.failure (call Γ) = none) →
        (Action.collect (call Γ) m).1 = .ok freed.length)) := by
  have hcap : m.flagged.capacity = m.heap.capacity := by rw [Machine.flagged, Heap.capacity_flagAll]
  refine ⟨fun w hw => ⟨Heap.acc_visit w hw, Heap.acc_visit w (hw.trans hcap.symm)⟩, ?_, fun n hn => m.rounds_eq hn,
    fun r => Machine.contains_swept_iff, fun r => Machine.flagged_iff, collect_snd hm, collect_heap hm, m.dead, m.nodup_dead,
    fun r => Machine.mem_dead_iff, collect_counts Γ hm⟩
  intro marks marks' hv hv' r hr
  obtain ⟨hsize, hmarks⟩ := Machine.has_first_iff hv
  exact ⟨hmarks r hr, Machine.has_second_iff hsize hmarks hv' hr⟩

/-- Makes two tables that refer to each other, and keeps neither. -/
def dropCycle : Prog Unit Unit Unit := do
  let a ← Prog.request .newTable
  let b ← Prog.request .newTable
  Prog.request (.rawSet a (.string "next") (.table b))
  Prog.request (.rawSet b (.string "next") (.table a))

/-- A new machine after that. -/
def afterCycle : Machine Unit Unit := (dropCycle.exec (fun _ _ => pure []) (.start .standard ())).2

/-- A collection frees the two tables, and no others: the machine it leaves has the registry and the globals only. -/
theorem collect_exact_afterCycle :
    (∀ r, afterCycle.Survives r ↔ r = afterCycle.registry ∨ r = afterCycle.globals) ∧
      (∃ freed : List Ref, freed.length = 2 ∧ ∀ r, r ∈ freed ↔ afterCycle.heap.contains r = true ∧ ¬afterCycle.Survives r) ∧
      ∀ r, (Action.collect (call fun _ _ => pure []) afterCycle).2.heap.contains r = true ↔
        r = afterCycle.registry ∨ r = afterCycle.globals := by
  obtain ⟨-, -, -, hswept, -, -, hheap, freed, -, hfreed, hcount, -⟩ :=
    collect_exact (fun _ _ => pure []) afterCycle (by decide +kernel)
  have hrefs : afterCycle.swept.heap.refs = [afterCycle.registry, afterCycle.globals] := by decide +kernel
  have hlive : ∀ r, afterCycle.swept.heap.contains r = true ↔ r = afterCycle.registry ∨ r = afterCycle.globals := by
    intro r
    rw [← Heap.mem_refs_iff, hrefs]
    simp
  have hpending : afterCycle.swept.pending = [] := by decide +kernel
  refine ⟨fun r => (hswept r).symm.trans (hlive r), ⟨freed, ?_, hfreed⟩, fun r => ?_⟩
  · rw [← hcount]
    decide +kernel
  · rw [hheap (by simp [hpending, turns]), hlive]

end ScriptHost

import ScriptHost.Call
import ScriptHost.Proofs.Turns

/-!
# A collection touches nothing but flags and weak entries

The state of a collection in front of its first finalizer, compared with the state it began on (`Machine.OnlyCleared`). What
survives is the same object, except that the userdata taken up are flagged and that weak tables are without the entries
they lose (`Machine.Loses`), and outside of the heap only the queue is another one.
-/

namespace ScriptHost

variable {χ σ : Type}

namespace Machine

/-- Between the two states a collection has flagged userdata, taken weak entries out and freed what does not survive, and
nothing else. -/
structure OnlyCleared (m m' : Machine χ σ) : Prop where
  stack : m'.stack = m.stack
  pins : m'.pins = m.pins
  registry : m'.registry = m.registry
  globals : m'.globals = m.globals
  limits : m'.limits = m.limits
  depth : m'.depth = m.depth
  host : m'.host = m.host
  /-- A table has its metatable, and its entries in their order, apart from those it loses. -/
  table : ∀ r t, m.Survives r → m.heap.object? r = some (.table t) → ∃ t', m'.heap.object? r = some (.table t') ∧
    t'.metatable = t.metatable ∧ t'.entries.Sublist t.entries ∧ ∀ e, e ∈ t'.entries ↔ e ∈ t.entries ∧ ¬m.Loses t e
  /-- A userdata is flagged if it was or is taken up now. -/
  userdata : ∀ r u, m.Survives r → m.heap.object? r = some (.userdata u) → ∃ u', m'.heap.object? r = some (.userdata u') ∧
    u'.payload = u.payload ∧ u'.metatable = u.metatable ∧ u'.environment = u.environment ∧
      (u'.finalized = true ↔ u.finalized = true ∨ m.Doomed r)
  function : ∀ r f, m.Survives r → m.heap.object? r = some (.function f) → m'.heap.object? r = some (.function f)
  freed : ∀ r, ¬m.Survives r → m'.heap.object? r = none

theorem onlyCleared_swept (m : Machine χ σ) : m.OnlyCleared m.swept where
  stack := by rw [swept_eq]
  pins := by rw [swept_eq]
  registry := by rw [swept_eq]
  globals := by rw [swept_eq]
  limits := by rw [swept_eq]
  depth := by rw [swept_eq]
  host := by rw [swept_eq]
  table r t hr ht :=
    ⟨_, swept_table hr ht, rfl, List.filter_sublist, fun _ => mem_remaining_iff⟩
  userdata r u hr hu := by
    refine ⟨_, swept_userdata hr hu, rfl, rfl, rfl, ?_⟩
    rw [Bool.or_eq_true, decide_eq_true_iff, mem_doomed_iff]
  function r f hr hf := swept_function hr hf
  freed r hr := object?_swept_of_not_survives hr

/-- The queue does not matter, nor what the end of a collection notes down. -/
theorem OnlyCleared.queue {m m' : Machine χ σ} (h : m.OnlyCleared m') (rest : List Ref) : m.OnlyCleared (m'.queue rest) :=
  { h with }

theorem OnlyCleared.finish {m m' : Machine χ σ} (h : m.OnlyCleared m') (s : Statistics) : m.OnlyCleared (m'.finish s) :=
  { h with }

end Machine

/-- As long as no turn has called anything, only the queue is different. -/
theorem turn_eq_queue {c : Caller χ σ} {refs : List Ref} {m : Machine χ σ} {before after : List (Turn χ σ)} {t : Turn χ σ}
    (hturns : turns c refs m = before ++ t :: after) (hbefore : ∀ t' ∈ before, t'.finalizer? = none) :
    t.machine = m.queue t.machine.pending := by
  induction refs generalizing m before with
  | nil => simp [turns] at hturns
  | cons r rest ih =>
    rw [turns] at hturns
    cases before with
    | nil =>
      simp only [List.nil_append, List.cons.injEq] at hturns
      rw [← hturns.1]
      rfl
    | cons t' before =>
      simp only [List.cons_append, List.cons.injEq] at hturns
      have hskip : Turn.after c ⟨r, m.queue rest⟩ = m.queue rest := by
        have hf := hbefore t' (by simp)
        rw [← hturns.1] at hf
        simp only [Turn.after, hf]
      rw [hskip] at hturns
      exact ih (m := m.queue rest) hturns.2 fun t'' ht'' => hbefore t'' (List.mem_cons_of_mem _ ht'')

/-- A queue in which nothing is called only runs empty. -/
theorem finalizeAll_eq_queue {c : Caller χ σ} {refs : List Ref} {m : Machine χ σ}
    (hnone : ∀ t ∈ turns c refs m, t.finalizer? = none) : ∃ rest, (Action.finalizeAll c refs m).2 = m.queue rest := by
  induction refs generalizing m with
  | nil => exact ⟨m.pending, rfl⟩
  | cons r rest ih =>
    have hf := hnone ⟨r, m.queue rest⟩ (by simp [turns])
    have hskip : Turn.after c ⟨r, m.queue rest⟩ = m.queue rest := by simp only [Turn.after, hf]
    obtain ⟨rest', h⟩ := ih (m := m.queue rest) fun t ht => hnone t (by rw [turns, hskip]; exact List.mem_cons_of_mem _ ht)
    exact ⟨rest', by rw [finalizeAll_skip hf, h]; rfl⟩

/-- A collection in which nothing is called leaves the heap of its sweep. -/
theorem collect_heap {c : Caller χ σ} {m : Machine χ σ} (hm : m.collecting = false)
    (hnone : ∀ t ∈ turns c m.swept.pending m.swept, t.finalizer? = none) : (Action.collect c m).2.heap = m.swept.heap := by
  obtain ⟨rest, h⟩ := finalizeAll_eq_queue hnone
  rw [collect_eq hm]
  show (Action.finalizeAll c m.swept.pending m.swept).2.heap = m.swept.heap
  rw [h]
  rfl

/-- From the start of a collection to the first finalizer it calls, and to its end if it calls none, nothing changes but flags,
weak entries and what is freed. -/
theorem collect_only_clears (c : Caller χ σ) (m : Machine χ σ) (hm : m.collecting = false) :
    (∀ before t after, turns c m.swept.pending m.swept = before ++ t :: after → (∀ t' ∈ before, t'.finalizer? = none) →
      m.OnlyCleared t.machine) ∧
    ((∀ t ∈ turns c m.swept.pending m.swept, t.finalizer? = none) → m.OnlyCleared (Action.collect c m).2) := by
  constructor
  · intro before t after hturns hbefore
    rw [turn_eq_queue hturns hbefore]
    exact m.onlyCleared_swept.queue _
  · intro hnone
    obtain ⟨rest, h⟩ := finalizeAll_eq_queue hnone
    rw [collect_eq hm]
    simp only [h]
    exact (m.onlyCleared_swept.queue rest).finish _

/-- Puts a table that nothing else keeps into a table with weak values on the stack, and drops a userdata with a finalizer. -/
def dropWeakly : Prog Unit Unit Unit := do
  let weak ← Prog.request .newTable
  let mt ← Prog.request .newTable
  Prog.request (.rawSet mt (.string "__mode") (.string "v"))
  Prog.request (.setMetatable (.table weak) (some mt))
  Prog.request (.push (.table weak))
  let dropped ← Prog.request .newTable
  Prog.request (.rawSet weak (.boolean true) (.table dropped))
  let finalizer ← Prog.request (.newFunction "finalizer" (.host ()) [])
  Prog.request (.rawSet mt (.string "__gc") (.function finalizer))
  let u ← Prog.request (.newUserdata .unit)
  Prog.request (.setMetatable (.userdata u) (some mt))

/-- A new machine after that. -/
def afterWeak : Machine Unit Unit := (dropWeakly.exec (fun _ _ => pure []) (.start .standard ())).2

/-- In front of the one finalizer there is, nothing but flags and weak entries has changed; the weak entry is gone. -/
theorem collect_only_clears_afterWeak :
    ∃ t ∈ turns (call fun _ _ => pure []) afterWeak.swept.pending afterWeak.swept,
      t.finalizer? = some (.function ⟨5, 0⟩) ∧ afterWeak.OnlyCleared t.machine ∧
        t.machine.heap.object? ⟨2, 0⟩ = some (.table ⟨[], some ⟨3, 0⟩⟩) := by
  have hqueue : afterWeak.swept.pending = [⟨6, 0⟩] := by decide +kernel
  have hturns : turns (call fun _ _ => pure []) afterWeak.swept.pending afterWeak.swept =
      [] ++ ⟨⟨6, 0⟩, afterWeak.swept.queue []⟩ :: [] := by
    rw [hqueue]
    rfl
  refine ⟨⟨⟨6, 0⟩, afterWeak.swept.queue []⟩, by simp [hturns], by decide +kernel, ?_, by decide +kernel⟩
  exact (collect_only_clears (call fun _ _ => pure []) afterWeak (by decide +kernel)).1 _ _ _ hturns (by simp)

end ScriptHost

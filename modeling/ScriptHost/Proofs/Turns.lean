import ScriptHost.Proofs.Reclaim

/-!
# The turns of a queue of finalizers

Once the sweep is over, each pending userdata has one turn (`Turn`), in the order of the queue: if its metatable has a function
under `__gc` by then, that function is called with it. The loop over the queue is described by its turns
(`finalizeAll_eq`), and the whole collection by the sweep and the turns after it (`collect_eq`, `collect_snd`).
-/

namespace ScriptHost

variable {χ σ α : Type}

namespace Machine

/-- The machine with other userdata pending. -/
def queue (m : Machine χ σ) (rest : List Ref) : Machine χ σ := { m with pending := rest }

/-- The machine at the end of a collection. -/
def finish (m : Machine χ σ) (s : Statistics) : Machine χ σ := { m with collecting := false, statistics := s }

end Machine

/-- The turn of a pending userdata, with the machine as it is then. -/
structure Turn (χ σ : Type) where
  subject : Ref
  machine : Machine χ σ

namespace Turn

/-- The finalizer called in the turn. -/
def finalizer? (t : Turn χ σ) : Option Value := t.machine.finalizer? t.subject

/-- What came of the call of the turn, if there was one. -/
def outcome (c : Caller χ σ) (t : Turn χ σ) : Option (Except Fault (List Value)) :=
  t.finalizer?.map (fun f => (c f [.userdata t.subject] t.machine).1)

/-- What the call of the turn reported, if it failed. -/
def failure (c : Caller χ σ) (t : Turn χ σ) : Option String :=
  match t.outcome c with
  | some (.error e) => some e.report
  | _ => none

/-- The machine after the turn. -/
def after (c : Caller χ σ) (t : Turn χ σ) : Machine χ σ :=
  match t.finalizer? with
  | none => t.machine
  | some f => (c f [.userdata t.subject] t.machine).2

end Turn

/-- The turns of a queue, from a machine on. -/
def turns (c : Caller χ σ) : List Ref → Machine χ σ → List (Turn χ σ)
  | [], _ => []
  | r :: rest, m => ⟨r, m.queue rest⟩ :: turns c rest (Turn.after c ⟨r, m.queue rest⟩)

variable {c : Caller χ σ}

/-- Every place of the queue has its turn, and there is no other one. -/
theorem map_subject_turns (refs : List Ref) (m : Machine χ σ) : (turns c refs m).map Turn.subject = refs := by
  induction refs generalizing m with
  | nil => rfl
  | cons r rest ih => simp only [turns, List.map_cons, ih]

/-! ## The loop and its turns -/

theorem finalizeAll_skip {r : Ref} {rest : List Ref} {m : Machine χ σ} (h : (m.queue rest).finalizer? r = none) :
    Action.finalizeAll c (r :: rest) m = Action.finalizeAll c rest (m.queue rest) := by
  simp only [Machine.queue] at h
  simp only [Action.finalizeAll, h, Machine.queue]

theorem finalizeAll_call {r : Ref} {rest : List Ref} {m : Machine χ σ} {f : Value}
    (h : (m.queue rest).finalizer? r = some f) :
    let called := c f [.userdata r] (m.queue rest)
    let others := Action.finalizeAll c rest called.2
    Action.finalizeAll c (r :: rest) m =
      (⟨others.1.called + 1, match called.1 with | .ok _ => others.1.failure | .error e => some e.report⟩, others.2) := by
  simp only [Machine.queue] at h ⊢
  simp only [Action.finalizeAll, h]
  split <;> simp_all

/-- The loop counts the turns with a call, reports the first failure among them, and ends after the last one. -/
theorem finalizeAll_eq (refs : List Ref) (m : Machine χ σ) :
    Action.finalizeAll c refs m =
      (⟨(turns c refs m).countP (fun t => t.finalizer?.isSome), (turns c refs m).findSome? (Turn.failure c)⟩,
        ((turns c refs m).getLast?.map (Turn.after c)).getD m) := by
  induction refs generalizing m with
  | nil => rfl
  | cons r rest ih =>
    have hlast : ∀ (t : Turn χ σ) (l : List (Turn χ σ)), ((t :: l).getLast?.map (Turn.after c)).getD m =
        (l.getLast?.map (Turn.after c)).getD (t.after c) := by
      intro t l
      rw [List.getLast?_cons]
      cases l.getLast? <;> rfl
    simp only [turns, hlast]
    cases hf : (m.queue rest).finalizer? r with
    | none =>
      rw [finalizeAll_skip hf, ih]
      simp [Turn.after, Turn.failure, Turn.outcome, Turn.finalizer?, hf]
    | some f =>
      rw [finalizeAll_call hf, ih]
      cases hr : (c f [.userdata r] (m.queue rest)).1 with
      | ok a => simp [Turn.after, Turn.failure, Turn.outcome, Turn.finalizer?, hf, hr]
      | error e => simp [Turn.after, Turn.failure, Turn.outcome, Turn.finalizer?, hf, hr]

/-- A collection sweeps, gives every pending userdata its turn, and counts. -/
theorem collect_eq {m : Machine χ σ} (hm : m.collecting = false) :
    Action.collect c m =
      let done := Action.finalizeAll c m.swept.pending m.swept
      (match done.1.failure with | none => .ok m.dead.length | some text => .error (.finalizer text),
        done.2.finish (done.2.statistics.add m.dead.length done.1.called done.2.heap.live)) := by
  unfold Action.collect
  simp only [hm, Bool.false_eq_true, ↓reduceIte]
  show (match (Action.finalizeAll c m.swept.pending m.swept).1.failure with
    | none => _
    | some text => _) = _
  cases (Action.finalizeAll c m.swept.pending m.swept).1.failure <;> rfl

/-- It leaves the machine of the last turn, or that of the sweep if there are no turns, with the statistics brought up to date. -/
theorem collect_snd {m : Machine χ σ} (hm : m.collecting = false) :
    (Action.collect c m).2 = (((turns c m.swept.pending m.swept).getLast?.map (Turn.after c)).getD m.swept).finish
      (Action.collect c m).2.statistics := by
  rw [collect_eq hm, finalizeAll_eq]
  rfl

/-- A collection that is asked for during another one does nothing. -/
theorem collect_of_collecting {m : Machine χ σ} (hm : m.collecting = true) : Action.collect c m = (.ok 0, m) := by
  simp [Action.collect, hm]

end ScriptHost

import ScriptHost.Proofs.Balance

/-!
# Finalizers that fail

What a finalizer fails with is noted, and the loop over the queue goes on: each turn begins where the one before it left off
(`machine_of_turns`), and only the first failure is reported (`finalizeAll_failure_eq_some_iff`). From the sweep to the end of the
queue a collection is under way, through all calls and whatever they ask for (`Moment.collecting_after`), so a collection that is
asked for in there does nothing. The statistics are brought up to date in the same way whether a finalizer has failed or not
(`collection_undisturbed`).
-/

namespace ScriptHost

variable {χ σ α : Type} {Γ : Host χ σ}

/-! ## What a failed finalizer reports -/

/-- The bare text of a runtime fault, and the whole text of any other one. -/
theorem Fault.report_eq_iff {e : Fault} {text : String} :
    e.report = text ↔ e = .runtime text ∨ (∀ s, e ≠ .runtime s) ∧ e.text = text := by
  cases e with
  | runtime s => simp [report]
  | _ => simp [report]

namespace Turn

variable {c : Caller χ σ} {t : Turn χ σ}

/-- The call of the turn fails. -/
def Fails (c : Caller χ σ) (t : Turn χ σ) : Prop := ∃ e, t.outcome c = some (.error e)

theorem failure_eq_some_iff {text : String} : t.failure c = some text ↔ ∃ e, t.outcome c = some (.error e) ∧ e.report = text := by
  unfold failure
  split
  · rename_i e he
    simp [he]
  · rename_i hother
    exact ⟨nofun, fun ⟨e, he, _⟩ => absurd he (hother e)⟩

theorem failure_eq_none_iff : t.failure c = none ↔ ¬t.Fails c := by
  rw [Option.eq_none_iff_forall_ne_some]
  constructor
  · exact fun h ⟨e, he⟩ => h _ (failure_eq_some_iff.2 ⟨e, he, rfl⟩)
  · rintro h text htext
    obtain ⟨e, he, -⟩ := failure_eq_some_iff.1 htext
    exact h ⟨e, he⟩

end Turn

/-! ## The queue is drained -/

section

variable {c : Caller χ σ} {refs : List Ref} {m : Machine χ σ}

/-- The first turn begins where the queue does, every other one where the turn before it is over, and each with what is after it in
the queue still pending. -/
theorem machine_of_turns {before after : List (Turn χ σ)} {t : Turn χ σ} (h : turns c refs m = before ++ t :: after) :
    t.machine = ((before.getLast?.map (Turn.after c)).getD m).queue (after.map Turn.subject) := by
  induction refs generalizing m before with
  | nil => simp [turns] at h
  | cons r rest ih =>
    cases before with
    | nil =>
      obtain ⟨rfl, rfl⟩ := List.cons_eq_cons.1 h
      rw [map_subject_turns]
      rfl
    | cons t' before =>
      obtain ⟨rfl, hrest⟩ := List.cons_eq_cons.1 h
      rw [ih hrest, List.getLast?_cons]
      cases before.getLast? <;> rfl

/-- What the loop reports is what the first call that fails fails with. -/
theorem finalizeAll_failure_eq_some_iff {text : String} :
    (Action.finalizeAll c refs m).1.failure = some text ↔
      ∃ before t after e, turns c refs m = before ++ t :: after ∧ (∀ t' ∈ before, ¬t'.Fails c) ∧
        t.outcome c = some (.error e) ∧ e.report = text := by
  rw [finalizeAll_eq]
  show List.findSome? _ _ = _ ↔ _
  simp only [List.findSome?_eq_some_iff, Turn.failure_eq_some_iff, Turn.failure_eq_none_iff]
  constructor
  · rintro ⟨before, t, after, hturns, ⟨e, he, htext⟩, hbefore⟩
    exact ⟨before, t, after, e, hturns, hbefore, he, htext⟩
  · rintro ⟨before, t, after, e, hturns, hbefore, he, htext⟩
    exact ⟨before, t, after, hturns, ⟨e, he, htext⟩, hbefore⟩

/-- The loop reports nothing if no call fails. -/
theorem finalizeAll_failure_eq_none_iff :
    (Action.finalizeAll c refs m).1.failure = none ↔ ∀ t ∈ turns c refs m, ¬t.Fails c := by
  rw [finalizeAll_eq]
  show List.findSome? _ _ = _ ↔ _
  simp only [List.findSome?_eq_none_iff, Turn.failure_eq_none_iff]

end

/-! ## Under way to the end -/

namespace Machine

/-- A collection that is under way on the first machine is under way on the second. -/
def Underway (m m' : Machine χ σ) : Prop := m.collecting = true → m'.collecting = true

theorem Underway.trans {m m' m'' : Machine χ σ} (h : m.Underway m') (h' : m'.Underway m'') : m.Underway m'' := fun hm => h' (h hm)

theorem Steps.underway {m m' : Machine χ σ} (h : m.Steps m') : m.Underway m' :=
  fun hm => (congrArg Frame.collecting h.frame_eq).trans hm

theorem tie_underway : Tie (Underway (χ := χ) (σ := σ)) where
  refl _ := id
  trans := Underway.trans
  stored m t key v := (Action.quiet_rawSet t key v m).underway
  queued _ _ _ := id

end Machine

open Moment

/-- A collection under way when a moment begins is under way at everything that goes on within, and when the moment is over. -/
theorem Moment.collecting_after {M : Moment χ σ} (hM : M.Sane) :
    M.before.Underway (M.after Γ) ∧ ∀ N ∈ M.trace Γ, M.before.Underway N.before := by
  refine Moment.induction Γ (P := fun M => M.Sane → M.before.Underway (M.after Γ) ∧ ∀ N ∈ M.trace Γ, M.before.Underway N.before)
    (fun M ih hM => ?_) M hM
  have ih := fun N hN => ih N hN (sane_of_mem_parts hN)
  rw [trace_eq, List.forall_mem_cons]
  rcases M.strung_cases (Γ := Γ) Machine.tie_underway hM with ⟨r, m, rfl, hr⟩ | ⟨m, rfl, hc⟩ | ⟨f, args, m, rfl⟩ | ⟨-, -, h⟩
  · rw [parts_of_silent hr]
    exact ⟨(Request.perform_steps _ hr m).underway, id, fun _ h => absurd h List.not_mem_nil⟩
  · -- a collection that sweeps begins while none is under way
    have hout : ∀ m', m.Underway m' := fun m' hm => absurd (hm.symm.trans hc) Bool.true_eq_false.mp
    exact ⟨hout _, id, fun _ _ => hout _⟩
  · have h := strung_call Machine.tie_underway (fun _ _ _ => id) (fun _ _ => id) Γ f args m
    obtain ⟨hend, hall⟩ := h.keep_flatMap (R := Machine.Underway) Machine.Underway.trans Machine.Underway.trans ih
    exact ⟨hend, id, hall⟩
  · obtain ⟨hend, hall⟩ := h.keep_flatMap (R := Machine.Underway) Machine.Underway.trans Machine.Underway.trans ih
    exact ⟨hend, id, hall⟩

/-- A collection that is asked for within the finalizers of another one, at any depth, answers that nothing was freed and leaves the
machine as it is. -/
theorem collect_of_within_finalizers {m m' : Machine χ σ} (hm : m.collecting = true)
    (h : Within Γ (finalizers m) (request .collect m')) : Action.collect (ScriptHost.call Γ) m' = (.ok 0, m') :=
  collect_of_collecting ((Moment.collecting_after (M := finalizers m) hm).2 _ (mem_trace_iff.2 h) hm)

/-! ## The collection -/

/-- What a collection frees is what is live before its sweep and not after it. -/
theorem Machine.mem_dead_iff_swept {m : Machine χ σ} {r : Ref} :
    r ∈ m.dead ↔ m.heap.contains r = true ∧ m.swept.heap.contains r = false := by
  rw [mem_dead_iff, ← contains_swept_iff, Bool.not_eq_true]

section

variable {m : Machine χ σ}

/-- A collection fails with what the loop reports, and answers how many objects were freed if it reports nothing. -/
theorem collect_fst (hm : m.collecting = false) :
    (Action.collect (ScriptHost.call Γ) m).1 =
      ((Action.finalizeAll (ScriptHost.call Γ) m.swept.pending m.swept).1.failure.elim (.ok m.dead.length) (.error <| .finalizer ·)) := by
  simp only [collect_eq hm]
  cases (Action.finalizeAll (ScriptHost.call Γ) m.swept.pending m.swept).1.failure <;> rfl

/-- A collection fails with what the first call that fails fails with. -/
theorem collect_eq_error_iff (hm : m.collecting = false) {text : String} :
    (Action.collect (ScriptHost.call Γ) m).1 = .error (.finalizer text) ↔
      ∃ before t after e, m.collectionTurns Γ = before ++ t :: after ∧ (∀ t' ∈ before, ¬t'.Fails (ScriptHost.call Γ)) ∧
        t.outcome (ScriptHost.call Γ) = some (.error e) ∧ e.report = text := by
  unfold Machine.collectionTurns
  rw [collect_fst hm, ← finalizeAll_failure_eq_some_iff]
  cases (Action.finalizeAll (ScriptHost.call Γ) m.swept.pending m.swept).1.failure <;> simp

/-- It answers how many objects were freed exactly if no call fails. -/
theorem collect_eq_ok_iff (hm : m.collecting = false) :
    (Action.collect (ScriptHost.call Γ) m).1 = .ok m.dead.length ↔
      ∀ t ∈ m.collectionTurns Γ, ¬t.Fails (ScriptHost.call Γ) := by
  unfold Machine.collectionTurns
  rw [collect_fst hm, ← finalizeAll_failure_eq_none_iff]
  cases (Action.finalizeAll (ScriptHost.call Γ) m.swept.pending m.swept).1.failure <;> simp

/-- There is nothing else that it answers. -/
theorem collect_fails_or (hm : m.collecting = false) :
    (Action.collect (ScriptHost.call Γ) m).1 = .ok m.dead.length ∨
      ∃ text, (Action.collect (ScriptHost.call Γ) m).1 = .error (.finalizer text) := by
  rw [collect_fst hm]
  cases (Action.finalizeAll (ScriptHost.call Γ) m.swept.pending m.swept).1.failure with
  | none => exact Or.inl rfl
  | some text => exact Or.inr ⟨text, rfl⟩

/-- Whether a finalizer has failed or not: none is under way at the end, nothing is pending, and everything is counted. -/
theorem collect_books (Γ : Host χ σ) (hm : m.collecting = false) :
    let m' := (Action.collect (ScriptHost.call Γ) m).2
    m'.collecting = false ∧ m'.pending = [] ∧ m'.statistics =
      m.statistics.add m.dead.length ((m.collectionTurns Γ).countP fun t => t.finalizer?.isSome) m'.heap.live := by
  have hpending := pending_finalizeAll Γ m.swept.pending (m := m.swept) rfl rfl
  have hstatistics : (Action.finalizeAll (ScriptHost.call Γ) m.swept.pending m.swept).2.statistics = m.statistics :=
    congrArg Machine.Frame.statistics (finalizeAll_books_eq Γ m.swept.pending (m := m.swept) rfl).2
  have hcalled : (Action.finalizeAll (ScriptHost.call Γ) m.swept.pending m.swept).1.called =
      (m.collectionTurns Γ).countP fun t => t.finalizer?.isSome := by
    rw [finalizeAll_eq]
    rfl
  rw [collect_eq hm, ← hcalled, ← hstatistics]
  exact ⟨rfl, hpending, rfl⟩

end

/-- Take a collection that is asked for while none is under way, whatever is in the queue and whatever the functions of the host do. The
queue is drained to the end: what was pending and what the sweep takes up has its turns, in this order, each on the machine on which
the one before is over, and if there is a finalizer by then it is called. The collection fails if one of these calls fails, with
what the first one that does reports: the bare text of a runtime fault, the text of any other fault. If none fails it answers how
many objects the sweep has freed. In both cases none is under way afterwards, nothing is pending, and the statistics count one more
collection, what it freed, the finalizers it called, and what is live at the end. A collection that is asked for within the
finalizers, at any depth, answers that nothing was freed and changes nothing. -/
theorem collection_undisturbed (Γ : Host χ σ) {m : Machine χ σ} (hm : m.collecting = false) :
    let c := ScriptHost.call Γ
    let ts := m.collectionTurns Γ
    let result := (Action.collect c m).1
    let m' := (Action.collect c m).2
    (m.dead.Nodup ∧ ∀ r, r ∈ m.dead ↔ m.heap.contains r = true ∧ m.swept.heap.contains r = false) ∧
    ts.map Turn.subject = m.pending ++ m.doomed ∧
    (∀ before t after, ts = before ++ t :: after →
      t.machine = ((before.getLast?.map (Turn.after c)).getD m.swept).queue (after.map Turn.subject)) ∧
    m' = ((ts.getLast?.map (Turn.after c)).getD m.swept).finish m'.statistics ∧
    (∀ t ∈ ts, ∀ f, t.finalizer? = some f →
      Within Γ (finalizers m.swept) (.call f [.userdata t.subject] t.machine) ∧
        t.after c = (c f [.userdata t.subject] t.machine).2) ∧
    (∀ text, result = .error (.finalizer text) ↔
      ∃ before t after e, ts = before ++ t :: after ∧ (∀ t' ∈ before, ¬t'.Fails c) ∧ t.outcome c = some (.error e) ∧
        (e = .runtime text ∨ (∀ s, e ≠ .runtime s) ∧ e.text = text)) ∧
    (result = .ok m.dead.length ↔ ∀ t ∈ ts, ¬t.Fails c) ∧
    ((∃ t ∈ ts, t.Fails c) → ∃ text, result = .error (.finalizer text)) ∧
    (m'.collecting = false ∧ m'.pending = [] ∧
      m'.statistics = m.statistics.add m.dead.length (ts.countP fun t => t.finalizer?.isSome) m'.heap.live) ∧
    ∀ m'', Within Γ (finalizers m.swept) (request .collect m'') → Action.collect c m'' = (.ok 0, m'') := by
  refine ⟨⟨m.nodup_dead, fun _ => Machine.mem_dead_iff_swept⟩, map_subject_turns _ _, fun before t after => machine_of_turns,
    collect_snd hm, fun t ht f hf => ⟨.single (.turn ht hf), by simp only [Turn.after, hf]⟩, fun text => ?_, collect_eq_ok_iff hm,
    fun hfail => ?_, collect_books Γ hm, fun m'' => collect_of_within_finalizers (m := m.swept) rfl⟩
  · simp only [collect_eq_error_iff hm, Fault.report_eq_iff]
  · refine (collect_fails_or hm).resolve_left fun hok => ?_
    obtain ⟨t, ht, hfails⟩ := hfail
    exact (collect_eq_ok_iff hm).1 hok t ht hfails

/-! ## Three finalizers, of which two fail -/

/-- A host with a function that does nothing, one that collects and fails, and others that fail. -/
def troubledHost : Host Nat Unit
  | 0, _ => pure []
  | 1, _ => Prog.request .collect >>= fun _ => Prog.fail (.runtime "spoiled")
  | _, _ => Prog.fail .stale

/-- Makes a userdata with the finalizer, and keeps nothing of it. -/
def dropTroubled (code : Nat) : Prog Nat Unit Unit := do
  let mt ← Prog.request .newTable
  let finalizer ← Prog.request (.newFunction "finalizer" (.host code) [])
  Prog.request (.rawSet mt (.string "__gc") (.function finalizer))
  let u ← Prog.request (.newUserdata .unit)
  Prog.request (.setMetatable (.userdata u) (some mt))

/-- A new machine after three userdata are dropped, one with each finalizer. -/
def troubled : Machine Nat Unit :=
  ((do dropTroubled 0; dropTroubled 1; dropTroubled 2 : Prog Nat Unit Unit).exec troubledHost (.start .standard ())).2

/-- What each turn of the collection fails with. -/
theorem faults_troubled : (troubled.collectionTurns troubledHost).map
    (fun t => (t.outcome (ScriptHost.call troubledHost)).bind faultOf?) = [none, some (.runtime "spoiled"), some .stale] := by
  decide +kernel

/-- The second finalizer asks for a collection and fails, and the third one is called all the same. Its fault is not reported. -/
theorem collection_undisturbed_troubled :
    troubled.collecting = false ∧ (troubled.collectionTurns troubledHost).map Turn.subject = [⟨4, 0⟩, ⟨7, 0⟩, ⟨10, 0⟩] ∧
    (Action.collect (ScriptHost.call troubledHost) troubled).1 = .error (.finalizer "spoiled") ∧
    (Action.collect (ScriptHost.call troubledHost) troubled).2.collecting = false ∧
    (Action.collect (ScriptHost.call troubledHost) troubled).2.pending = [] ∧
    (Action.collect (ScriptHost.call troubledHost) troubled).2.statistics = ⟨1, 0, 3, 0, 11⟩ := by
  have hc : troubled.collecting = false := by decide +kernel
  obtain ⟨-, hsubjects, -, -, -, herror, -, -, ⟨hover, hempty, hcounted⟩, -⟩ := collection_undisturbed troubledHost hc
  have hfaults := faults_troubled
  obtain ⟨t₀, t₁, t₂, hturns⟩ : ∃ t₀ t₁ t₂, troubled.collectionTurns troubledHost = [t₀, t₁, t₂] :=
    List.length_eq_three.1 (by decide +kernel)
  rw [hturns] at hfaults
  simp only [List.map_cons, List.map_nil, List.cons.injEq, and_true] at hfaults
  obtain ⟨h₀, h₁, -⟩ := hfaults
  obtain ⟨x, hx, hfault⟩ := Option.bind_eq_some_iff.1 h₁
  have hfirst : ∀ t' ∈ [t₀], ¬t'.Fails (ScriptHost.call troubledHost) := by
    rintro t' ht' ⟨e, he⟩
    rw [List.mem_singleton.1 ht'] at he
    rw [he] at h₀
    cases h₀
  refine ⟨hc, hsubjects.trans (by decide +kernel), ?_, hover, hempty, hcounted.trans (by decide +kernel)⟩
  exact (herror "spoiled").2 ⟨[t₀], t₁, [t₂], .runtime "spoiled", hturns, hfirst, hx.trans (congrArg some (eq_error_of_fault hfault)),
    Or.inl rfl⟩

end ScriptHost

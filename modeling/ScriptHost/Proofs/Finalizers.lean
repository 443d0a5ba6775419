import ScriptHost.Proofs.Runs

/-!
# Which finalizers are called

A collection flags the userdata it takes up before any finalizer runs, and then calls each finalizer like any other function:
the limits on the depth of calls and on the stack apply to it. The body of a finalizer is therefore entered, once and with the
userdata, exactly when there was room for one more call where the collection was asked for (`finalizer_entered_iff`). Without
that room no finalizer of the collection is entered, and because the userdata are flagged no later collection takes them up
again.
-/

namespace ScriptHost

variable {χ σ : Type}

namespace Machine

/-- The limits leave room for a call with so many arguments. -/
def HasRoom (m : Machine χ σ) (arguments : Nat) : Prop :=
  m.depth < m.limits.maxCallDepth ∧ m.stack.size + arguments + 1 ≤ m.limits.stackLimit

/-- A function is called if there is room and it is there. -/
theorem callee_eq_ok_iff {m : Machine χ σ} {f : Ref} {args : List Value} {function : NativeFunction χ} :
    m.callee (.function f) args = .ok function ↔ m.HasRoom args.length ∧ m.heap.function f = .ok function := by
  unfold callee HasRoom
  by_cases h : m.limits.maxCallDepth ≤ m.depth ∨ m.limits.stackLimit < m.stack.size + args.length + 1
  · simp only [h, ↓reduceIte, reduceCtorEq, false_iff]
    omega
  · simp only [h, ↓reduceIte]
    exact ⟨fun hf => ⟨by omega, hf⟩, fun hf => hf.2⟩

/-- Without room the limits refuse the call. -/
theorem callee_of_not_hasRoom {m : Machine χ σ} {f : Ref} {args : List Value} (h : ¬m.HasRoom args.length) :
    m.callee (.function f) args = .error .overflow := by
  have hfull : m.limits.maxCallDepth ≤ m.depth ∨ m.limits.stackLimit < m.stack.size + args.length + 1 := by
    unfold HasRoom at h
    omega
  simp only [callee, hfull, ↓reduceIte]

theorem finalizer?_eq_function {m : Machine χ σ} {r : Ref} {v : Value} (h : m.finalizer? r = some v) :
    ∃ f, v = .function f := by
  unfold finalizer? at h
  split at h
  · exact ⟨_, (Option.some.inj h).symm⟩
  · cases h

end Machine

/-! ## Calls with and without room -/

/-- A call that is refused changes nothing. -/
theorem call_of_refused (Γ : Host χ σ) {m : Machine χ σ} {f : Value} {args : List Value} {e : Fault}
    (h : m.callee f args = .error e) : call Γ f args m = (.error e, m) := by
  rw [call_eq]
  simp only [callWith, h]

/-- So is one without room. -/
theorem call_of_not_hasRoom (Γ : Host χ σ) {m : Machine χ σ} (f : Ref) (args : List Value) (h : ¬m.HasRoom args.length) :
    call Γ (.function f) args m = (.error .overflow, m) :=
  call_of_refused Γ (Machine.callee_of_not_hasRoom h)

/-- A call that is let in runs the body of the function. -/
theorem call_of_callee (Γ : Host χ σ) {m : Machine χ σ} {f : Value} {args : List Value} {function : NativeFunction χ}
    (h : m.callee f args = .ok function) :
    call Γ f args m =
      let body := function.code.run Γ (call Γ) ⟨args, function.upvalues⟩ (m.enter f args)
      (body.1.mapError Fault.inScript, body.2.leave m.stack.size) := by
  rw [call_eq]
  simp only [callWith, h, ← call_eq]

namespace Turn

/-- The function whose body is entered in the turn, with the userdata as its only argument. -/
def entered? (t : Turn χ σ) : Option (NativeFunction χ) :=
  t.finalizer?.bind fun f => (t.machine.callee f [.userdata t.subject]).toOption

end Turn

/-- If there is no room when the queue is begun, no turn of it does anything. -/
theorem turn_eq_queue_of_not_hasRoom (Γ : Host χ σ) {refs : List Ref} {m : Machine χ σ} (h : ¬m.HasRoom 1) {t : Turn χ σ}
    (ht : t ∈ turns (call Γ) refs m) : t.machine = m.queue t.machine.pending := by
  induction refs generalizing m with
  | nil => simp [turns] at ht
  | cons r rest ih =>
    have hafter : Turn.after (call Γ) ⟨r, m.queue rest⟩ = m.queue rest := by
      unfold Turn.after
      split
      · rfl
      · rename_i v hv
        obtain ⟨f, rfl⟩ := Machine.finalizer?_eq_function hv
        exact congrArg Prod.snd (call_of_not_hasRoom Γ (m := m.queue rest) f [.userdata r] h)
    rw [turns, hafter] at ht
    rcases List.mem_cons.1 ht with rfl | ht
    · rfl
    · exact ih (m := m.queue rest) h ht

/-- There is room at a turn exactly when there is when the queue is begun: finalizers leave the depth, and the stack no
higher. -/
theorem hasRoom_turn_iff (Γ : Host χ σ) {refs : List Ref} {m : Machine χ σ} (hm : m.collecting = true) {t : Turn χ σ}
    (ht : t ∈ turns (call Γ) refs m) : t.machine.HasRoom 1 ↔ m.HasRoom 1 := by
  constructor
  · intro h
    refine Classical.byContradiction fun hn => hn ?_
    rw [turn_eq_queue_of_not_hasRoom Γ hn ht] at h
    exact h
  · rintro ⟨hd, hs⟩
    have hbooks := (finalizeAll_books_eq Γ refs hm).1 t ht
    have hdepth : t.machine.depth = m.depth := congrArg Machine.Frame.depth hbooks
    have hlimits : t.machine.limits = m.limits := congrArg Machine.Frame.limits hbooks
    have hstack := size_stack_turn_le Γ refs m ht
    unfold Machine.HasRoom
    rw [hdepth, hlimits]
    omega

/-! ## The turn of a userdata -/

/-- What is taken up was not pending. -/
theorem Machine.Doomed.not_mem_pending {m : Machine χ σ} {r : Ref} (hr : m.Doomed r) : r ∉ m.pending := by
  obtain ⟨hn, u, -, -, hu, -⟩ := hr
  intro hp
  exact hn (.root (Or.inr (Or.inr (Or.inr (Or.inr hp)))) (Heap.contains_of_object? hu))

/-- A userdata taken up has one turn, and no other one. -/
theorem exists_turn {c : Caller χ σ} {m : Machine χ σ} {r : Ref} (hr : m.Doomed r) :
    ∃ before t after, turns c m.swept.pending m.swept = before ++ t :: after ∧ t.subject = r ∧
      ∀ t' ∈ before ++ after, t'.subject ≠ r := by
  obtain ⟨l, l', hl⟩ := List.append_of_mem (Machine.mem_doomed_iff.2 hr)
  have hnodup := m.nodup_doomed
  rw [hl] at hnodup
  have hpending : m.swept.pending = (m.pending ++ l) ++ r :: l' := by
    rw [List.append_assoc, ← hl]
    rfl
  have hmap := map_subject_turns (c := c) m.swept.pending m.swept
  rw [hpending] at hmap ⊢
  obtain ⟨before, rest, hturns, hbefore, hrest⟩ := List.map_eq_append_iff.1 hmap
  obtain ⟨t, after, rfl, ht, hafter⟩ := List.map_eq_cons_iff.1 hrest
  refine ⟨before, t, after, hturns, ht, ?_⟩
  rintro t' ht' rfl
  have hmem : t'.subject ∈ m.pending ∨ t'.subject ∈ l ∨ t'.subject ∈ l' := by
    rcases List.mem_append.1 ht' with h | h
    · have := List.mem_map_of_mem (f := Turn.subject) h
      rw [hbefore, List.mem_append] at this
      exact this.imp_right Or.inl
    · have := List.mem_map_of_mem (f := Turn.subject) h
      rw [hafter] at this
      exact Or.inr (Or.inr this)
  have hparts := List.nodup_append.1 hnodup
  rcases hmem with h | h | h
  · exact hr.not_mem_pending h
  · exact hparts.2.2 _ h _ (by simp) rfl
  · exact (List.nodup_cons.1 hparts.2.1).1 h

/-! ## Finalizers that the sweep leaves -/

/-- A metatable loses its finalizer if it holds its values weakly and the function does not survive. -/
theorem Machine.loses_function_iff {m : Machine χ σ} {t : Table} {name : String} {f : Ref} {function : NativeFunction χ}
    (hfunction : m.heap.function f = .ok function) :
    m.Loses t (.string name, .function f) ↔ m.heap.ModeSays t 'v' ∧ ¬m.Survives f := by
  constructor
  · rintro (⟨-, s, hs, -⟩ | ⟨hv, s, hs, h⟩)
    · cases hs
    · cases hs
      refine ⟨hv, h.resolve_right ?_⟩
      rintro ⟨u, hu, -⟩
      rw [Heap.function_eq_ok_iff.1 hfunction] at hu
      cases hu
  · exact fun h => Or.inr ⟨h.1, f, rfl, Or.inl h.2⟩

/-- The finalizer that the sweep leaves in the metatable of a userdata that survives: the one that was there, if it is not
lost, and then the function is there too. -/
theorem Machine.finalizer?_swept {m : Machine χ σ} (hw : m.heap.WellFormed) {r mt f : Ref} {u : Userdata} {named : Table}
    {function : NativeFunction χ} (hr : m.Survives r) (hu : m.heap.object? r = some (.userdata u))
    (hmt : u.metatable = some mt) (hnamed : m.heap.object? mt = some (.table named))
    (hf : named.field "__gc" = .function f) (hfunction : m.heap.function f = .ok function) :
    ((m.heap.ModeSays named 'v' → m.Survives f) → m.swept.finalizer? r = some (.function f) ∧
      m.swept.heap.function f = .ok function) ∧
    (¬(m.heap.ModeSays named 'v' → m.Survives f) → m.swept.finalizer? r = none) := by
  have hmts : m.Survives mt := hr.held (.classOf hu hmt) (Heap.contains_of_object? hnamed)
  have hfind : named.find? (.string "__gc") = some (.function f) := Table.find?_of_get hf (by simp)
  obtain ⟨hlost, hkept⟩ := Machine.find?_remaining (m := m) (hw.unique _ _ hnamed) hfind
  have hfield : m.swept.metafield (.userdata r) "__gc" =
      .ok (Table.field { named with entries := m.remaining named } "__gc") := by
    simp only [metafield, metatable, rawField, Heap.userdata_eq_ok_iff.2 (swept_userdata hr hu), hmt,
      Heap.table_eq_ok_iff.2 (swept_table hmts hnamed)]
  constructor
  · intro h
    have hn : ¬m.Loses named (.string "__gc", .function f) := by
      rw [loses_function_iff hfunction]
      exact fun hl => hl.2 (h hl.1)
    have hfs : m.Survives f := by
      by_cases hv : m.heap.ModeSays named 'v'
      · exact h hv
      · have hfind : named.find? (.string "__gc") = some (.function f) := by
          unfold Table.field Table.get at hf
          cases hg : named.find? (.string "__gc") with
          | none => rw [hg] at hf; cases hf
          | some w => rw [hg] at hf; exact congrArg some hf
        exact hmts.held (.value hnamed hv (Table.mem_of_find? hfind) rfl)
          (Heap.contains_of_object? (Heap.function_eq_ok_iff.1 hfunction))
    refine ⟨?_, Heap.function_eq_ok_iff.2 (swept_function hfs (Heap.function_eq_ok_iff.1 hfunction))⟩
    simp only [finalizer?, hfield, Table.field, Table.get, hkept hn, Option.getD_some]
  · intro h
    have hl : m.Loses named (.string "__gc", .function f) := by
      rw [loses_function_iff hfunction]
      exact Classical.not_imp.1 h
    simp only [finalizer?, hfield, Table.field, Table.get, hlost hl, Option.getD_none]

/-! ## Exactly which finalizers are entered -/

/-- Of the userdata that a collection takes up, take one whose metatable holds a function under `__gc`. It has one turn before
the collection is over. If no earlier finalizer has changed what is under `__gc`, the body of the function is entered in that
turn, with the userdata as its only argument, exactly when there was room for one more call where the collection was asked
for, and the metatable does not hold the function weakly without anything else that keeps it. Otherwise nothing is entered, and
nothing comes of the turn. -/
theorem finalizer_entered_iff {Γ : Host χ σ} {P : Machine χ σ → Request χ σ → Prop} {m : Machine χ σ}
    (hm : Reached Γ P m) (hc : m.collecting = false) {r mt f : Ref} {u : Userdata} {named : Table}
    {function : NativeFunction χ} (hr : m.Doomed r) (hu : m.heap.object? r = some (.userdata u))
    (hmt : u.metatable = some mt) (hnamed : m.heap.object? mt = some (.table named))
    (hf : named.field "__gc" = .function f) (hfunction : m.heap.function f = .ok function) :
    (∃ s, (Action.collect (call Γ) m).2 =
      (((turns (call Γ) m.swept.pending m.swept).getLast?.map (Turn.after (call Γ))).getD m.swept).finish s) ∧
    ∃ before t after, turns (call Γ) m.swept.pending m.swept = before ++ t :: after ∧ t.subject = r ∧
      (∀ t' ∈ before ++ after, t'.subject ≠ r) ∧
      (t.finalizer? = m.swept.finalizer? r →
        (m.HasRoom 1 ∧ (m.heap.ModeSays named 'v' → m.Survives f) →
          t.entered? = some function ∧
          t.after (call Γ) = (function.code.run Γ (call Γ) ⟨[.userdata r], function.upvalues⟩
            (t.machine.enter (.function f) [.userdata r])).2.leave t.machine.stack.size) ∧
        (¬(m.HasRoom 1 ∧ (m.heap.ModeSays named 'v' → m.Survives f)) →
          t.entered? = none ∧ t.after (call Γ) = t.machine)) := by
  refine ⟨⟨_, collect_snd hc⟩, ?_⟩
  obtain ⟨before, t, after, hturns, rfl, hother⟩ := exists_turn (c := call Γ) hr
  have ht : t ∈ turns (call Γ) m.swept.pending m.swept := by simp [hturns]
  have hroom : t.machine.HasRoom 1 ↔ m.HasRoom 1 := hasRoom_turn_iff Γ (m := m.swept) rfl ht
  obtain ⟨hleft, hgone⟩ := Machine.finalizer?_swept hm.wellFormed hr.survives hu hmt hnamed hf hfunction
  refine ⟨before, t, after, hturns, rfl, hother, fun hsame => ⟨?_, ?_⟩⟩
  · rintro ⟨h, hv⟩
    obtain ⟨hfin, hswept⟩ := hleft hv
    rw [hfin] at hsame
    -- nothing is freed between the sweep and the turn
    have hthere : t.machine.heap.function f = .ok function :=
      (turn_grown Γ _ (m := m.swept) rfl (Machine.wellFormed_swept hm.wellFormed) ht).function hswept
    have hcallee : t.machine.callee (.function f) [.userdata t.subject] = .ok function :=
      Machine.callee_eq_ok_iff.2 ⟨hroom.2 h, hthere⟩
    constructor
    · simp only [Turn.entered?, hsame, Option.bind_some, hcallee]
      rfl
    · simp only [Turn.after, hsame, call_of_callee Γ hcallee]
  · intro h
    by_cases hv : m.heap.ModeSays named 'v' → m.Survives f
    · have hn : ¬t.machine.HasRoom [Value.userdata t.subject].length := fun h' => h ⟨hroom.1 h', hv⟩
      have hcall := call_of_not_hasRoom Γ f [.userdata t.subject] hn
      rw [(hleft hv).1] at hsame
      constructor
      · simp only [Turn.entered?, hsame, Option.bind_some, Machine.callee_of_not_hasRoom hn]
        rfl
      · simp only [Turn.after, hsame, hcall]
    · rw [hgone hv] at hsame
      constructor
      · simp only [Turn.entered?, hsame, Option.bind_none]
      · simp only [Turn.after, hsame]

/-! ## With room and without -/

/-- A host with a function that collects, under `true`, and one that does nothing. -/
def collectingHost : Host Bool Unit := fun code _ =>
  if code then Prog.request .collect >>= fun _ => pure [] else pure []

/-- Makes a userdata with a finalizer, keeps nothing of it, and makes a function that collects. -/
def dropUserdata : Prog Bool Unit Unit := do
  let mt ← Prog.request .newTable
  let finalizer ← Prog.request (.newFunction "finalizer" (.host false) [])
  Prog.request (.rawSet mt (.string "__gc") (.function finalizer))
  let u ← Prog.request (.newUserdata .unit)
  Prog.request (.setMetatable (.userdata u) (some mt))
  let _ ← Prog.request (.newFunction "clean" (.host true) [])

/-- A new machine with the limits, after that. -/
def afterDrop (limits : Limits) : Machine Bool Unit := (dropUserdata.exec collectingHost (.start limits ())).2

theorem reached_afterDrop (limits : Limits) : Reached collectingHost (fun _ _ => True) (afterDrop limits) :=
  (Reached.start limits ()).exec dropUserdata (Prog.obeys_all _ _)

/-- The machine in the middle of the call of the function that collects, where no call may be inside another one. -/
def insideClean : Machine Bool Unit := (afterDrop ⟨1, 100, 8000⟩).enter (.function ⟨5, 0⟩) []

theorem reached_insideClean : Reached collectingHost (fun _ _ => True) insideClean := by
  have hf : (afterDrop ⟨1, 100, 8000⟩).heap.function ⟨5, 0⟩ = .ok ⟨"clean", .host true, []⟩ :=
    Heap.function_eq_ok_iff.2 (by decide +kernel)
  exact (reached_afterDrop _).enter (Machine.callee_eq_ok_iff.2 ⟨⟨by decide +kernel, by decide +kernel⟩, hf⟩)

/-- At the top of a machine with the standard limits the finalizer is entered. -/
theorem finalizer_entered_afterDrop :
    ∃ t ∈ turns (call collectingHost) (afterDrop .standard).swept.pending (afterDrop .standard).swept,
      t.subject = ⟨4, 0⟩ ∧ t.entered? = some ⟨"finalizer", .host false, []⟩ := by
  have hr : (afterDrop .standard).Doomed ⟨4, 0⟩ := Machine.mem_doomed_iff.1 (by decide +kernel)
  have hstrong : ¬(afterDrop .standard).heap.ModeSays ⟨[(.string "__gc", .function ⟨3, 0⟩)], none⟩ 'v' :=
    Heap.not_modeSays_of_metatable_none rfl 'v'
  have hsame : ∀ t ∈ turns (call collectingHost) (afterDrop .standard).swept.pending (afterDrop .standard).swept,
      t.finalizer? = (afterDrop .standard).swept.finalizer? ⟨4, 0⟩ := by decide +kernel
  have hu : (afterDrop .standard).heap.object? ⟨4, 0⟩ = some (.userdata ⟨.unit, some ⟨2, 0⟩, none, false⟩) := by
    decide +kernel
  have hnamed : (afterDrop .standard).heap.object? ⟨2, 0⟩ =
      some (.table ⟨[(.string "__gc", .function ⟨3, 0⟩)], none⟩) := by decide +kernel
  have hfunction : (afterDrop .standard).heap.function ⟨3, 0⟩ = .ok ⟨"finalizer", .host false, []⟩ :=
    Heap.function_eq_ok_iff.2 (by decide +kernel)
  obtain ⟨-, before, t, after, hturns, hsubject, -, h⟩ :=
    finalizer_entered_iff (reached_afterDrop .standard) (by decide +kernel) hr hu rfl hnamed rfl hfunction
  have ht : t ∈ turns (call collectingHost) (afterDrop .standard).swept.pending (afterDrop .standard).swept := by
    simp [hturns]
  exact ⟨t, ht, hsubject, ((h (hsame t ht)).1 ⟨⟨by decide +kernel, by decide +kernel⟩, fun hv => absurd hv hstrong⟩).1⟩

/-- That every finalizer whose function is still in its place at its turn is entered is false: inside a call at the greatest
depth the collection flags the userdata, and the limits refuse the call of its finalizer. -/
theorem finalizer_always_entered_false :
    ¬∀ (Γ : Host Bool Unit) (m : Machine Bool Unit) (r f : Ref) (function : NativeFunction Bool),
      Reached Γ (fun _ _ => True) m → m.collecting = false → m.Doomed r →
      m.finalizer? r = some (.function f) → m.heap.function f = .ok function →
      (∀ t ∈ turns (call Γ) m.swept.pending m.swept, t.subject = r →
        t.finalizer? = some (.function f) ∧ t.machine.heap.function f = .ok function) →
      ∃ t ∈ turns (call Γ) m.swept.pending m.swept, t.subject = r ∧ t.entered? = some function := by
  intro hall
  have hturns : ∀ t ∈ turns (call collectingHost) insideClean.swept.pending insideClean.swept,
      t.finalizer? = some (.function ⟨3, 0⟩) ∧ t.machine.heap.object? ⟨3, 0⟩ = some (.function ⟨"finalizer", .host false, []⟩) ∧
        t.entered? = none := by
    decide +kernel
  obtain ⟨t, ht, -, hentered⟩ := hall collectingHost insideClean ⟨4, 0⟩ ⟨3, 0⟩ ⟨"finalizer", .host false, []⟩
    reached_insideClean (by decide +kernel) (Machine.mem_doomed_iff.1 (by decide +kernel)) (by decide +kernel)
    (Heap.function_eq_ok_iff.2 (by decide +kernel))
    (fun t ht _ => ⟨(hturns t ht).1, Heap.function_eq_ok_iff.2 (hturns t ht).2.1⟩)
  rw [(hturns t ht).2.2] at hentered
  cases hentered

end ScriptHost

import ScriptHost.Proofs.Passage

/-!
# Finalizers are for garbage, and have one turn

A collection gives a turn to the userdata that it takes up, and flags them before the first turn begins. A flag lasts as long as
its userdata (`Path.isFinalized_or_freed`), and what is flagged is not taken up. So of all collections of a run at most one gives a
userdata a turn, whatever bodies and finalizers do in between (`finalized_once`): they may publish the userdata again, change or
remove its metatable, or ask for further collections.
-/

namespace ScriptHost

variable {χ σ α : Type}

/-! ## A flag lasts as long as its userdata -/

namespace Heap

theorem isFinalized_eq_true_iff {h : Heap χ} {r : Ref} :
    h.isFinalized r = true ↔ ∃ u, h.object? r = some (.userdata u) ∧ u.finalized = true := by
  unfold isFinalized
  cases hu : h.userdata r with
  | error e =>
    simp only [Bool.false_eq_true, false_iff]
    rintro ⟨u, ho, -⟩
    cases hu.symm.trans (userdata_eq_ok_iff.2 ho)
  | ok u =>
    have ho := userdata_eq_ok_iff.1 hu
    simp only [ho, Option.some.injEq, Object.userdata.injEq, exists_eq_left']

/-- What grows loses no flag. -/
theorem Grown.isFinalized {h h' : Heap χ} (hg : h.Grown h') {r : Ref} (hr : h.isFinalized r = true) :
    h'.isFinalized r = true := by
  obtain ⟨u, hu, hf⟩ := isFinalized_eq_true_iff.1 hr
  obtain ⟨_, ho, u', rfl, hf'⟩ := hg r _ hu
  exact isFinalized_eq_true_iff.2 ⟨u', ho, hf'.trans hf⟩

theorem Grown.contains {h h' : Heap χ} (hg : h.Grown h') {r : Ref} (hr : h.contains r = true) : h'.contains r = true := by
  obtain ⟨o, ho⟩ := contains_iff.1 hr
  obtain ⟨o', ho', -⟩ := hg r o ho
  exact contains_of_object? ho'

end Heap

namespace Machine

variable {m : Machine χ σ} {r : Ref}

/-- A sweep takes the flag off nothing that survives. -/
theorem Survives.isFinalized_swept (hr : m.Survives r) (hf : m.heap.isFinalized r = true) :
    m.swept.heap.isFinalized r = true := by
  obtain ⟨u, hu, hf⟩ := Heap.isFinalized_eq_true_iff.1 hf
  exact Heap.isFinalized_eq_true_iff.2 ⟨_, swept_userdata hr hu, by rw [hf, Bool.true_or]⟩

/-- What is taken up is flagged. -/
theorem Doomed.isFinalized_swept (hr : m.Doomed r) : m.swept.heap.isFinalized r = true := by
  obtain ⟨-, u, -, -, hu, -⟩ := id hr
  refine Heap.isFinalized_eq_true_iff.2 ⟨_, swept_userdata hr.survives hu, ?_⟩
  rw [decide_eq_true (mem_doomed_iff.2 hr), Bool.or_true]

/-- What is flagged is not taken up. -/
theorem Doomed.isFinalized_eq_false (hr : m.Doomed r) : m.heap.isFinalized r = false := by
  obtain ⟨-, u, -, -, hu, hf, -⟩ := hr
  refine Bool.eq_false_iff.2 fun h => ?_
  obtain ⟨u', hu', hf'⟩ := Heap.isFinalized_eq_true_iff.1 h
  cases hu.symm.trans hu'
  exact Bool.false_ne_true (hf.symm.trans hf')

theorem pairwise_doomed (m : Machine χ σ) : m.doomed.Pairwise fun r s => r.slot < s.slot :=
  (m.heap.pairwise_refs.filter _).filter _

end Machine

/-- A collection among the moments frees what is at the reference. -/
def Freed (l : List (Moment χ σ)) (r : Ref) : Prop :=
  ∃ m, .request .collect m ∈ l ∧ m.collecting = false ∧ m.heap.contains r = true ∧ m.swept.heap.contains r = false

variable {Γ : Host χ σ} {m m' : Machine χ σ} {N : Moment χ σ} {l l' : List (Moment χ σ)} {r : Ref}

/-- Along a path a flag lasts until a collection frees its userdata. -/
theorem Path.isFinalized_or_freed (h : Path m l m') (hm : m.Settled) (hr : m.heap.isFinalized r = true) :
    m'.heap.isFinalized r = true ∨ Freed l r := by
  induction h with
  | nil hkeep => exact Or.inl ((hkeep hm).2.isFinalized hr)
  | @cons m m' N l hkeep _ ih =>
    obtain ⟨hN, hgrown⟩ := hkeep hm
    have hr := hgrown.isFinalized hr
    have hrest : N.onward.Settled → N.onward.heap.isFinalized r = true → m'.heap.isFinalized r = true ∨ Freed (N :: l) r :=
      fun hm hr => (ih hm hr).imp_right fun ⟨m₀, hm₀, hfree⟩ => ⟨m₀, List.mem_cons_of_mem _ hm₀, hfree⟩
    rcases N.onward_cases with he | ⟨m₀, rfl, hc, he⟩
    · exact hrest (he ▸ hN) (he ▸ hr)
    · by_cases hs : m₀.Survives r
      · exact hrest (he ▸ hN.swept) (he ▸ hs.isFinalized_swept hr)
      · obtain ⟨u, hu, -⟩ := Heap.isFinalized_eq_true_iff.1 hr
        have hfreed : m₀.swept.heap.contains r = false := Bool.eq_false_iff.2 (mt Machine.contains_swept_iff.1 hs)
        exact Or.inr ⟨m₀, List.mem_cons_self, hc, Heap.contains_of_object? hu, hfreed⟩

/-! ## The turns of a collection -/

/-- The turns of a collection that is asked for on the machine. -/
def Machine.collectionTurns (Γ : Host χ σ) (m : Machine χ σ) : List (Turn χ σ) := turns (call Γ) m.swept.pending m.swept

namespace Machine

variable {t : Turn χ σ}

/-- The turns are those of the userdata taken up. -/
theorem Settled.map_subject (hm : m.Settled) (hc : m.collecting = false) :
    (m.collectionTurns Γ).map Turn.subject = m.doomed := by
  rw [collectionTurns, map_subject_turns]
  show m.pending ++ m.doomed = m.doomed
  rw [hm.calm hc, List.nil_append]

theorem Settled.doomed_subject (hm : m.Settled) (hc : m.collecting = false) (ht : t ∈ m.collectionTurns Γ) :
    m.Doomed t.subject := by
  have hmem := List.mem_map_of_mem (f := Turn.subject) ht
  rw [hm.map_subject hc] at hmem
  exact mem_doomed_iff.1 hmem

/-- They come in ascending order of the slots. -/
theorem Settled.pairwise_slot (hm : m.Settled) (hc : m.collecting = false) :
    (m.collectionTurns Γ).Pairwise fun t t' => t.subject.slot < t'.subject.slot := by
  have h := m.pairwise_doomed
  rw [← hm.map_subject (Γ := Γ) hc] at h
  exact (List.pairwise_map (f := Turn.subject)).1 h

end Machine

/-! ## Every collection of a run -/

theorem settled_of_mem_trace {p : Prog χ σ α} {limits : Limits} {host : σ}
    (h : N ∈ p.trace Γ (.start limits host)) : N.before.Settled := by
  obtain ⟨l, l', hl⟩ := List.append_of_mem h
  have hpath := Prog.path_trace Γ p (.start limits host)
  rw [hl] at hpath
  exact hpath.split.1.settled (Machine.settled_start limits host)

/-- A collection and a later one of the same run give turns to different userdata, or a collection in between frees the first. -/
theorem subject_ne_or_freed {p : Prog χ σ α} {limits : Limits} {host : σ} {before middle after : List (Moment χ σ)}
    (h : p.trace Γ (.start limits host) = before ++ .request .collect m :: (middle ++ .request .collect m' :: after))
    (hc : m.collecting = false) (hc' : m'.collecting = false) {t t' : Turn χ σ} (ht : t ∈ m.collectionTurns Γ)
    (ht' : t' ∈ m'.collectionTurns Γ) : t'.subject ≠ t.subject ∨ Freed middle t.subject := by
  have hm : m.Settled := settled_of_mem_trace (N := .request .collect m) (p := p) (by rw [h]; simp)
  have hm' : m'.Settled := settled_of_mem_trace (N := .request .collect m') (p := p) (by rw [h]; simp)
  have hpath := Prog.path_trace Γ p (.start limits host)
  rw [h] at hpath
  have honward : (Moment.request .collect m).onward = m.swept := if_neg (Bool.eq_false_iff.1 hc)
  have hmiddle : Path m.swept middle m' := honward ▸ hpath.split.2.split.1
  refine (hmiddle.isFinalized_or_freed hm.swept (hm.doomed_subject hc ht).isFinalized_swept).imp_left fun hflag he => ?_
  have hdoomed := hm'.doomed_subject hc' ht'
  rw [he] at hdoomed
  exact Bool.false_ne_true (hdoomed.isFinalized_eq_false.symm.trans hflag)

/-- In a run of a program on a new machine, whatever the functions of the host do: a collection that is begun has its turns in
ascending order of the slots and is over after the last one. Each turn is that of a userdata which the roots did not keep when the
collection began, and when it comes the userdata is live with all that it strongly reached at the end of the sweep; to the end of
the collection nothing that the sweep left is freed. And no userdata has a turn in two collections: if a later collection has a
turn of the same reference, the userdata was freed by a collection in between, and the reference is to another one. -/
theorem finalized_once (Γ : Host χ σ) (p : Prog χ σ α) (limits : Limits) (host : σ) :
    (∀ m, .request .collect m ∈ p.trace Γ (.start limits host) → m.collecting = false →
      (∃ s, (Action.collect (call Γ) m).2 =
        (((m.collectionTurns Γ).getLast?.map (Turn.after (call Γ))).getD m.swept).finish s) ∧
      ((m.collectionTurns Γ).Pairwise fun t t' => t.subject.slot < t'.subject.slot) ∧
      (∀ t ∈ m.collectionTurns Γ, ¬m.heap.Kept m.IsRoot t.subject ∧ t.machine.heap.contains t.subject = true ∧
        ∀ s, m.swept.heap.Kept (· = t.subject) s → t.machine.heap.contains s = true) ∧
      m.swept.heap.Grown (Action.collect (call Γ) m).2.heap) ∧
    ∀ before m middle m' after,
      p.trace Γ (.start limits host) = before ++ .request .collect m :: (middle ++ .request .collect m' :: after) →
      m.collecting = false → m'.collecting = false →
      ∀ t ∈ m.collectionTurns Γ, ∀ t' ∈ m'.collectionTurns Γ, t'.subject ≠ t.subject ∨ Freed middle t.subject := by
  refine ⟨fun m hmem hc => ?_, fun before m middle m' after h hc hc' t ht t' ht' => subject_ne_or_freed h hc hc' ht ht'⟩
  have hm : m.Settled := settled_of_mem_trace hmem
  have hcollect := collect_eq (c := call Γ) hc
  have hend : ∃ s, (Action.collect (call Γ) m).2 = ((Action.finalizeAll (call Γ) m.swept.pending m.swept).2).finish s :=
    ⟨_, by rw [hcollect]⟩
  obtain ⟨hturns, hgrown⟩ := finalizeAll_grown Γ m.swept.pending (m := m.swept) rfl hm.swept.wellFormed
  obtain ⟨s, hs⟩ := hend
  refine ⟨⟨_, collect_snd hc⟩, hm.pairwise_slot hc, fun t ht => ?_, by rw [hs]; exact hgrown⟩
  have hdoomed := hm.doomed_subject hc ht
  have hlive : m.swept.heap.contains t.subject = true := Machine.contains_swept_iff.2 hdoomed.survives
  exact ⟨hdoomed.1, (hturns t ht).contains hlive, fun s hs => (hturns t ht).contains hs.contains⟩

/-! ## Two collections, each with a turn -/

namespace Prog

variable {β : Type} {c : Caller χ σ}

theorem asked_request (r : Request χ σ) (m : Machine χ σ) : (request r).asked c m = [(r, m)] := by
  show (r, m) :: (ofExcept (r.perform c m).1).asked c _ = _
  cases (r.perform c m).1 <;> rfl

theorem run_request (r : Request χ σ) (m : Machine χ σ) : (request r).run c m = r.perform c m := by
  show (ofExcept (r.perform c m).1).run c (r.perform c m).2 = _
  rcases r.perform c m with ⟨e | a, m'⟩ <;> rfl

/-- A program that is over asks nothing more, and the next one asks from there on. -/
theorem asked_bind {p : Prog χ σ α} {m : Machine χ σ} {a : α} (f : α → Prog χ σ β) (ha : (p.run c m).1 = .ok a) :
    (p >>= f).asked c m = p.asked c m ++ (f a).asked c (p.run c m).2 := by
  show (p.bind f).asked c m = _
  induction p generalizing m with
  | done b =>
    cases ha
    rfl
  | fail e => cases ha
  | ask r next ih => exact congrArg ((r, m) :: ·) (ih _ ha)

/-- Two requests that the program asks one after the other come in this order in the run. -/
theorem exists_trace_of_asked {p : Prog χ σ α} {m₀ m m' : Machine χ σ} {r r' : Request χ σ}
    {l l' l'' : List (Request χ σ × Machine χ σ)} (h : p.asked (call Γ) m₀ = l ++ (r, m) :: (l' ++ (r', m') :: l'')) :
    ∃ before middle after, p.trace Γ m₀ = before ++ .request r m :: (middle ++ .request r' m' :: after) := by
  unfold trace
  rw [h]
  simp only [List.flatMap_append, List.flatMap_cons, Moment.trace_eq (Moment.request r m), Moment.trace_eq (Moment.request r' m'),
    List.cons_append, ← List.append_assoc]
  exact ⟨_, _, _, rfl⟩

end Prog

/-- Drops a userdata with a finalizer, collects, and does the same again. -/
def dropTwice : Prog Bool Unit Nat := do
  dropUserdata
  let _ ← Prog.request .collect
  dropUserdata
  Prog.request .collect

/-- The machine after the first collection. -/
def afterFirst : Machine Bool Unit := (Action.collect (call collectingHost) (afterDrop .standard)).2

/-- The machine at the second one. -/
def beforeSecond : Machine Bool Unit := (dropUserdata.exec collectingHost afterFirst).2

theorem asked_dropTwice : dropTwice.asked (call collectingHost) (.start .standard ()) =
    dropUserdata.asked (call collectingHost) (.start .standard ()) ++ (.collect, afterDrop .standard) ::
      (dropUserdata.asked (call collectingHost) afterFirst ++ (.collect, beforeSecond) :: []) := by
  have hfirst : (dropUserdata.run (call collectingHost) (.start .standard ())).1 = .ok () := eq_ok_of_toOption (by decide +kernel)
  have hcollect : ((Prog.request .collect).run (call collectingHost) (afterDrop .standard)).1 = .ok 1 :=
    eq_ok_of_toOption (by decide +kernel)
  have hsecond : (dropUserdata.run (call collectingHost) afterFirst).1 = .ok () := eq_ok_of_toOption (by decide +kernel)
  unfold dropTwice
  rw [Prog.asked_bind _ hfirst, List.append_cancel_left_eq]
  show ((Prog.request .collect : Prog Bool Unit Nat) >>= _).asked _ (afterDrop .standard) = _
  rw [Prog.asked_bind _ hcollect, Prog.asked_request, Prog.run_request, List.singleton_append, List.cons_eq_cons]
  refine ⟨rfl, ?_⟩
  show (dropUserdata >>= _).asked _ afterFirst = _
  rw [Prog.asked_bind _ hsecond, Prog.asked_request]
  rfl

/-- Each collection has a turn, of a userdata of its own, which nothing kept. -/
theorem finalized_once_dropTwice :
    ∃ before middle after, dropTwice.trace collectingHost (.start .standard ()) =
        before ++ .request .collect (afterDrop .standard) :: (middle ++ .request .collect beforeSecond :: after) ∧
      ∃ t ∈ (afterDrop .standard).collectionTurns collectingHost, ∃ t' ∈ beforeSecond.collectionTurns collectingHost,
        t.subject = ⟨4, 0⟩ ∧ t'.subject = ⟨7, 0⟩ ∧
        ¬(afterDrop .standard).heap.Kept (afterDrop .standard).IsRoot t.subject ∧
        t.machine.heap.contains t.subject = true ∧ (t'.subject ≠ t.subject ∨ Freed middle t.subject) := by
  obtain ⟨before, middle, after, htrace⟩ := Prog.exists_trace_of_asked asked_dropTwice
  obtain ⟨hone, htwo⟩ := finalized_once collectingHost dropTwice .standard ()
  have hc : (afterDrop .standard).collecting = false := by decide +kernel
  have hc' : beforeSecond.collecting = false := by decide +kernel
  obtain ⟨t, ht, hsubject⟩ : ∃ t ∈ (afterDrop .standard).collectionTurns collectingHost, t.subject = ⟨4, 0⟩ := by
    decide +kernel
  obtain ⟨t', ht', hsubject'⟩ : ∃ t' ∈ beforeSecond.collectionTurns collectingHost, t'.subject = ⟨7, 0⟩ := by
    decide +kernel
  obtain ⟨-, -, hlive, -⟩ := hone (afterDrop .standard) (by rw [htrace]; simp) hc
  exact ⟨before, middle, after, htrace, t, ht, t', ht', hsubject, hsubject', (hlive t ht).1, (hlive t ht).2.1,
    htwo before _ middle _ after htrace hc hc' t ht t' ht'⟩

end ScriptHost

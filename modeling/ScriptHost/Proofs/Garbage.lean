import ScriptHost.Proofs.Accounting

/-!
# Garbage is gone after two collections

A collection keeps what it takes up, with all that holds on to, until the next one. What it takes up is flagged, so nothing that the
roots did not keep at the beginning is taken up by the next collection as well; and no object holds on to more after a sweep than
before it, for a table that holds something weakly goes on doing so (`Machine.holds_of_swept`). If the finalizers leave the graph as
they find it (`Machine.SameGraph`), the second collection therefore keeps nothing but what the roots kept at the beginning of the
first (`Machine.SameGraph.kept_of_survives`). What is freed stays gone although its slot may be used again, because the slot is of
another generation by then (`Heap.Outdated`).
-/

namespace ScriptHost

variable {χ σ : Type}

/-! ## References whose slot has moved on -/

namespace Heap

variable {h h' : Heap χ} {r s : Ref} {refs : List Ref} {ds : List Deed}

/-- The slot of the reference is of another generation, so whatever is in it or will be made there is not found by the reference. -/
def Outdated (h : Heap χ) (r : Ref) : Prop := ∃ s, h.slots[r.slot]? = some s ∧ s.generation ≠ r.generation

theorem Outdated.not_contains (hr : h.Outdated r) : h.contains r = false := by
  obtain ⟨s, hs, hg⟩ := hr
  simp [contains, object?, hs, hg]

theorem Outdated.overwrite (hr : h.Outdated r) (hw : h.Overwrites h') : h'.Outdated r := by
  obtain ⟨s, hs, hg⟩ := hr
  have hsame := hw.place r.slot
  rw [hs] at hsame
  obtain ⟨s', hs', heq⟩ := Option.map_eq_some_iff.1 hsame
  exact ⟨s', hs', by rwa [show s'.generation = s.generation from congrArg Prod.fst heq]⟩

theorem Outdated.allocate (hr : h.Outdated r) (o : Object χ) : (h.allocate o).2.Outdated r := by
  obtain ⟨s, hs, hg⟩ := hr
  have hlt : r.slot < h.capacity := (Array.getElem?_eq_some_iff.1 hs).1
  obtain ⟨s', hs'⟩ : ∃ s', (h.allocate o).2.slots[r.slot]? = some s' :=
    ⟨_, Array.getElem?_eq_getElem (Nat.lt_of_lt_of_le hlt (h.capacity_le_allocate o))⟩
  refine ⟨s', hs', ?_⟩
  rcases generation_allocate hs' with ⟨s'', hs'', heq⟩ | ⟨he, -⟩
  · rw [hs] at hs''
    cases hs''
    rwa [← heq]
  · exact absurd he (Nat.ne_of_lt hlt)

theorem slots_release (hs : h.contains s = true) :
    (h.release s).slots = h.slots.modify s.slot fun x => ⟨x.generation + 1, none⟩ := by
  unfold release
  rw [if_pos hs]

theorem contains_release_iff : (h.release s).contains r = true ↔ r ≠ s ∧ h.contains r = true := by
  unfold contains
  rw [object?_release]
  by_cases he : r = s <;> simp [he]

/-- Freeing another slot. -/
theorem Outdated.release (hr : h.Outdated r) (hs : h.contains s = true) (hne : s.slot ≠ r.slot) : (h.release s).Outdated r := by
  obtain ⟨x, hx, hg⟩ := hr
  exact ⟨x, by rw [slots_release hs, Array.getElem?_modify, if_neg hne, hx], hg⟩

/-- What is freed is outdated: no generation is followed by itself. -/
theorem outdated_release (hr : h.contains r = true) : (h.release r).Outdated r := by
  obtain ⟨o, ho⟩ := contains_iff.1 hr
  obtain ⟨x, hx, hg, -⟩ := object?_eq_some_iff.1 ho
  refine ⟨⟨x.generation + 1, none⟩, by rw [slots_release hr, Array.getElem?_modify, if_pos rfl, hx]; rfl, ?_⟩
  show x.generation + 1 ≠ r.generation
  rw [← hg]
  simp

/-- Deeds that free nothing in its slot leave a reference outdated. -/
theorem Does.outdated (hd : h.Does ds h') (hr : h.Outdated r) (hne : ∀ s, .freed s ∈ ds → s.slot ≠ r.slot) : h'.Outdated r := by
  induction hd with
  | refl => exact hr
  | make _ ho ih => exact (ih fun s hs => hne s (List.mem_append_left _ hs)).allocate _
  | overwrite _ hw ih => exact (ih hne).overwrite hw
  | release _ hs ih =>
    have hr := hne _ (List.mem_append_right _ (List.mem_singleton_self _))
    exact (ih fun s hs => hne s (List.mem_append_left _ hs)).release hs hr

/-- Deeds that only free: what is found after them was found before, and what was found before still is or is outdated. -/
theorem Does.contains_or_outdated (hd : h.Does ds h') (hfreed : ∀ d ∈ ds, ∃ s, d = .freed s) :
    (∀ s, h'.contains s = true → h.contains s = true) ∧ ∀ r, h.contains r = true → h'.contains r = true ∨ h'.Outdated r := by
  induction hd with
  | refl => exact ⟨fun _ hs => hs, fun _ hr => Or.inl hr⟩
  | @make h' ds _ o _ _ =>
    obtain ⟨s, hs⟩ := hfreed (.made (h'.allocate o).1) (by simp)
    cases hs
  | overwrite _ hw ih =>
    obtain ⟨hback, hfound⟩ := ih hfreed
    refine ⟨fun s hs => hback s (by rwa [← hw.contains_eq]), fun r hr => ?_⟩
    rw [hw.contains_eq]
    exact (hfound r hr).imp_right fun h => h.overwrite hw
  | @release h' ds _ s hs ih =>
    obtain ⟨hback, hfound⟩ := ih fun d hd => hfreed d (List.mem_append_left _ hd)
    refine ⟨fun x hx => hback x (contains_release_iff.1 hx).2, fun r hr => ?_⟩
    by_cases he : r = s
    · subst he
      exact Or.inr (outdated_release hs)
    -- nothing else that is found is in the slot of what was found before
    have hne : s.slot ≠ r.slot := fun hslot => he (eq_of_slot_eq hr (hback s hs) hslot.symm)
    exact (hfound r hr).imp (fun hin => contains_release_iff.2 ⟨he, hin⟩) fun hout => hout.release hs hne

end Heap

namespace Machine

variable {m m' : Machine χ σ} {r s : Ref}

/-- What a sweep frees is outdated. -/
theorem outdated_swept (hw : m.heap.WellFormed) (hr : m.heap.contains r = true) (hgone : ¬m.Survives r) :
    m.swept.heap.Outdated r := by
  have hdoes := Machine.does_swept hw
  have hfreed : ∀ d ∈ m.dead.map Deed.freed, ∃ s, d = .freed s := fun d hd => by
    obtain ⟨s, -, rfl⟩ := List.mem_map.1 hd
    exact ⟨s, rfl⟩
  exact ((hdoes.contains_or_outdated hfreed).2 r hr).resolve_left (mt contains_swept_iff.1 hgone)

end Machine

/-- What is outdated stays so while finalizers are called. -/
theorem Heap.Outdated.finalizeAll (Γ : Host χ σ) (refs : List Ref) {m : Machine χ σ} {r : Ref} (hc : m.collecting = true)
    (hw : m.heap.WellFormed) (hr : m.heap.Outdated r) : (Action.finalizeAll (call Γ) refs m).2.heap.Outdated r := by
  let I : Machine χ σ → Prop := fun m' => m'.collecting = true ∧ m'.heap.WellFormed ∧ m'.heap.Outdated r
  have hstable : Stable I (fun _ _ => True) := by
    refine .of_collecting (fun m₁ m₂ h hs => ?_) fun _ h => h.1
    obtain ⟨ds, hd, hmade⟩ := Machine.Steps.does (.single hs) h.2.1
    refine ⟨(congrArg Machine.Frame.collecting hs.frame_eq).trans h.1, hs.wellFormed h.2.1, hd.outdated h.2.2 fun s hs => ?_⟩
    obtain ⟨_, he⟩ := hmade _ hs
    cases he
  have hcall : ∀ f args m', I m' → I (call Γ f args m').2 := fun f args m' hm' =>
    (call_keeps_all Γ hstable (fun _ _ _ h => h) (fun _ _ h => h) f args m' trivial hm').2
  exact (finalizeAll_keeps (I := I) hcall (fun _ _ h => h) refs ⟨hc, hw, hr⟩).2.2.2

/-! ## What a sweep leaves of the graph -/

/-- What holds on to something is there. -/
theorem Heap.Holds.contains {h : Heap χ} {r s : Ref} (hrs : h.Holds r s) : h.contains r = true := by
  cases hrs with
  | metatable ho | key ho | value ho | classOf ho | environment ho | upvalue ho => exact Heap.contains_of_object? ho

namespace Machine

variable {m m' : Machine χ σ} {r s : Ref}

/-- A table that survives and holds something weakly goes on doing so: the text in its metatable is no reference and is not lost. -/
theorem modeSays_swept (hw : m.heap.WellFormed) {t : Table} {letter : Char} (hr : m.Survives r)
    (ht : m.heap.object? r = some (.table t)) (hmode : m.heap.ModeSays t letter) :
    m.swept.heap.ModeSays { t with entries := m.remaining t } letter := by
  obtain ⟨mt, named, mode, hmt, hnamed, hfield, hletter⟩ := hmode
  have hsurvives : m.Survives mt := hr.held (.metatable ht hmt) (Heap.contains_of_object? hnamed)
  refine ⟨mt, _, mode, hmt, swept_table hsurvives hnamed, ?_, hletter⟩
  have hfound : named.find? (.string "__mode") = some (.string mode) := by
    unfold Table.field Table.get at hfield
    cases hv : named.find? (.string "__mode") with
    | none => simp [hv] at hfield
    | some v => simpa [hv] using hfield
  have hkept : ¬m.Loses named (.string "__mode", .string mode) := by
    rintro (⟨-, s, hs, -⟩ | ⟨-, s, hs, -⟩)
    · cases hs
    · cases hs
  unfold Table.field Table.get
  rw [(find?_remaining (hw.unique _ _ hnamed) hfound).2 hkept]
  rfl

/-- No object holds on to more after a sweep than before. -/
theorem holds_of_swept (hw : m.heap.WellFormed) (h : m.swept.heap.Holds r s) : m.heap.Holds r s := by
  have hr : m.Survives r := contains_swept_iff.1 h.contains
  obtain ⟨o, ho⟩ := Heap.contains_iff.1 hr.contains
  cases o with
  | table t =>
    have hswept := swept_table hr ho
    cases h with
    | metatable ht hmt =>
      cases hswept.symm.trans ht
      exact .metatable ho hmt
    | key ht hmode he hk =>
      cases hswept.symm.trans ht
      exact .key ho (fun hm => hmode (modeSays_swept hw hr ho hm)) (mem_remaining_iff.1 he).1 hk
    | value ht hmode he hv =>
      cases hswept.symm.trans ht
      exact .value ho (fun hm => hmode (modeSays_swept hw hr ho hm)) (mem_remaining_iff.1 he).1 hv
    | classOf hu | environment hu | upvalue hu => cases hswept.symm.trans hu
  | userdata u =>
    have hswept := swept_userdata hr ho
    cases h with
    | classOf hu hmt =>
      cases hswept.symm.trans hu
      exact .classOf ho hmt
    | environment hu he =>
      cases hswept.symm.trans hu
      exact .environment ho he
    | metatable ht | key ht | value ht | upvalue ht => cases hswept.symm.trans ht
  | function f =>
    have hswept := swept_function hr ho
    cases h with
    | upvalue hf hv hs =>
      cases hswept.symm.trans hf
      exact .upvalue ho hv hs
    | metatable ht | key ht | value ht | classOf ht | environment ht => cases hswept.symm.trans ht

/-- What still waits for a finalizer after a sweep was kept by the roots: everything else that did was taken up and flagged. -/
theorem kept_of_awaits_swept (hw : m.heap.WellFormed) (h : m.swept.heap.awaitsFinalizer r = true) : m.heap.Kept m.IsRoot r := by
  obtain ⟨u', mt, named', hu', hflag, hmt, hnamed', hgc⟩ := Heap.awaitsFinalizer_iff.1 h
  obtain ⟨hr, u, hu, rfl⟩ := exists_of_swept_userdata hu'
  refine Classical.byContradiction fun hgarbage => ?_
  have hmt' := contains_swept_iff.1 (Heap.contains_of_object? hnamed')
  obtain ⟨named, hnamed, rfl⟩ : ∃ named, m.heap.object? mt = some (.table named) ∧
      named' = { named with entries := m.remaining named } := by
    obtain ⟨o, ho⟩ := Heap.contains_iff.1 hmt'.contains
    cases o with
    | table named =>
      cases (swept_table hmt' ho).symm.trans hnamed'
      exact ⟨named, ho, rfl⟩
    | userdata u => cases (swept_userdata hmt' ho).symm.trans hnamed'
    | function f => cases (swept_function hmt' ho).symm.trans hnamed'
  simp only [Bool.or_eq_false_iff, decide_eq_false_iff_not] at hflag
  refine hflag.2 (mem_doomed_iff.2 ⟨hgarbage, u, mt, named, hu, hflag.1, hmt, hnamed, fun hnil => hgc ?_⟩)
  rcases field_remaining (m := m) (hw.unique _ _ hnamed) "__gc" with he | he
  · exact he.trans hnil
  · exact he

/-! ## Two collections -/

/-- The second machine has the graph of the first: the same objects are live and hold on to each other, the stack and the pins have
the same values, and the metatables say of the same userdata that they wait for a finalizer. -/
structure SameGraph (m m' : Machine χ σ) : Prop where
  contains : ∀ r, m'.heap.contains r = m.heap.contains r
  holds : ∀ r s, m'.heap.Holds r s ↔ m.heap.Holds r s
  awaits : ∀ r, m'.heap.awaitsFinalizer r = m.heap.awaitsFinalizer r
  stack : m'.stack = m.stack
  pins : ∀ p, m'.pins.get? p = m.pins.get? p

theorem SameGraph.of_eq (hheap : m'.heap = m.heap) (hstack : m'.stack = m.stack) (hpins : m'.pins = m.pins) : m.SameGraph m' where
  contains _ := by rw [hheap]
  holds _ _ := by rw [hheap]
  awaits _ := by rw [hheap]
  stack := hstack
  pins _ := by rw [hpins]

/-- With the graph that a sweep has left, the next collection keeps nothing but what the roots kept before the sweep, whether the
roots still keep it or it is taken up. -/
theorem SameGraph.kept_of_survives (h : m.swept.SameGraph m') (hw : m.heap.WellFormed) (hroots : ∀ r, m'.IsRoot r → m.IsRoot r)
    (hr : m'.Survives r) : m.heap.Kept m.IsRoot r := by
  have hcontains : ∀ s, m'.heap.contains s = true → m.heap.contains s = true := fun s hs =>
    (contains_swept_iff.1 ((h.contains s).symm.trans hs)).contains
  have hclosed : ∀ s s', m.heap.Kept m.IsRoot s → m'.heap.Holds s s' → m'.heap.contains s' = true → m.heap.Kept m.IsRoot s' :=
    fun s s' hs he hc => hs.held (holds_of_swept hw ((h.holds s s').1 he)) (hcontains s' hc)
  refine hr.least (fun s hs hc => ?_) hclosed
  rcases hs with hs | hs
  · exact hs.least (fun x hx hc => .root (hroots x hx) (hcontains x hc)) hclosed
  · exact kept_of_awaits_swept hw ((h.awaits s).symm.trans (Heap.awaitsFinalizer_iff.2 hs.2))

/-- The roots after a collection are those before it, if its finalizers leave the stack and the pins alone. -/
theorem isRoot_of_finalizeAll (Γ : Host χ σ) (h : m.swept.SameGraph (Action.finalizeAll (call Γ) m.swept.pending m.swept).2)
    (hr : (Action.finalizeAll (call Γ) m.swept.pending m.swept).2.IsRoot r) : m.IsRoot r := by
  have hbooks := (finalizeAll_books_eq Γ m.swept.pending (m := m.swept) rfl).2
  have hpending := pending_finalizeAll Γ m.swept.pending (m := m.swept) rfl rfl
  rcases hr with hr | hr | ⟨v, hv, hr⟩ | ⟨p, v, hp, hr⟩ | hr
  · exact Or.inl (hr.trans (congrArg Frame.registry hbooks))
  · exact Or.inr (Or.inl (hr.trans (congrArg Frame.globals hbooks)))
  · exact Or.inr (Or.inr (Or.inl ⟨v, h.stack ▸ hv, hr⟩))
  · exact Or.inr (Or.inr (Or.inr (Or.inl ⟨p, v, (h.pins p).symm.trans hp, hr⟩)))
  · rw [hpending] at hr
    exact absurd hr List.not_mem_nil

/-- The sweep of the next collection frees what the roots did not keep before the first one, unless that has freed it. -/
theorem SameGraph.outdated_swept (h : m.swept.SameGraph m') (hw : m.heap.WellFormed) (hw' : m'.heap.WellFormed)
    (hroots : ∀ s, m'.IsRoot s → m.IsRoot s) (hkeep : m.swept.heap.Outdated r → m'.heap.Outdated r)
    (hr : m.heap.contains r = true) (hgarbage : ¬m.heap.Kept m.IsRoot r) : m'.swept.heap.Outdated r := by
  by_cases hs : m.Survives r
  · have hr' : m'.heap.contains r = true := (h.contains r).trans (contains_swept_iff.2 hs)
    exact Machine.outdated_swept hw' hr' (mt (h.kept_of_survives hw hroots) hgarbage)
  · have hout := Machine.outdated_swept hw hr hs
    refine (does_swept hw').outdated (hkeep hout) fun x hx hslot => ?_
    -- what the second sweep frees in this slot would be what the first one has freed
    obtain ⟨_, hdead, ⟨⟩⟩ := List.mem_map.1 hx
    have hx' := contains_swept_iff.1 ((h.contains x).symm.trans (mem_dead_iff.1 hdead).1)
    exact hs (Heap.eq_of_slot_eq hx'.contains hr hslot ▸ hx')

end Machine

/-- Finalizers keep a heap well-formed. -/
theorem finalizeAll_wellFormed (Γ : Host χ σ) (refs : List Ref) {m : Machine χ σ} (hw : m.heap.WellFormed) :
    (Action.finalizeAll (call Γ) refs m).2.heap.WellFormed :=
  (finalizeAll_keeps (I := fun m => m.heap.WellFormed) (fun f args _ hm => call_wellFormed Γ f args hm) (fun _ _ h => h) refs hw).2

/-- Take two collections in a row, asked for while none is under way, where the finalizers of the first leave the graph as they find
it. Whatever was live and not kept by the roots at the beginning of the first is gone after the second, whatever the finalizers of
the second do. -/
theorem garbage_gone_after_two_collections (Γ : Host χ σ) {m : Machine χ σ} (hw : m.heap.WellFormed) (hc : m.collecting = false)
    (hsame : m.swept.SameGraph (Action.finalizeAll (call Γ) m.swept.pending m.swept).2) {r : Ref}
    (hr : m.heap.contains r = true) (hgarbage : ¬m.heap.Kept m.IsRoot r) :
    (Action.collect (call Γ) (Action.collect (call Γ) m).2).2.heap.contains r = false := by
  have hswept : m.swept.heap.WellFormed := Machine.wellFormed_swept hw
  obtain ⟨s, hfirst⟩ : ∃ s, (Action.collect (call Γ) m).2 = (Action.finalizeAll (call Γ) m.swept.pending m.swept).2.finish s :=
    ⟨_, congrArg Prod.snd (collect_eq hc)⟩
  have hw' := finalizeAll_wellFormed Γ m.swept.pending hswept
  have hroots := fun x => Machine.isRoot_of_finalizeAll Γ hsame (r := x)
  have hkeep : m.swept.heap.Outdated r → _ := fun h => h.finalizeAll Γ m.swept.pending rfl hswept
  rw [hfirst]
  generalize (Action.finalizeAll (call Γ) m.swept.pending m.swept).2 = m' at hsame hw' hroots hkeep
  rw [collect_eq (m := m'.finish s) rfl]
  have hsame' : m.swept.SameGraph (m'.finish s) := ⟨hsame.contains, hsame.holds, hsame.awaits, hsame.stack, hsame.pins⟩
  have hsecond : (m'.finish s).swept.heap.WellFormed := Machine.wellFormed_swept hw'
  have hout : (m'.finish s).swept.heap.Outdated r := hsame'.outdated_swept hw hw' hroots hkeep hr hgarbage
  exact (hout.finalizeAll Γ (m'.finish s).swept.pending rfl hsecond).not_contains

/-- Makes a global table with weak values, and a userdata with a finalizer and an environment that refer to each other. The
environment is a value of the weak table. -/
def makeOwned : Prog Bool Unit Unit := do
  let mt ← Prog.request .newTable
  let finalizer ← Prog.request (.newFunction "finalizer" (.host false) [])
  Prog.request (.rawSet mt (.string "__gc") (.function finalizer))
  let weak ← Prog.request .newTable
  let weakly ← Prog.request .newTable
  Prog.request (.rawSet weakly (.string "__mode") (.string "v"))
  Prog.request (.setMetatable (.table weak) (some weakly))
  Prog.request (.rawSet (← Prog.look).globals (.string "cache") (.table weak))
  let u ← Prog.request (.newUserdata .unit)
  Prog.request (.setMetatable (.userdata u) (some mt))
  let env ← Prog.request .newTable
  Prog.request (.setEnvironment u (some env))
  Prog.request (.rawSet env (.string "owner") (.userdata u))
  Prog.request (.rawSet weak (.string "last") (.table env))

/-- A new machine after that. -/
def afterOwned : Machine Bool Unit := (makeOwned.exec collectingHost (.start .standard ())).2

/-- The metatable of the userdata, its finalizer, the userdata and its environment. -/
def owned : List Ref := [⟨2, 0⟩, ⟨3, 0⟩, ⟨6, 0⟩, ⟨7, 0⟩]

/-- The first collection keeps all of it for the finalizer, although nothing keeps it but the weak table; after the second one it is
gone. -/
theorem garbage_gone_afterOwned :
    (∀ r ∈ owned, ¬afterOwned.heap.Kept afterOwned.IsRoot r ∧
      (Action.collect (call collectingHost) afterOwned).2.heap.contains r = true) ∧
    ∀ r ∈ owned,
      (Action.collect (call collectingHost) (Action.collect (call collectingHost) afterOwned).2).2.heap.contains r = false := by
  have hreached : Reached collectingHost (fun _ _ => True) afterOwned :=
    (Reached.start .standard ()).exec makeOwned (Prog.obeys_all _ _)
  have hsame : afterOwned.swept.SameGraph
      (Action.finalizeAll (call collectingHost) afterOwned.swept.pending afterOwned.swept).2 :=
    .of_eq (by decide +kernel) (by decide +kernel) (by decide +kernel)
  have hlive : ∀ r ∈ owned, afterOwned.heap.contains r = true := by decide +kernel
  have hheld : ∀ r ∈ owned, ¬afterOwned.held.has r.slot = true := by decide +kernel
  have hgarbage : ∀ r ∈ owned, ¬afterOwned.heap.Kept afterOwned.IsRoot r := fun r hr =>
    mt (Machine.has_held_iff (hlive r hr)).2 (hheld r hr)
  have hfirst : ∀ r ∈ owned, (Action.collect (call collectingHost) afterOwned).2.heap.contains r = true := by decide +kernel
  refine ⟨fun r hr => ⟨hgarbage r hr, hfirst r hr⟩, fun r hr => ?_⟩
  exact garbage_gone_after_two_collections collectingHost hreached.wellFormed (by decide +kernel) hsame (hlive r hr) (hgarbage r hr)

end ScriptHost

import ScriptHost.Proofs.Reclaim

/-!
# Sweeps that go through the objects one by one

Marking may take the references that wait in any order, and list what an object holds on to in any order. It meets the tables that
hold something weakly on its way, and these may be cleared one by one in the order in which they were met (`Machine.SweepsTo`).
Whatever the orders are, the sweep comes to the same machine (`Machine.sweepsTo_iff`): the tables met are the marked ones that hold
something weakly, and clearing one of them changes neither what is marked nor what another one holds weakly.
-/

namespace ScriptHost

variable {χ σ : Type}

/-! ## Tables met on the way -/

namespace Heap

variable {h h' : Heap χ} {marks marks' : Marks} {r s : Ref} {S : Ref → Prop}

/-- A table that holds something weakly, with what it does. -/
def Weakly (h : Heap χ) (r : Ref) (w : WeakMode) : Prop :=
  ∃ t, h.object? r = some (.table t) ∧ h.weakMode t = w ∧ w.isWeak = true

/-- What is put down when a reference is looked at: a table that holds something weakly. -/
def met (h : Heap χ) (r : Ref) : List (Ref × WeakMode) :=
  match h.table r with
  | .ok t => if (h.weakMode t).isWeak then [(r, h.weakMode t)] else []
  | .error _ => []

theorem mem_met_iff {e : Ref × WeakMode} : e ∈ h.met r ↔ e.1 = r ∧ h.Weakly r e.2 := by
  unfold met Weakly
  cases ht : h.table r with
  | error e =>
    simp only [List.not_mem_nil, false_iff]
    rintro ⟨-, t, ho, -⟩
    cases ht.symm.trans (table_eq_ok_iff.2 ho)
  | ok t =>
    have ho := table_eq_ok_iff.1 ht
    obtain ⟨s, w⟩ := e
    by_cases hw : (h.weakMode t).isWeak = true
    · simp only [hw, if_true, List.mem_singleton, Prod.mk.injEq, ho, Option.some.injEq, Object.table.injEq, exists_eq_left']
      exact ⟨fun ⟨hs, hw'⟩ => ⟨hs, hw'.symm, hw' ▸ hw⟩, fun ⟨hs, hw', _⟩ => ⟨hs, hw'.symm⟩⟩
    · simp only [hw, ho, Option.some.injEq, Object.table.injEq, exists_eq_left']
      refine ⟨fun h => absurd h List.not_mem_nil, fun ⟨_, he, h⟩ => ?_⟩
      exact absurd (he ▸ h) hw

/-- One step: some reference that waits is looked at. What it holds on to, listed in any order, is marked and put in, unless it was
marked before, and it is put down if it is a table that holds something weakly. -/
inductive Meets (h : Heap χ) : (List Ref × Marks) × List (Ref × WeakMode) → (List Ref × Marks) × List (Ref × WeakMode) → Prop where
  | mk (before after children : List Ref) (r : Ref) (marks : Marks) (weak : List (Ref × WeakMode))
      (hchildren : ∀ s, s ∈ children ↔ h.Holds r s) :
      Meets h ((before ++ r :: after, marks), weak)
        ((before ++ after ++ (h.markAll children marks).1, (h.markAll children marks).2), weak ++ h.met r)

/-- Steps, as many as there are. -/
abbrev Goes (h : Heap χ) : (List Ref × Marks) × List (Ref × WeakMode) → (List Ref × Marks) × List (Ref × WeakMode) → Prop :=
  Relation.ReflTransGen h.Meets

variable {x y : (List Ref × Marks) × List (Ref × WeakMode)} {w : List Ref × Marks} {weak weak' : List (Ref × WeakMode)}

theorem Meets.visit (hm : h.Meets x y) : h.Visit x.1 y.1 := by
  cases hm with
  | mk before after children r marks weak hchildren => exact .mk before after children r marks hchildren

theorem Goes.visits (hg : h.Goes x y) : Relation.ReflTransGen h.Visit x.1 y.1 := by
  induction hg with
  | refl => exact .refl
  | tail _ hm ih => exact ih.tail hm.visit

/-- What was put down are marked tables that hold something weakly: all of them that do not wait any more. -/
structure Recorded (h : Heap χ) (x : (List Ref × Marks) × List (Ref × WeakMode)) : Prop where
  size : x.1.2.marked.size = h.capacity
  sound : ∀ e ∈ x.2, h.Weakly e.1 e.2 ∧ x.1.2.has e.1.slot = true
  waiting : ∀ r ∈ x.1.1, h.contains r = true → x.1.2.has r.slot = true
  complete : ∀ r w, h.Weakly r w → x.1.2.has r.slot = true → r ∉ x.1.1 → (r, w) ∈ x.2

theorem Weakly.contains {w : WeakMode} (hr : h.Weakly r w) : h.contains r = true := by
  obtain ⟨t, ho, -⟩ := hr
  exact contains_of_object? ho

theorem Recorded.meets (hx : h.Recorded x) (hm : h.Meets x y) : h.Recorded y := by
  cases hm with
  | mk before after children r marks weak hchildren =>
    have hsize : marks.marked.size = h.capacity := hx.size
    have hmarked : ∀ s, h.contains s = true → marks.has s.slot = true → (h.markAll children marks).2.has s.slot = true :=
      fun s hc hs => (has_markAll_iff hsize hc).2 (Or.inl hs)
    refine ⟨(size_markAll children marks).trans hsize, fun e he => ?_, fun s hs hc => ?_, fun s w hw hs hout => ?_⟩
    · rcases List.mem_append.1 he with he | he
      · obtain ⟨hw, hs⟩ := hx.sound e he
        exact ⟨hw, hmarked _ hw.contains hs⟩
      · obtain ⟨rfl, hw⟩ := mem_met_iff.1 he
        exact ⟨hw, hmarked _ hw.contains (hx.waiting _ (by simp) hw.contains)⟩
    · rcases List.mem_append.1 hs with hs | hs
      · refine hmarked s hc (hx.waiting s ?_ hc)
        simp only [List.mem_append, List.mem_cons] at hs ⊢
        exact hs.imp_right Or.inr
      · exact (has_markAll_iff hsize hc).2 (Or.inr hs)
    · simp only [List.mem_append, not_or] at hout
      by_cases hsr : s = r
      · subst hsr
        exact List.mem_append_right _ (mem_met_iff.2 ⟨rfl, hw⟩)
      · have hold := ((has_markAll_iff hsize hw.contains).1 hs).resolve_right hout.2
        refine List.mem_append_left _ (hx.complete s w hw hold ?_)
        simp only [List.mem_append, List.mem_cons, not_or]
        exact ⟨hout.1.1, hsr, hout.1.2⟩

theorem Recorded.goes (hx : h.Recorded x) (hg : h.Goes x y) : h.Recorded y := by
  induction hg with
  | refl => exact hx
  | tail _ hm ih => exact ih.meets hm

/-- Before the first step, when what was marked before is recorded. -/
theorem Recorded.markAll (hx : h.Recorded (([], marks), weak)) (refs : List Ref) : h.Recorded (h.markAll refs marks, weak) := by
  have hsize : marks.marked.size = h.capacity := hx.size
  refine ⟨(size_markAll refs marks).trans hsize, fun e he => ?_, fun s hs hc => ?_, fun s w hw hs hout => ?_⟩
  · obtain ⟨hw, hs⟩ := hx.sound e he
    exact ⟨hw, (has_markAll_iff hsize hw.contains).2 (Or.inl hs)⟩
  · exact (has_markAll_iff hsize hc).2 (Or.inr hs)
  · exact hx.complete s w hw (((has_markAll_iff hsize hw.contains).1 hs).resolve_right hout) List.not_mem_nil

theorem recorded_none (h : Heap χ) : h.Recorded (([], .none h.capacity), []) := by
  refine ⟨by simp [Marks.none], fun _ he => absurd he List.not_mem_nil, fun _ hr => absurd hr List.not_mem_nil, fun r w _ hr => ?_⟩
  rw [Marks.has_none] at hr
  cases hr

/-- The steps come to an end, whatever is taken first. -/
theorem exists_goes (w : List Ref × Marks) (hw : w.2.marked.size = h.capacity) (weak : List (Ref × WeakMode)) :
    ∃ marks weak', h.Goes (w, weak) (([], marks), weak') := by
  induction acc_visit w hw generalizing weak with
  | intro w _ ih =>
    obtain ⟨refs, marks⟩ := w
    cases refs with
    | nil => exact ⟨marks, weak, .refl⟩
    | cons r rest =>
      have hm : h.Meets ((r :: rest, marks), weak)
          ((rest ++ (h.markAll (h.strong r) marks).1, (h.markAll (h.strong r) marks).2), weak ++ h.met r) :=
        .mk [] rest (h.strong r) r marks weak fun s => mem_strong_iff
      obtain ⟨marks', weak', hg⟩ := ih _ hm.visit ((size_markAll _ _).trans hw) (weak ++ h.met r)
      exact ⟨marks', weak', .head hm hg⟩

/-! ## Clearing one table after the other -/

/-- Takes out of one table what it loses of what it holds weakly. -/
def clearOne (marks : Marks) (h : Heap χ) (e : Ref × WeakMode) : Heap χ :=
  (h.changeTable e.1 fun t => { t with entries := t.entries.filter fun entry => !h.losesEntry marks e.2 entry }).toOption.getD h

/-- Does so with one table after the other. -/
def clearEach (h : Heap χ) (marks : Marks) (weak : List (Ref × WeakMode)) : Heap χ := weak.foldl (clearOne marks) h

/-- The second heap has the slots of the first, with whatever objects. -/
structure SameSlots (h h' : Heap χ) : Prop where
  generation : ∀ i : Nat, (h'.slots[i]?).map Slot.generation = (h.slots[i]?).map Slot.generation
  free : h'.free = h.free
  live : h'.live = h.live

/-- Heaps with the same slots and the same objects at all references. -/
theorem SameSlots.eq (hs : h.SameSlots h') (ho : ∀ r, h'.object? r = h.object? r) : h' = h := by
  have hslots : h'.slots = h.slots := by
    refine Array.ext_getElem? fun i => ?_
    have hg := hs.generation i
    cases hx : h.slots[i]? with
    | none =>
      rw [hx, Option.map_none] at hg
      exact Option.map_eq_none_iff.1 hg
    | some x =>
      rw [hx] at hg
      obtain ⟨y, hy, hgen⟩ := Option.map_eq_some_iff.1 hg
      have hobject := ho ⟨i, x.generation⟩
      simp only [object?, hx, hy, hgen, if_true] at hobject
      rw [hy, show y = x by cases x; cases y; simp_all]
  cases h
  cases h'
  simp only [Heap.mk.injEq]
  exact ⟨hslots, hs.free, hs.live⟩

theorem sameSlots_put (h : Heap χ) (i : Nat) (o : Object χ) : h.SameSlots (h.put i o) := by
  refine ⟨fun j => ?_, rfl, rfl⟩
  simp only [put, Array.getElem?_modify]
  split
  · cases h.slots[j]? <;> rfl
  · rfl

theorem SameSlots.trans {h'' : Heap χ} (hs : h.SameSlots h') (hs' : h'.SameSlots h'') : h.SameSlots h'' :=
  ⟨fun i => (hs'.generation i).trans (hs.generation i), hs'.free.trans hs.free, hs'.live.trans hs.live⟩

/-- The second heap is the first with the tables at some references cleared. -/
structure ClearedAt (h : Heap χ) (marks : Marks) (refs : List Ref) (h' : Heap χ) : Prop where
  slots : h.SameSlots h'
  object : ∀ r, h'.object? r = if r ∈ refs then (h.object? r).map (h.clearObject marks) else h.object? r

/-- What is lost does not depend on what was cleared before. -/
theorem ClearedAt.losesEntry {refs : List Ref} (hc : h.ClearedAt marks refs h') : h'.losesEntry marks = h.losesEntry marks := by
  refine losesEntry_congr (fun r => ?_) (fun r => ?_) fun _ _ => rfl
  · unfold contains
    rw [hc.object]
    split <;> simp
  · unfold userdata get
    rw [hc.object]
    by_cases hr : r ∈ refs
    · rw [if_pos hr]
      cases h.object? r with
      | none => rfl
      | some o => cases o <;> rfl
    · rw [if_neg hr]

theorem ClearedAt.one {refs : List Ref} (hc : h.ClearedAt marks refs h') {e : Ref × WeakMode} (he : h.Weakly e.1 e.2) :
    h.ClearedAt marks (e.1 :: refs) (clearOne marks h' e) := by
  obtain ⟨r, w⟩ := e
  obtain ⟨t, ht, hmode, hweak⟩ := he
  have hcleared : h.clearTable marks t = { t with entries := t.entries.filter fun x => !h.losesEntry marks w x } := by
    simp only [clearTable, hmode, hweak, if_true]
  -- the table may have been cleared before, and then it loses nothing more
  obtain ⟨t', ht', hentries⟩ : ∃ t', h'.object? r = some (.table t') ∧
      ({ t' with entries := t'.entries.filter fun x => !h.losesEntry marks w x } : Table) = h.clearTable marks t := by
    have hobject := hc.object r
    dsimp only at ht
    rw [ht] at hobject
    split at hobject
    · exact ⟨_, hobject, by simp only [hcleared, List.filter_filter, Bool.and_self]⟩
    · exact ⟨t, hobject, hcleared.symm⟩
  have hput : clearOne marks h' (r, w) = h'.put r.slot (.table (h.clearTable marks t)) := by
    simp only [Heap.clearOne, changeTable, table_eq_ok_iff.2 ht', hc.losesEntry, hentries]
    rfl
  rw [hput]
  refine ⟨hc.slots.trans (sameSlots_put _ _ _), fun s => ?_⟩
  rw [object?_put (contains_of_object? ht'), hc.object]
  by_cases hs : s = r
  · subst hs
    simp only [List.mem_cons_self, if_true]
    rw [show h.object? s = _ from ht]
    rfl
  · simp only [List.mem_cons, hs, false_or, if_false]

theorem clearedAt_clearEach (hweak : ∀ e ∈ weak, h.Weakly e.1 e.2) : h.ClearedAt marks (weak.map Prod.fst).reverse
    (h.clearEach marks weak) := by
  have hfold : ∀ {refs h'}, h.ClearedAt marks refs h' → h.ClearedAt marks ((weak.map Prod.fst).reverse ++ refs)
      (weak.foldl (Heap.clearOne marks) h') := by
    induction weak with
    | nil => exact fun hc => hc
    | cons e weak ih =>
      intro refs h' hc
      obtain ⟨he, hrest⟩ := List.forall_mem_cons.1 hweak
      rw [List.map_cons, List.reverse_cons, List.append_assoc]
      exact ih hrest (hc.one he)
  have hnil : h.ClearedAt marks [] h := ⟨⟨fun _ => rfl, rfl, rfl⟩, fun _ => rfl⟩
  have hall := hfold hnil
  rwa [List.append_nil] at hall

/-- Only the marks of what is live count. -/
theorem unmarked_congr (hmarks : ∀ r, h.contains r = true → marks'.has r.slot = marks.has r.slot) :
    h.unmarked marks' = h.unmarked marks :=
  List.filter_congr fun r hr => by rw [hmarks r (mem_refs_iff.1 hr)]

theorem clearObject_congr (hmarks : ∀ r, h.contains r = true → marks'.has r.slot = marks.has r.slot) (o : Object χ) :
    h.clearObject marks' o = h.clearObject marks o := by
  cases o with
  | table t => simp only [clearObject, clearTable, losesEntry_congr (fun _ => rfl) (fun _ => rfl) hmarks]
  | _ => rfl

/-- Clearing the recorded tables one by one clears what is marked. -/
theorem clearEach_eq (hx : h.Recorded (([], marks), weak))
    (hmarks : ∀ r, h.contains r = true → marks'.has r.slot = marks.has r.slot) :
    h.clearEach marks weak = h.clearWeak marks' := by
  have hsound : ∀ e ∈ weak, h.Weakly e.1 e.2 ∧ marks.has e.1.slot = true := hx.sound
  have hc : h.ClearedAt marks (weak.map Prod.fst).reverse (h.clearEach marks weak) :=
    clearedAt_clearEach fun e he => (hsound e he).1
  have hslots : (h.clearWeak marks').SameSlots (h.clearEach marks weak) := by
    refine ⟨fun i => (hc.slots.generation i).trans ?_, hc.slots.free, hc.slots.live⟩
    simp only [clearWeak, Array.getElem?_mapIdx]
    cases h.slots[i]? with
    | none => rfl
    | some s => by_cases hm : marks'.has i = true <;> simp [hm]
  refine hslots.eq fun r => ?_
  rw [hc.object, object?_clearWeak]
  cases ho : h.object? r with
  | none => simp
  | some o =>
    rw [hmarks r (contains_of_object? ho), Option.map_some, Option.map_some, clearObject_congr hmarks]
    by_cases hr : r ∈ (weak.map Prod.fst).reverse
    · obtain ⟨e, he, rfl⟩ := List.mem_map.1 (List.mem_reverse.1 hr)
      rw [if_pos hr, if_pos (hsound e he).2]
    · rw [if_neg hr]
      by_cases hm : marks.has r.slot = true
      · rw [if_pos hm]
        cases o with
        | table t =>
          have hstrong : ¬(h.weakMode t).isWeak = true := fun hw => hr (List.mem_reverse.2 (List.mem_map.2
            ⟨_, hx.complete r _ ⟨t, ho, rfl, hw⟩ hm List.not_mem_nil, rfl⟩))
          simp only [clearObject, clearTable, hstrong, Bool.false_eq_true, if_false]
        | _ => rfl
      · rw [if_neg hm]

end Heap

/-! ## Sweeps -/

namespace Heap

variable {h h' : Heap χ} {marks : Marks} {weak : List (Ref × WeakMode)} {S : Ref → Prop} {refs : List Ref}

/-- Flags say nothing about tables. -/
theorem Alike.weakly (ha : h.Alike h') {r : Ref} {w : WeakMode} (hr : h.Weakly r w) : h'.Weakly r w := by
  obtain ⟨t, ht, hmode, hw⟩ := hr
  refine ⟨t, ha.table ht, ?_, hw⟩
  have hkeys : (h'.weakMode t).keys = (h.weakMode t).keys := by
    rw [Bool.eq_iff_iff, weakMode_keys_iff, weakMode_keys_iff, ha.modeSays_iff]
  have hvalues : (h'.weakMode t).values = (h.weakMode t).values := by
    rw [Bool.eq_iff_iff, weakMode_values_iff, weakMode_values_iff, ha.modeSays_iff]
  rw [← hmode]
  exact congrArg₂ WeakMode.mk hkeys hvalues

theorem Recorded.alike (ha : h.Alike h') (hsize : h'.capacity = h.capacity) (hx : h.Recorded (([], marks), weak)) :
    h'.Recorded (([], marks), weak) where
  size := hx.size.trans hsize.symm
  sound e he := ⟨ha.weakly (hx.sound e he).1, (hx.sound e he).2⟩
  waiting _ hr := absurd hr List.not_mem_nil
  complete r w hw hr hout := hx.complete r w (ha.symm.weakly hw) hr hout

/-- Going on from marks that are what a set keeps to the end, in some order, marks what marking in rounds does. -/
theorem Goes.has_eq {marks' marks'' : Marks} {weak' : List (Ref × WeakMode)} (hsize : marks.marked.size = h.capacity)
    (hmarks : ∀ r, h.contains r = true → (marks.has r.slot = true ↔ h.Kept S r))
    (hsize' : marks'.marked.size = h.capacity)
    (hsame : ∀ r, h.contains r = true → marks'.has r.slot = marks.has r.slot)
    (hg : h.Goes (h.markAll refs marks, weak) (([], marks''), weak')) {r : Ref} (hr : h.contains r = true) :
    (h.markFrom refs marks').has r.slot = marks''.has r.slot := by
  have hmarks' : ∀ r, h.contains r = true → (marks'.has r.slot = true ↔ h.Kept S r) := fun r hr => by
    rw [hsame r hr, hmarks r hr]
  have hend := ((worklist_markAll hsize hmarks refs).visits hg.visits).has_iff hr
  rw [Bool.eq_iff_iff, markFrom_iff hsize' hmarks' refs hr, hend]

end Heap

namespace Machine

variable {m s : Machine χ σ}

/-- The second machine is the first after a sweep that takes the references that wait, and lists what each object holds on to, in
some order, and clears the tables that hold something weakly one by one, in the order in which it met them. -/
def SweepsTo (m s : Machine χ σ) : Prop :=
  ∃ (marks marks' : Marks) (weak weak' : List (Ref × WeakMode)) (doomed : List Ref) (flagged cleared : Heap χ),
    m.heap.Goes (m.heap.markAll m.roots (.none m.heap.capacity), []) (([], marks), weak) ∧
    doomed = (m.heap.unmarked marks).filter m.heap.awaitsFinalizer ∧ flagged = m.heap.flagAll doomed ∧
    flagged.Goes (flagged.markAll doomed marks, weak) (([], marks'), weak') ∧ cleared = flagged.clearEach marks' weak' ∧
    s = { m with
      heap := cleared.releaseAll (cleared.unmarked marks')
      pending := m.pending ++ doomed
      collecting := true }

theorem SweepsTo.eq_swept (h : m.SweepsTo s) : s = m.swept := by
  obtain ⟨marks, marks', weak, weak', _, _, _, hg, rfl, rfl, hg', rfl, rfl⟩ := h
  have hsize : (Marks.none m.heap.capacity).marked.size = m.heap.capacity := by simp [Marks.none]
  have hfirst := ((Heap.recorded_none m.heap).markAll m.roots).goes hg
  have hheld : ∀ r, m.heap.contains r = true → m.held.has r.slot = marks.has r.slot := fun r hr =>
    hg.has_eq hsize (fun s _ => Heap.has_none_iff s) hsize (fun _ _ => rfl) hr
  have hdoomed : (m.heap.unmarked marks).filter m.heap.awaitsFinalizer = m.doomed := by
    rw [doomed, Heap.unmarked_congr hheld]
  rw [hdoomed] at hg' ⊢
  change m.flagged.Goes (m.flagged.markAll m.doomed marks, weak) _ at hg'
  show { m with
      heap := (m.flagged.clearEach marks' weak').releaseAll ((m.flagged.clearEach marks' weak').unmarked marks')
      pending := m.pending ++ m.doomed
      collecting := true } = m.swept
  have ha := m.alike_flagged
  have hcapacity : m.flagged.capacity = m.heap.capacity := Heap.capacity_flagAll _ _
  have hsecond := ((hfirst.alike ha hcapacity).markAll m.doomed).goes hg'
  have hkept : ∀ r, m.flagged.contains r = true → (marks.has r.slot = true ↔ m.flagged.Kept m.IsRoot r) := fun r hr => by
    have hr' := (ha.contains r).symm.trans hr
    rw [← hheld r hr', has_held_iff hr', ha.kept_iff]
  have hsurvivors : ∀ r, m.flagged.contains r = true → m.survivors.has r.slot = marks'.has r.slot := fun r hr =>
    hg'.has_eq (hfirst.size.trans hcapacity.symm) hkept (m.size_held.trans hcapacity.symm)
      (fun s hs => hheld s ((ha.contains s).symm.trans hs)) hr
  have hdead : (m.flagged.clearWeak m.survivors).unmarked marks' = m.dead :=
    Heap.unmarked_congr fun r hr => (hsurvivors r ((contains_clearWeak _ _ _).symm.trans hr)).symm
  rw [Heap.clearEach_eq hsecond hsurvivors, hdead, swept_eq]

/-- Some order there is, and whatever it is, the sweep comes to the same machine. -/
theorem sweepsTo_iff : m.SweepsTo s ↔ s = m.swept := by
  refine ⟨SweepsTo.eq_swept, ?_⟩
  rintro rfl
  obtain ⟨marks, weak, hg⟩ := Heap.exists_goes (h := m.heap) (m.heap.markAll m.roots (.none m.heap.capacity))
    (by simp [Heap.size_markAll, Marks.none]) []
  have hmarks : marks.marked.size = m.heap.capacity := (((Heap.recorded_none m.heap).markAll m.roots).goes hg).size
  let taken := (m.heap.unmarked marks).filter m.heap.awaitsFinalizer
  obtain ⟨marks', weak', hg'⟩ := Heap.exists_goes (h := m.heap.flagAll taken) ((m.heap.flagAll taken).markAll taken marks)
    (by rw [Heap.size_markAll, Heap.capacity_flagAll, hmarks]) weak
  have hsweeps : m.SweepsTo _ := ⟨marks, marks', weak, weak', _, _, _, hg, rfl, rfl, hg', rfl, rfl⟩
  exact hsweeps.eq_swept ▸ hsweeps

end Machine

end ScriptHost

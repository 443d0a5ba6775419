import Mathlib.Data.List.Nodup
import ScriptHost.Proofs.Generations
import ScriptHost.Proofs.OneShot

/-!
# The books of the heap

A heap keeps a list of its free slots and a count of its objects beside the slots themselves, and a machine counts what its
collections have freed. The three agree with the slots on every machine of a run (`Heap.Tallied`): the list has every slot without
an object, once, and what it does not have is counted as live.

Objects are made by requests that call nothing (`Moment.fresh`), and freed by sweeps. From moment to moment the objects on the heap
and those freed before make up all that were ever made, finalizers included that make objects between a sweep and its count
(`Moment.accounts_trace`); only while a collection is under way are the objects of its own sweep in neither count.
-/

namespace ScriptHost

variable {χ σ α : Type}

/-! ## The heap -/

namespace Heap

/-- The free list has every slot without an object, and the live objects and the free slots make up the heap. -/
structure Tallied (h : Heap χ) : Prop extends WellFormed h where
  listed : ∀ i g, h.slots[i]? = some ⟨g, none⟩ → i ∈ h.free
  sum : h.live + h.free.length = h.capacity

variable {h h' : Heap χ} {r : Ref}

theorem tallied_empty : (Heap.empty : Heap χ).Tallied :=
  ⟨wellFormed_empty, fun i g hi => by simp [Heap.empty] at hi, rfl⟩

namespace Tallied

theorem mem_free_iff (ht : h.Tallied) {i : Nat} : i ∈ h.free ↔ ∃ g, h.slots[i]? = some ⟨g, none⟩ :=
  ⟨ht.empty i, fun ⟨g, hg⟩ => ht.listed i g hg⟩

/-- The slots are the free ones and those of the references that find something, each once. -/
theorem perm_range (ht : h.Tallied) : (h.free ++ h.refs.map Ref.slot).Perm (List.range h.capacity) := by
  have hslots : (h.refs.map Ref.slot).Nodup := h.nodup_refs.map_on fun r hr s hs he =>
    eq_of_slot_eq (mem_refs_iff.1 hr) (mem_refs_iff.1 hs) he
  have hdisjoint : ∀ i ∈ h.free, ∀ j ∈ h.refs.map Ref.slot, i ≠ j := by
    rintro i hi j hj rfl
    obtain ⟨r, hr, rfl⟩ := List.mem_map.1 hj
    exact ht.slot_not_free (mem_refs_iff.1 hr) hi
  refine (List.perm_ext_iff_of_nodup (List.nodup_append.2 ⟨ht.nodup, hslots, hdisjoint⟩) List.nodup_range).2 fun i => ?_
  rw [List.mem_append, List.mem_range, List.mem_map]
  constructor
  · rintro (hi | ⟨r, hr, rfl⟩)
    · obtain ⟨g, hg⟩ := ht.empty i hi
      exact (Array.getElem?_eq_some_iff.1 hg).1
    · exact slot_lt_of_contains (mem_refs_iff.1 hr)
  · intro hi
    obtain ⟨⟨g, o⟩, hs⟩ : ∃ s, h.slots[i]? = some s := ⟨_, Array.getElem?_eq_getElem hi⟩
    cases o with
    | none => exact Or.inl (ht.listed i g hs)
    | some o => exact Or.inr ⟨⟨i, g⟩, mem_refs_iff.2 (contains_of_object? (object?_eq_some_iff.2 ⟨_, hs, rfl, rfl⟩)), rfl⟩

theorem live_eq_length_refs (ht : h.Tallied) : h.live = h.refs.length := by
  have hlength := ht.perm_range.length_eq
  rw [List.length_append, List.length_map, List.length_range] at hlength
  have hsum := ht.sum
  omega

/-- The count is that of the slots with an object. -/
theorem live_eq_countP (ht : h.Tallied) : h.live = h.slots.countP fun s => s.object.isSome := by
  rw [ht.live_eq_length_refs, refs, List.length_filterMap_eq_countP, ← Array.countP_toList]
  conv_rhs => rw [← List.zipIdx_map_fst 0 h.slots.toList, List.countP_map]
  simp [Function.comp_def]

/-! ### What keeps the books right -/

theorem allocate (ht : h.Tallied) {o : Object χ} (ho : o.IsNew) : (h.allocate o).2.Tallied := by
  have hw := ht.toWellFormed.make ho
  have hsum := ht.sum
  refine ⟨hw, fun i g hi => ?_, ?_⟩
  · unfold Heap.allocate at hi ⊢
    cases hf : h.free with
    | nil =>
      simp only [hf, Array.getElem?_push] at hi
      split at hi
      · cases hi
      · exact absurd (ht.listed i g hi) (by simp [hf])
    | cons j rest =>
      simp only [hf, put, Array.getElem?_modify] at hi
      split at hi
      · obtain ⟨s, -, hs⟩ := Option.map_eq_some_iff.1 hi
        cases hs
      · rename_i hij
        have hmem := ht.listed i g hi
        rw [hf, List.mem_cons] at hmem
        exact hmem.resolve_left (Ne.symm hij)
  · unfold Heap.allocate
    cases hf : h.free with
    | nil =>
      rw [hf, List.length_nil] at hsum
      simp only [capacity, List.length_nil, Array.size_push] at hsum ⊢
      omega
    | cons j rest =>
      rw [hf, List.length_cons] at hsum
      simp only [capacity, put, Array.size_modify] at hsum ⊢
      omega

/-- Other objects at the same references. -/
theorem overwrite (ht : h.Tallied) (hw : h.Overwrites h') (hlive : h'.live = h.live) : h'.Tallied := by
  have hplace := hw.place
  refine ⟨hw.wellFormed, fun i g hi => ?_, ?_⟩
  · have hsame := hplace i
    rw [hi] at hsame
    obtain ⟨⟨g', o⟩, hs, heq⟩ := Option.map_eq_some_iff.1 hsame.symm
    have hnone : o = none := by simpa [Slot.place] using congrArg Prod.snd heq
    rw [hw.free]
    exact ht.listed i g' (hnone ▸ hs)
  · have hsize : h'.capacity = h.capacity := by
      refine Nat.le_antisymm ?_ ?_
      · have hsame := hplace h.slots.size
        rw [Array.getElem?_eq_none (Nat.le_refl _)] at hsame
        exact Array.getElem?_eq_none_iff.1 (Option.map_eq_none_iff.1 hsame)
      · have hsame := hplace h'.slots.size
        rw [Array.getElem?_eq_none_iff.2 (Nat.le_refl _)] at hsame
        exact Array.getElem?_eq_none_iff.1 (Option.map_eq_none_iff.1 hsame.symm)
    rw [hlive, hw.free, hsize]
    exact ht.sum

theorem put (ht : h.Tallied) {o p : Object χ} (hr : h.object? r = some p) (ho : ∀ t, o = .table t → t.Unique) :
    (h.put r.slot o).Tallied :=
  ht.overwrite (overwrites_put ht.toWellFormed hr ho) rfl

theorem step (ht : h.Tallied) (hs : h.Step h') : h'.Tallied := by
  have hput : ∀ {r : Ref} {o p : Object χ}, h.object? r = some p → (h.put r.slot o).WellFormed → (h.put r.slot o).Tallied := by
    intro r o p hr hw
    refine ht.put hr fun t e => hw.unique r t ?_
    rw [object?_put (contains_of_object? hr), if_pos rfl, e]
  have hw := ht.toWellFormed.step hs
  cases hs with
  | allocate o ho => exact ht.allocate ho
  | store k v ho => exact hput ho hw
  | erase k ho => exact hput ho hw
  | tableClass mt ho => exact hput ho hw
  | userdata ho _ => exact hput ho hw

/-- A release counts one object less. -/
theorem release (ht : h.Tallied) (hr : h.contains r = true) : (h.release r).Tallied ∧ (h.release r).live + 1 = h.live := by
  have hpos : 0 < h.live := by
    rw [ht.live_eq_length_refs]
    exact List.length_pos_of_mem (mem_refs_iff.2 hr)
  have hsum := ht.sum
  have hw := ht.toWellFormed.release r
  simp only [Heap.release, hr, if_true] at hw ⊢
  refine ⟨⟨hw, fun i g hi => ?_, ?_⟩, Nat.sub_add_cancel hpos⟩
  · rw [Array.getElem?_modify] at hi
    split at hi
    · rename_i he
      exact he ▸ List.mem_cons_self
    · exact List.mem_cons_of_mem _ (ht.listed i g hi)
  · simp only [capacity, Array.size_modify, List.length_cons] at hsum ⊢
    omega

theorem releaseAll (ht : h.Tallied) {refs : List Ref} (hn : refs.Nodup) (hin : ∀ r ∈ refs, h.contains r = true) :
    (h.releaseAll refs).Tallied ∧ (h.releaseAll refs).live + refs.length = h.live := by
  unfold Heap.releaseAll
  induction refs generalizing h with
  | nil => exact ⟨ht, rfl⟩
  | cons r rest ih =>
    obtain ⟨hr, hrest⟩ := List.forall_mem_cons.1 hin
    obtain ⟨hnot, hn⟩ := List.nodup_cons.1 hn
    obtain ⟨ht', hlive⟩ := ht.release hr
    obtain ⟨ht'', hlive'⟩ := ih ht' hn fun s hs => by
      unfold contains
      rw [object?_release, if_neg (by rintro rfl; exact hnot hs)]
      exact hrest s hs
    rw [List.foldl_cons, List.length_cons]
    exact ⟨ht'', by omega⟩

end Tallied

theorem live_flagAll (h : Heap χ) (refs : List Ref) : (h.flagAll refs).live = h.live := by
  unfold flagAll
  induction refs generalizing h with
  | nil => rfl
  | cons r rest ih =>
    rw [List.foldl_cons, ih]
    cases hc : h.changeUserdata r (fun u => { u with finalized := true }) with
    | error e => rfl
    | ok h' =>
      obtain ⟨u, -, rfl⟩ := changeUserdata_eq_ok_iff.1 hc
      rfl

end Heap

/-! ## The machine -/

namespace Machine

variable {m m' m'' : Machine χ σ} {c c' : Nat}

/-- A sweep takes what is dead off the count. -/
theorem tallied_swept (hm : m.heap.Tallied) : m.swept.heap.Tallied ∧ m.swept.heap.live + m.dead.length = m.heap.live := by
  have hflagged := Heap.overwrites_flagAll hm.toWellFormed m.doomed
  have hcleared := Heap.overwrites_clearWeak hflagged.wellFormed m.survivors
  have hover := hflagged.trans hcleared
  have hlive : (m.flagged.clearWeak m.survivors).live = m.heap.live := Heap.live_flagAll _ _
  obtain ⟨ht, hsum⟩ := (hm.overwrite hover hlive).releaseAll m.nodup_dead fun r hr => by
    rw [hover.contains_eq]
    exact (mem_dead_iff.1 hr).1
  exact ⟨ht, hsum.trans hlive⟩

theorem tallied_start (limits : Limits) (host : σ) : (start limits host : Machine χ σ).heap.Tallied :=
  (Heap.tallied_empty.allocate (o := .table .empty) rfl).allocate (o := .table .empty) rfl

theorem Step.tallied (hm : m.heap.Tallied) (hs : m.Step m') : m'.heap.Tallied := by
  cases hs with
  | heap hh => exact hm.step hh
  | _ => exact hm

/-- The objects on the heap and those that collections have freed. -/
def total (m : Machine χ σ) : Nat := m.heap.live + m.statistics.objectsFreed

/-- So many objects more are on the heap or were freed since. -/
def Accounts (c : Nat) (m m' : Machine χ σ) : Prop :=
  m.heap.Tallied → m'.heap.Tallied ∧ m'.collecting = m.collecting ∧ m'.total = m.total + c

/-- The same where no collection is under way on the second machine: then none is on the first. -/
def AccountsOutside (c : Nat) (m m' : Machine χ σ) : Prop :=
  m.heap.Tallied → m'.heap.Tallied ∧ (m'.collecting = false → m.collecting = false ∧ m'.total = m.total + c)

theorem Accounts.trans (h : Accounts c m m') (h' : Accounts c' m' m'') : Accounts (c + c') m m'' := by
  intro hm
  obtain ⟨hm', hc, ht⟩ := h hm
  obtain ⟨hm'', hc', ht'⟩ := h' hm'
  exact ⟨hm'', hc'.trans hc, by rw [ht', ht, Nat.add_assoc]⟩

theorem Accounts.outside (h : Accounts c m m') (h' : AccountsOutside c' m' m'') : AccountsOutside (c + c') m m'' := by
  intro hm
  obtain ⟨hm', hc, ht⟩ := h hm
  obtain ⟨hm'', hout⟩ := h' hm'
  refine ⟨hm'', fun hn => ?_⟩
  obtain ⟨hn', ht'⟩ := hout hn
  exact ⟨hc.symm.trans hn', by rw [ht', ht, Nat.add_assoc]⟩

/-- Nothing is made, and the books stay as they are. -/
theorem accounts_of_eq (hheap : m'.heap = m.heap) (hc : m'.collecting = m.collecting) (hs : m'.statistics = m.statistics) :
    Accounts 0 m m' := fun hm => ⟨hheap ▸ hm, hc, by simp only [total, hheap, hs, Nat.add_zero]⟩

theorem accounts_rawSet (m : Machine χ σ) (t : Ref) (key v : Value) : Accounts 0 m (Action.rawSet t key v m).2 := by
  intro hm
  refine ⟨(Action.quiet_rawSet t key v m).keep (fun _ _ hx hs => hs.tallied hx) hm, ?_⟩
  unfold Action.rawSet
  cases Key.ofValue key with
  | error cause => exact ⟨rfl, rfl⟩
  | ok k =>
    refine Action.onHeap_elim (P := fun m' => m'.collecting = m.collecting ∧ m'.total = m.total + 0) ⟨rfl, rfl⟩ fun h' hh => ?_
    obtain ⟨T, -, rfl⟩ := Heap.changeTable_eq_ok_iff.1 hh
    exact ⟨rfl, rfl⟩

/-- What lies between the parts of a moment makes nothing. -/
theorem tie_accounts : Tie (Accounts (χ := χ) (σ := σ) 0) where
  refl _ := accounts_of_eq rfl rfl rfl
  trans := Accounts.trans
  stored := accounts_rawSet
  queued _ _ _ := accounts_of_eq rfl rfl rfl

end Machine

/-! ## What a moment makes -/

instance Request.decidableIsSilent : (r : Request χ σ) → Decidable r.IsSilent
  | .index .. | .setIndex .. | .call .. | .callMethod .. | .collect | .isKindOf .. => .isFalse id
  | .look | .keep _ | .newTable | .newUserdata _ | .newFunction .. | .push _ | .pop | .setTop _ | .pin _ | .unpin _ | .rawSet ..
  | .remove .. | .setMetatable .. | .setEnvironment .. | .setPayload .. | .metatableNamed _ | .ensureHandle _ | .unregister _
  | .wrap .. | .installClasses _ | .newReader .. | .defineEnums _ | .stage _ | .stageInteger _ | .stageArguments _
  | .newTexts _ => .isTrue trivial

namespace Moment

/-- The references that a moment itself gives to new objects. Only requests that call nothing make objects. -/
def fresh (Γ : Host χ σ) : Moment χ σ → List Ref
  | request r m =>
    if r.IsSilent then (r.perform (ScriptHost.call Γ) m).2.heap.refs.filter (fun s => !m.heap.contains s) else []
  | _ => []

/-- How many objects the moments make, each by itself. -/
def allocated (Γ : Host χ σ) (l : List (Moment χ σ)) : Nat := (l.flatMap (fresh Γ)).length

variable {Γ : Host χ σ} {M N : Moment χ σ} {l l' : List (Moment χ σ)}

theorem allocated_append (l l' : List (Moment χ σ)) : allocated Γ (l ++ l') = allocated Γ l + allocated Γ l' := by
  simp [allocated]

theorem allocated_cons (N : Moment χ σ) (l : List (Moment χ σ)) : allocated Γ (N :: l) = (N.fresh Γ).length + allocated Γ l := by
  simp [allocated]

end Moment

namespace Heap

variable {h h' : Heap χ} {ds : List Deed}

/-- Deeds that free nothing: what is found after them was found before or was made, each by a reference of its own. -/
theorem Does.contains_iff (hd : Does h ds h') (hw : h.WellFormed) (hmade : ∀ d ∈ ds, ∃ r, d = .made r) :
    (Deed.refs ds).Nodup ∧ (∀ r ∈ Deed.refs ds, ¬h.contains r = true) ∧
      ∀ r, h'.contains r = true ↔ h.contains r = true ∨ r ∈ Deed.refs ds := by
  induction hd with
  | refl => exact ⟨List.nodup_nil, fun _ hr => absurd hr List.not_mem_nil, fun r => (or_iff_left List.not_mem_nil).symm⟩
  | @make h' ds hd o _ ih =>
    obtain ⟨hn, hnew, hiff⟩ := ih fun d hd => hmade d (List.mem_append_left _ hd)
    have hw' := hd.wellFormed hw
    have hnot := mt (hiff _).2 (hw'.not_contains_allocate o)
    rw [not_or] at hnot
    have hrefs : Deed.refs (ds ++ [.made (h'.allocate o).1]) = Deed.refs ds ++ [(h'.allocate o).1] := Deed.refs_append _ _
    rw [hrefs]
    refine ⟨List.nodup_append.2 ⟨hn, List.nodup_singleton _, ?_⟩, List.forall_mem_append.2 ⟨hnew, ?_⟩, fun r => ?_⟩
    · rintro r hr s hs rfl
      exact hnot.2 (List.mem_singleton.1 hs ▸ hr)
    · exact List.forall_mem_singleton.2 hnot.1
    · rw [List.mem_append, List.mem_singleton, ← or_assoc, ← hiff]
      unfold contains
      rw [hw'.object?_allocate]
      by_cases hr : r = (h'.allocate o).1
      · simp [hr]
      · simp [hr]
  | overwrite _ hover ih =>
    obtain ⟨hn, hnew, hiff⟩ := ih hmade
    exact ⟨hn, hnew, fun r => by rw [hover.contains_eq, hiff]⟩
  | @release h' ds _ r _ _ =>
    obtain ⟨s, hs⟩ := hmade (.freed r) (by simp)
    cases hs

end Heap

namespace Moment

variable {Γ : Host χ σ} {M N : Moment χ σ} {Ns l l' : List (Moment χ σ)} {m m' : Machine χ σ}

/-- A request that calls nothing frees nothing, and its fresh references are those it gives to new objects. -/
theorem exists_does_fresh (Γ : Host χ σ) {r : Request χ σ} (hr : r.IsSilent) {m : Machine χ σ} (hw : m.heap.WellFormed) :
    ∃ rs : List Ref, m.heap.Does (rs.map .made) (r.perform (ScriptHost.call Γ) m).2.heap ∧ rs.Perm ((request r m).fresh Γ) := by
  obtain ⟨ds, hd, hmade⟩ := Machine.Steps.does (Request.perform_steps (ScriptHost.call Γ) hr m) hw
  obtain ⟨hn, hnew, hiff⟩ := hd.contains_iff hw hmade
  have hds : (Deed.refs ds).map .made = ds := by
    clear hd hn hnew hiff
    induction ds with
    | nil => rfl
    | cons d ds ih =>
      obtain ⟨⟨r, rfl⟩, hrest⟩ := List.forall_mem_cons.1 hmade
      exact congrArg (Deed.made r :: ·) (ih hrest)
  refine ⟨Deed.refs ds, by rwa [hds], ?_⟩
  have hfresh : (request r m).fresh Γ =
      (r.perform (ScriptHost.call Γ) m).2.heap.refs.filter (fun s => !m.heap.contains s) := if_pos hr
  rw [hfresh]
  refine (List.perm_ext_iff_of_nodup hn ((Heap.nodup_refs _).filter _)).2 fun s => ?_
  rw [List.mem_filter, Heap.mem_refs_iff, hiff, Bool.not_eq_true', ← Bool.not_eq_true]
  exact ⟨fun hs => ⟨Or.inr hs, hnew s hs⟩, fun ⟨hs, hnot⟩ => hs.resolve_left hnot⟩

/-- So the count goes up by as many. -/
theorem accounts_silent (Γ : Host χ σ) {r : Request χ σ} (hr : r.IsSilent) (m : Machine χ σ) :
    Machine.Accounts ((request r m).fresh Γ).length m (r.perform (ScriptHost.call Γ) m).2 := by
  intro hm
  have hsteps := Request.perform_steps (ScriptHost.call Γ) hr m
  have hm' := hsteps.keep (fun _ _ hx hs => hs.tallied hx) hm
  have hframe := hsteps.frame_eq
  refine ⟨hm', congrArg Machine.Frame.collecting hframe, ?_⟩
  obtain ⟨rs, hd, hperm⟩ := exists_does_fresh Γ hr hm.toWellFormed
  obtain ⟨hn, hnew, hiff⟩ := hd.contains_iff hm.toWellFormed fun d hd => (List.mem_map.1 hd).imp fun _ h => h.2.symm
  have hrs : Deed.refs (rs.map .made) = rs := by
    rw [Deed.refs, List.filterMap_map]
    exact List.filterMap_some
  rw [hrs] at hn hnew hiff
  have hrefs : (r.perform (ScriptHost.call Γ) m).2.heap.refs.Perm (m.heap.refs ++ rs) := by
    refine (List.perm_ext_iff_of_nodup (Heap.nodup_refs _) (List.nodup_append.2 ⟨Heap.nodup_refs _, hn, ?_⟩)).2 fun s => ?_
    · rintro s hs t ht rfl
      exact hnew s ht (Heap.mem_refs_iff.1 hs)
    · rw [List.mem_append, Heap.mem_refs_iff, Heap.mem_refs_iff, hiff]
  have hlive : (r.perform (ScriptHost.call Γ) m).2.heap.live = m.heap.live + ((request r m).fresh Γ).length := by
    rw [hm'.live_eq_length_refs, hm.live_eq_length_refs, hrefs.length_eq, List.length_append, hperm.length_eq]
  have hstat : (r.perform (ScriptHost.call Γ) m).2.statistics = m.statistics := congrArg Machine.Frame.statistics hframe
  simp only [Machine.total, hlive, hstat]
  omega

/-- A moment asks for something that calls nothing, or it is a collection that sweeps, or it makes nothing itself and its parts
begin one after the other. -/
theorem accounts_cases (hM : M.Sane) : (∃ r m, M = request r m ∧ r.IsSilent) ∨
    (∃ m, M = request .collect m ∧ m.collecting = false) ∨
    (M.fresh Γ = [] ∧ Strung (Machine.Accounts 0) Γ M.before (M.parts Γ) (M.after Γ)) := by
  have htie := Machine.tie_accounts (χ := χ) (σ := σ)
  rcases M.strung_cases (Γ := Γ) htie hM with h | h | ⟨f, args, m, rfl⟩ | ⟨hr, -, h⟩
  · exact Or.inl h
  · exact Or.inr (Or.inl h)
  · refine Or.inr (Or.inr ⟨rfl, strung_call htie (fun _ _ _ => ?_) (fun _ _ => ?_) Γ f args m⟩)
    · exact Machine.accounts_of_eq rfl rfl rfl
    · exact Machine.accounts_of_eq rfl rfl rfl
  · refine Or.inr (Or.inr ⟨?_, h⟩)
    cases M with
    | request r m => exact if_neg (hr r m rfl)
    | _ => rfl

end Moment

open Moment

variable {Γ : Host χ σ} {m m' : Machine χ σ} {M N : Moment χ σ} {Ns l l' : List (Moment χ σ)}

/-- Parts that follow each other make what each of them makes. -/
theorem Strung.accounts (h : Strung (Machine.Accounts 0) Γ m Ns m')
    (hNs : ∀ N ∈ Ns, Machine.Accounts (allocated Γ (N.trace Γ)) N.before (N.after Γ)) :
    Machine.Accounts (allocated Γ (Ns.flatMap (trace Γ))) m m' := by
  induction h with
  | nil h => exact h
  | cons h _ ih =>
    obtain ⟨hN, hrest⟩ := List.forall_mem_cons.1 hNs
    have hall := (h.trans hN).trans (ih hrest)
    rw [List.flatMap_cons, allocated_append]
    rwa [Nat.zero_add] at hall

/-- From the beginning of a moment to its end as many objects are made as the moments inside of it make. -/
theorem Moment.accounts_trace (hM : M.Sane) : Machine.Accounts (allocated Γ (M.trace Γ)) M.before (M.after Γ) := by
  refine Moment.induction Γ (P := fun M => M.Sane → Machine.Accounts (allocated Γ (M.trace Γ)) M.before (M.after Γ))
    (fun M ih hM => ?_) M hM
  have ih := fun N hN => ih N hN (sane_of_mem_parts hN)
  rw [trace_eq, allocated_cons]
  rcases M.accounts_cases (Γ := Γ) hM with ⟨r, m, rfl, hr⟩ | ⟨m, rfl, hc⟩ | ⟨hfresh, hstrung⟩
  · rw [parts_of_silent hr]
    exact accounts_silent Γ hr m
  · -- what the sweep takes off the count is counted as freed at the end
    have hparts := parts_of_sweep Γ hc
    intro hm
    obtain ⟨hswept, hlive⟩ := Machine.tallied_swept (m := m) hm
    obtain ⟨hend, -, htotal⟩ := ih (finalizers m.swept) (by rw [hparts]; exact List.mem_singleton_self _) hswept
    have hbooks := (finalizeAll_books_eq Γ m.swept.pending (m := m.swept) rfl).2
    have hstat : (Action.finalizeAll (ScriptHost.call Γ) m.swept.pending m.swept).2.statistics = m.statistics :=
      congrArg Machine.Frame.statistics hbooks
    have hfresh : (request .collect m).fresh Γ = [] := rfl
    rw [hparts, hfresh, List.flatMap_singleton]
    show (Action.collect (ScriptHost.call Γ) m).2.heap.Tallied ∧
      (Action.collect (ScriptHost.call Γ) m).2.collecting = m.collecting ∧ (Action.collect (ScriptHost.call Γ) m).2.total = _
    rw [collect_eq hc]
    refine ⟨hend, hc.symm, ?_⟩
    have hswept' : m.swept.statistics = m.statistics := rfl
    simp only [Moment.before, Moment.after, Machine.total, Machine.finish, Statistics.add, hstat, hswept', List.length_nil]
      at htotal ⊢
    omega
  · rw [hfresh]
    have hall := hstrung.accounts ih
    rwa [List.length_nil, Nat.zero_add]

/-- An element of the lists in a row is in one of them. -/
theorem exists_of_flatMap_eq {β γ : Type} {f : β → List γ} {bs : List β} {c : γ} {l l' : List γ}
    (h : bs.flatMap f = l ++ c :: l') :
    ∃ (as ds : List β) (l₁ l₂ : List γ) (b : β), bs = as ++ b :: ds ∧ f b = l₁ ++ c :: l₂ ∧ l = as.flatMap f ++ l₁ := by
  induction bs generalizing l with
  | nil => simp at h
  | cons b bs ih =>
    have hlater : ∀ l₁, l = f b ++ l₁ → bs.flatMap f = l₁ ++ c :: l' → ∃ (as ds : List β) (l₁ l₂ : List γ) (b' : β),
        b :: bs = as ++ b' :: ds ∧ f b' = l₁ ++ c :: l₂ ∧ l = as.flatMap f ++ l₁ := by
      rintro l₁ rfl hl₁
      obtain ⟨as, ds, l₁, l₂, b', rfl, hb', rfl⟩ := ih hl₁
      exact ⟨b :: as, ds, l₁, l₂, b', rfl, hb', by rw [List.flatMap_cons, List.append_assoc]⟩
    rw [List.flatMap_cons] at h
    rcases List.append_eq_append_iff.1 h with ⟨l₁, hl, hrest⟩ | ⟨l₂, hb, hrest⟩
    · exact hlater l₁ hl hrest
    · cases l₂ with
      | nil => exact hlater [] (by rw [hb, List.append_nil, List.append_nil]) hrest.symm
      | cons c' l₂ =>
        cases hrest
        exact ⟨[], bs, l, l₂, b, rfl, hb, rfl⟩

/-- So do the parts before one of the moments, and the parts of the part that it is in. -/
theorem Strung.accountsOutside (h : Strung (Machine.Accounts 0) Γ m Ns m') (hNs : ∀ M ∈ Ns, M.Sane)
    (hin : ∀ M ∈ Ns, ∀ l N l', M.trace Γ = l ++ N :: l' → Machine.AccountsOutside (allocated Γ l) M.before N.before)
    (hl : Ns.flatMap (trace Γ) = l ++ N :: l') : Machine.AccountsOutside (allocated Γ l) m N.before := by
  obtain ⟨Ls, Ls', l₁, l₂, P, rfl, hP, rfl⟩ := exists_of_flatMap_eq hl
  have hbefore := h.split.accounts fun M hM => accounts_trace (hNs M (List.mem_append_left _ hM))
  rw [allocated_append]
  exact hbefore.outside (hin P (by simp) l₁ N l₂ hP)

/-- From the beginning of a moment to that of a moment inside of it, if no collection is under way there. -/
theorem Moment.accountsOutside (hM : M.Sane) (hl : M.trace Γ = l ++ N :: l') :
    Machine.AccountsOutside (allocated Γ l) M.before N.before := by
  refine Moment.induction Γ (P := fun M => M.Sane → ∀ l N l', M.trace Γ = l ++ N :: l' →
    Machine.AccountsOutside (allocated Γ l) M.before N.before) (fun M ih hM l N l' hl => ?_) M hM l N l' hl
  have ih := fun L hL => ih L hL (sane_of_mem_parts hL)
  cases l with
  | nil =>
    rw [trace_eq] at hl
    cases hl
    exact fun hm => ⟨hm, fun hc => ⟨hc, rfl⟩⟩
  | cons M' l =>
    rw [trace_eq, List.cons_append] at hl
    obtain ⟨rfl, hrest⟩ := List.cons.inj hl
    rw [allocated_cons]
    rcases M.accounts_cases (Γ := Γ) hM with ⟨r, m, rfl, hr⟩ | ⟨m, rfl, hc⟩ | ⟨hfresh, hstrung⟩
    · rw [parts_of_silent hr] at hrest
      simp at hrest
    · -- inside of a collection it is under way
      have hparts := parts_of_sweep Γ hc
      rw [hparts, List.flatMap_singleton] at hrest
      intro hm
      obtain ⟨hN, hout⟩ := ih _ (by rw [hparts]; exact List.mem_singleton_self _) l N l' hrest (Machine.tallied_swept hm).1
      refine ⟨hN, fun hn => ?_⟩
      have hswept : m.swept.collecting = false := (hout hn).1
      rw [Machine.swept_eq] at hswept
      cases hswept
    · rw [hfresh, List.length_nil, Nat.zero_add]
      exact hstrung.accountsOutside (fun L hL => sane_of_mem_parts hL) ih hrest

/-! ## Runs -/

variable {p : Prog χ σ α}

/-- A run makes as many objects as its moments make. -/
theorem Prog.accounts (Γ : Host χ σ) (p : Prog χ σ α) (m : Machine χ σ) :
    Machine.Accounts (allocated Γ (p.trace Γ m)) m (p.exec Γ m).2 := by
  obtain ⟨Ns, hsane, htrace, hstrung⟩ := p.strung_trace Machine.tie_accounts Γ m
  rw [htrace]
  exact hstrung.accounts fun N hN => accounts_trace (hsane N hN)

theorem Prog.accountsOutside (hl : p.trace Γ m = l ++ N :: l') : Machine.AccountsOutside (allocated Γ l) m N.before := by
  obtain ⟨Ns, hsane, htrace, hstrung⟩ := p.strung_trace Machine.tie_accounts Γ m
  rw [htrace] at hl
  exact hstrung.accountsOutside hsane (fun M hM l N l' h => Moment.accountsOutside (hsane M hM) h) hl

/-- Everything keeps the books right. -/
theorem stable_tallied {P : Machine χ σ → Request χ σ → Prop} : Stable (fun m => m.heap.Tallied) P :=
  .of_steps (fun _ _ hm hs => hs.tallied hm) (fun _ hm _ => (Machine.tallied_swept hm).1) (fun _ _ _ _ _ hm => hm)
    (fun _ _ _ _ _ hm => hm)

theorem Reached.tallied {P : Machine χ σ → Request χ σ → Prop} (hm : Reached Γ P m) : m.heap.Tallied :=
  hm.keep_all stable_tallied Machine.tallied_start (fun _ _ _ _ h _ => h) (fun _ _ h => h)

/-- On every machine of a run, whatever the functions of the host do: the free list has no slot twice, and it has exactly the slots
without an object; the count of live objects is that of the slots with an object, and with the free slots they make up the heap; an
allocation gives a reference that found nothing and leaves every object that is there; and a request that calls nothing makes the
objects of its fresh references, one after the other, and frees none. So the objects ever made are the registry, the globals and
those that the moments of the run have made: at the beginning and at the end of each moment where no collection is under way, and
at the end of the run, they are as many as the live objects and the objects freed together. -/
theorem heap_accounted (Γ : Host χ σ) :
    (∀ m, Reached Γ (fun _ _ => True) m →
      m.heap.free.Nodup ∧ (∀ i, i ∈ m.heap.free ↔ ∃ g, m.heap.slots[i]? = some ⟨g, none⟩) ∧
      m.heap.live = m.heap.slots.countP (fun s => s.object.isSome) ∧
      m.heap.live + m.heap.free.length = m.heap.capacity ∧
      (∀ o, ¬m.heap.contains (m.heap.allocate o).1 = true ∧
        ∀ r, m.heap.contains r = true → (m.heap.allocate o).2.object? r = m.heap.object? r) ∧
      ∀ r : Request χ σ, r.IsSilent → ∃ rs : List Ref,
        m.heap.Does (rs.map .made) (r.perform (call Γ) m).2.heap ∧ rs.Perm ((request r m).fresh Γ)) ∧
    ∀ (p : Prog χ σ α) (limits : Limits) (host : σ),
      (∀ l N l', p.trace Γ (.start limits host) = l ++ N :: l' → N.before.collecting = false →
        2 + allocated Γ l = N.before.heap.live + N.before.statistics.objectsFreed) ∧
      (∀ l (N : Moment χ σ) l', p.trace Γ (.start limits host) = l ++ (N.trace Γ ++ l') → (N.after Γ).collecting = false →
        2 + allocated Γ (l ++ N.trace Γ) = (N.after Γ).heap.live + (N.after Γ).statistics.objectsFreed) ∧
      2 + allocated Γ (p.trace Γ (.start limits host)) =
        (p.exec Γ (.start limits host)).2.heap.live + (p.exec Γ (.start limits host)).2.statistics.objectsFreed := by
  refine ⟨fun m hm => ?_, fun p limits host => ?_⟩
  · have ht := hm.tallied
    refine ⟨ht.nodup, fun i => ht.mem_free_iff, ht.live_eq_countP, ht.sum, fun o => ?_, fun r hr =>
      exists_does_fresh Γ hr ht.toWellFormed⟩
    refine ⟨ht.not_contains_allocate o, fun r hr => ?_⟩
    rw [ht.object?_allocate, if_neg]
    rintro rfl
    exact ht.not_contains_allocate o hr
  · have hstart := Machine.tallied_start (χ := χ) limits host
    have htotal : (Machine.start limits host : Machine χ σ).total = 2 := rfl
    have hbefore : ∀ l N l', p.trace Γ (.start limits host) = l ++ N :: l' → N.before.collecting = false →
        2 + allocated Γ l = N.before.total := by
      intro l N l' hl hc
      exact htotal ▸ (((Prog.accountsOutside hl) hstart).2 hc).2.symm
    refine ⟨hbefore, fun l N l' hl hc => ?_, ?_⟩
    · have hcons : p.trace Γ (.start limits host) = l ++ N :: ((N.parts Γ).flatMap (trace Γ) ++ l') := by
        rw [hl, trace_eq, List.cons_append]
      have hN : N.Sane := Prog.sane_of_mem_trace (hcons ▸ List.mem_append_right l List.mem_cons_self)
      obtain ⟨-, hsame, hadds⟩ := accounts_trace (Γ := Γ) hN ((Prog.accountsOutside hcons) hstart).1
      rw [allocated_append, ← Nat.add_assoc, hbefore l N _ hcons (hsame.symm.trans hc)]
      exact hadds.symm
    · exact htotal ▸ (Prog.accounts Γ p _ hstart).2.2.symm

/-- A host whose functions make a table each. -/
def makingHost : Host Unit Unit := fun _ _ => do return [.table (← Prog.request .newTable)]

/-- Makes a userdata with a finalizer, and keeps nothing of it. -/
def dropFinalizable : Prog Unit Unit Unit := do
  let mt ← Prog.request .newTable
  let finalizer ← Prog.request (.newFunction "finalizer" (.host ()) [])
  Prog.request (.rawSet mt (.string "__gc") (.function finalizer))
  let u ← Prog.request (.newUserdata .unit)
  Prog.request (.setMetatable (.userdata u) (some mt))

/-- Collects twice after that. -/
def collectTwice : Prog Unit Unit Nat := do
  dropFinalizable
  let _ ← Prog.request .collect
  Prog.request .collect

/-- The machine at the first collection. -/
def atFirst : Machine Unit Unit := (dropFinalizable.exec makingHost (.start .standard ())).2

/-- The machine at the second collection. -/
def atSecond : Machine Unit Unit := (Action.collect (call makingHost) atFirst).2

theorem asked_collectTwice : collectTwice.asked (call makingHost) (.start .standard ()) =
    dropFinalizable.asked (call makingHost) (.start .standard ()) ++ (.collect, atFirst) :: ([] ++ (.collect, atSecond) :: []) := by
  have hdrop : (dropFinalizable.run (call makingHost) (.start .standard ())).1 = .ok () := eq_ok_of_toOption (by decide +kernel)
  have hcollect : ((Prog.request .collect).run (call makingHost) atFirst).1 = .ok 0 := eq_ok_of_toOption (by decide +kernel)
  unfold collectTwice
  rw [Prog.asked_bind _ hdrop, List.append_cancel_left_eq]
  show ((Prog.request .collect : Prog Unit Unit Nat) >>= _).asked _ atFirst = _
  rw [Prog.asked_bind _ hcollect, Prog.asked_request, Prog.run_request]
  exact congrArg _ (Prog.asked_request _ _)

/-- The first collection frees nothing, and its finalizer makes a table; the second one frees four of the six objects. -/
theorem heap_accounted_collectTwice :
    atSecond.heap.free = [] ∧
    (∃ before middle after, collectTwice.trace makingHost (.start .standard ()) =
        before ++ .request .collect atFirst :: (middle ++ .request .collect atSecond :: after) ∧
      2 + allocated makingHost before = 5 ∧ 2 + allocated makingHost (before ++ .request .collect atFirst :: middle) = 6) ∧
    2 + allocated makingHost (collectTwice.trace makingHost (.start .standard ())) = 2 + 4 := by
  obtain ⟨hheap, hruns⟩ := heap_accounted (α := Nat) makingHost
  obtain ⟨hbefore, -, hend⟩ := hruns collectTwice .standard ()
  obtain ⟨before, middle, after, htrace⟩ := Prog.exists_trace_of_asked asked_collectTwice
  have hsecond : Reached makingHost (fun _ _ => True) atSecond :=
    ((Reached.start .standard ()).exec dropFinalizable (Prog.obeys_all _ _)).request .collect trivial
  obtain ⟨-, hfree, -⟩ := hheap atSecond hsecond
  refine ⟨List.eq_nil_iff_forall_not_mem.2 fun i hi => ?_, ⟨before, middle, after, htrace, ?_, ?_⟩, ?_⟩
  · obtain ⟨g, hg⟩ := (hfree i).1 hi
    have hall : ∀ s ∈ atSecond.heap.slots, s.object.isSome = true := by decide +kernel
    exact absurd (hall _ (Array.mem_of_getElem? hg)) Bool.false_ne_true
  · exact (hbefore before _ _ htrace (by decide +kernel)).trans (by decide +kernel)
  · refine (hbefore _ (.request .collect atSecond) after ?_ (by decide +kernel)).trans (by decide +kernel)
    rw [htrace, List.append_assoc, List.cons_append]
  · exact hend.trans (by decide +kernel)

end ScriptHost

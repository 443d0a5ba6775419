import ScriptHost.Proofs.Roster

/-!
# What unregistering reaches

To unregister an address makes the handle stale that the pointer table lists for it. A handle that a collection has taken up is not
listed any more, so it keeps its address, and if its finalizer has made it reachable again, scripts still hold it
(`unregister_spec`). Apart from these no handle leads to the address, until a handle of it is asked for again
(`unregister_spares_flagged`).
-/

namespace ScriptHost

variable {χ σ α β : Type} {strict : Prop}

/-! ## Actions on the heap -/

/-- Nothing but the heap is another one. -/
def onHeapOnly : Discipline χ σ where
  Inv _ := True
  Next m m' := ∃ h, m' = { m with heap := h }
  refl m := ⟨m.heap, rfl⟩
  trans := by
    rintro m _ _ ⟨h, rfl⟩ ⟨h', rfl⟩
    exact ⟨h', rfl⟩

theorem Action.keeps_onHeap {K : Machine χ σ → Prop} (f : Heap χ → Except Fault (Heap χ)) :
    onHeapOnly.Keeps K (Action.onHeap f : Action χ σ Unit) (fun _ _ => True) := by
  intro m _ _
  refine ⟨trivial, ?_, fun _ _ => trivial⟩
  exact Action.onHeap_elim (P := fun m' => ∃ h, m' = { m with heap := h }) ⟨m.heap, rfl⟩ fun h _ => ⟨h, rfl⟩

open ScriptHost.Action Discipline in
theorem Action.keeps_unregister_onHeapOnly {K : Machine χ σ → Prop} (a : Address) :
    onHeapOnly.Keeps K (unregister a : Action χ σ Unit) (fun _ _ => True) := by
  have hstill : ∀ {β : Type} {x : Action χ σ β} {L : Machine χ σ → Prop}, (∀ m, (x m).2 = m) →
      onHeapOnly.Keeps L x (fun _ _ => True) := fun h => keeps_of_still h fun _ _ _ _ _ => trivial
  refine (hstill (x := look) fun _ => rfl).bind fun m => ?_
  split
  · exact hstill fun _ => rfl
  · refine (hstill fun _ => rfl).bind fun found => ?_
    split
    · exact (keeps_onHeap _).bind fun _ => keeps_onHeap _
    · exact hstill fun _ => rfl

namespace Machine

variable {m m' : Machine χ σ} {p r s : Ref} {T : Table} {u : Userdata} {a : Address}

/-! ## A forgotten handle is still held -/

namespace Forgets

theorem contains_eq (h : m.Forgets m' p r T u a) (s : Ref) : m'.heap.contains s = m.heap.contains s := by
  unfold Heap.contains
  rw [h.object]
  split
  · rename_i hs
    rw [hs, h.before]
    rfl
  · split
    · rename_i hs
      rw [hs, h.handle]
      rfl
    · rfl

/-- What is under an address says nothing about what a table holds weakly. -/
theorem weakMode_eq (h : m.Forgets m' p r T u a) (t : Table) : m'.heap.weakMode t = m.heap.weakMode t := by
  unfold Heap.weakMode
  cases t.metatable with
  | none => rfl
  | some mt =>
    by_cases hmt : mt = p
    · subst hmt
      have hfield : (T.set (.address a) .nil).field "__mode" = T.field "__mode" := by
        rw [Table.field, Table.get_set, if_neg (by simp)]
        rfl
      simp only [Heap.table_eq_ok_iff.2 h.before, Heap.table_eq_ok_iff.2 h.unlisted, hfield]
    · by_cases hr : mt = r
      · subst hr
        simp only [Heap.table, Heap.get, h.handle, h.forgotten, Object.kind]
      · simp only [Heap.table, Heap.get, h.other hmt hr]

/-- The pointer table holds no handle, and a forgotten handle holds what it held. -/
theorem strong_eq (h : m.Forgets m' p r T u a) (hweak : m.heap.ModeSays T 'v')
    (hentries : ∀ e ∈ T.entries, ∃ b s, e = (Key.address b, Value.userdata s)) (s : Ref) :
    m'.heap.strong s = m.heap.strong s := by
  have hnone : ∀ t : Table, t.metatable = T.metatable → (∀ e ∈ t.entries, ∃ b s, e = (Key.address b, Value.userdata s)) →
      m.heap.strongEdges (.table t) = t.metatable.toList := by
    intro t hmt ht
    have hvalues : (m.heap.weakMode t).values = true := by
      rw [Heap.weakMode_values_iff]
      obtain ⟨mt, rest⟩ := hweak
      exact ⟨mt, hmt ▸ rest⟩
    have hempty : t.entries.flatMap (Heap.strongEntry (m.heap.weakMode t)) = [] := by
      rw [List.flatMap_eq_nil_iff]
      intro e he
      obtain ⟨b, s, rfl⟩ := ht e he
      simp [Heap.strongEntry, hvalues, Key.ref?, Key.toValue, Value.ref?]
    rw [Heap.strongEdges, hempty, List.append_nil]
  have hsame : ∀ o : Object χ, m'.heap.strongEdges o = m.heap.strongEdges o := by
    intro o
    cases o with
    | table t => simp only [Heap.strongEdges, h.weakMode_eq]
    | userdata u => rfl
    | function f => rfl
  unfold Heap.strong
  rw [h.object]
  split
  · rename_i hs
    have herased : ∀ e ∈ (T.set (.address a) .nil).entries, ∃ b s, e = (Key.address b, Value.userdata s) := by
      intro e he
      rcases Table.mem_entries_set he with ⟨-, hnil⟩ | ⟨he, -⟩
      · exact absurd rfl hnil
      · exact hentries e he
    rw [hs, h.before, Option.map_some, Option.map_some, Option.getD_some, Option.getD_some, hsame,
      hnone _ (T.metatable_set _ _) herased, hnone T rfl hentries, T.metatable_set]
  · split
    · rename_i hs
      rw [hs, h.handle]
      rfl
    · cases m.heap.object? s with
      | none => rfl
      | some o => exact hsame o

/-- Of the handles one has another address after it. -/
theorem isHandle_iff (h : m.Forgets m' p r T u a) {b : Address} {f : Bool} (hb : b ≠ Address.null) :
    m'.IsHandle s b f ↔ m.IsHandle s b f ∧ s ≠ r := by
  unfold IsHandle
  by_cases hs : s = r
  · subst hs
    simp only [h.forgotten, Option.some.injEq, Object.userdata.injEq, ne_eq, not_true_eq_false, and_false, iff_false]
    rintro ⟨v, rfl, hpay, -⟩
    exact hb (Payload.handle.inj hpay).symm
  · by_cases hp : s = p
    · subst hp
      simp [h.unlisted, h.before]
    · simp [h.other hp hs, hs]

end Forgets

/-- Unregistering an address other than null succeeds. The roots keep what they kept, and of the handles for the address those are
left that a collection has taken up. -/
theorem Managed.unregister_spec (hm : m.Managed strict) (ha : a ≠ Address.null) :
    ∃ m', Action.unregister a m = (.ok (), m') ∧ m'.Managed strict ∧
      (∀ r, m'.heap.Kept m'.IsRoot r ↔ m.heap.Kept m.IsRoot r) ∧
      ∀ r f, m'.IsHandle r a f ↔ m.IsHandle r a f ∧ f = true := by
  have hlisted : ∀ s, m.IsHandle s a false → m.Lists a s := fun s hs => hm.rostered.listed s a hs ha
  rcases Action.unregister_cases hm a with ⟨h, hnone⟩ | ⟨p, r, T, u, m', h, hp, hfind, hforgets⟩
  · refine ⟨m, h, hm, fun _ => .rfl, fun s f => ⟨fun hs => ⟨hs, ?_⟩, And.left⟩⟩
    cases f with
    | true => rfl
    | false => exact absurd (hlisted s hs) (hnone s)
  · obtain ⟨mt, M, hmt, hM, hmode, -⟩ := (hm.orderly.badged _ (by decide) p T hp hforgets.before).2 _ Registry.modeOf_pointers
    have hweak : m.heap.ModeSays T 'v' := (Heap.modeSays_of_field hmt hM hmode 'v').2 (by decide)
    have hstrong := hforgets.strong_eq hweak fun e he => by
      obtain ⟨b, s, he, -⟩ := hm.rostered.listing p T hp hforgets.before e he
      exact ⟨b, s, he⟩
    obtain ⟨-, ⟨heap, hheap⟩, -⟩ := Action.keeps_unregister_onHeapOnly (K := fun _ => True) a m trivial trivial
    have hroots : m'.IsRoot = m.IsRoot := by
      rw [h] at hheap
      rw [show m' = { m with heap := heap } from hheap]
      rfl
    have hact : m.Act (.wide strict) m' := by
      have hact := Action.act_unregister (S := .wide strict) hm (a := a) trivial
      rwa [h] at hact
    refine ⟨m', h, hact.managed hm, fun s => ?_, fun s f => ?_⟩
    · rw [hroots]
      exact Heap.kept_congr hforgets.contains_eq hstrong
    · rw [hforgets.isHandle_iff ha]
      refine and_congr_right fun hs => ?_
      have hr : m.IsHandle r a false := hm.isHandle_of_lists ⟨p, T, hp, hforgets.before, hfind⟩
      constructor
      · intro hne
        cases f with
        | true => rfl
        | false =>
          obtain ⟨q, Q, hq, hQ, hfind'⟩ := hlisted s hs
          obtain rfl := hq.eq hp
          cases hforgets.before.symm.trans hQ
          cases hfind.symm.trans hfind'
          exact absurd rfl hne
      · rintro rfl rfl
        exact absurd (hs.eq hr).2 (by decide)

/-! ## Addresses of values -/

theorem identity?_eq_some_iff {v : Value} : m.identity? v = some a ↔ ∃ r f, v = .userdata r ∧ m.IsHandle r a f := by
  constructor
  · intro h
    obtain ⟨r, b, f, rfl, hr⟩ := isHandle_of_identity? (Option.isSome_of_eq_some h)
    refine ⟨r, f, rfl, ?_⟩
    obtain ⟨⟨p, mt, e, f⟩, hu, rfl, rfl⟩ := id hr
    simp only [identity?, Value.userdata?, Option.bind_some, address?, Heap.userdata_eq_ok_iff.2 hu, Option.some.injEq] at h
    exact h ▸ hr
  · rintro ⟨r, f, rfl, ⟨p, mt, e, f⟩, hu, rfl, rfl⟩
    simp only [identity?, Value.userdata?, Option.bind_some, address?, Heap.userdata_eq_ok_iff.2 hu]

/-- A class finds the address that a handle has. -/
theorem identity?_of_unwrap {v : Value} {name : String} (h : m.unwrap v name = .ok (some a)) : m.identity? v = some a := by
  unfold unwrap addressAs? Address.nonNull? at h
  cases hv : m.identity? v with
  | none => simp [hv] at h
  | some b =>
    simp only [hv] at h
    split at h
    · rename_i hmarked
      split at hmarked
      · cases hmarked
        split at h
        · cases h
        · cases h
          rfl
      · cases hmarked
    · cases h

end Machine

/-! ## Runs -/

/-- Where no handle of an address is asked for, there are no other handles for it than before. -/
theorem Course.isHandle_of {S : Scope} (hS : ∀ t, ¬S.spared t) {m : Machine χ σ} {es : List (Event χ σ)} {a : Address}
    (h : Course (Machine.Minds S) m es) (hm : m.Managed S.strict) (hlists : ¬S.lists a) (ha : a ≠ Address.null) {r : Ref}
    {f : Bool} (hr : (m.follow es).IsHandle r a f) : ∃ f, m.IsHandle r a f := by
  refine (h.frame hS (I := fun m' => ∀ r f, m'.IsHandle r a f → ∃ f, m.IsHandle r a f) ?_ ?_ hm fun r f hr => ⟨f, hr⟩).2 r f hr
  · intro m₁ m₂ _ hact ih r f hr
    rcases hact.isHandle_of ha hr with hr | h
    · exact ih r f hr
    · exact absurd h hlists
  · rintro m₁ _ ih r f ⟨u', hu', hpay, -⟩
    obtain ⟨-, u, hu, rfl⟩ := Machine.exists_of_swept_userdata hu'
    exact ih r u.finalized ⟨u, hu, hpay, rfl⟩

/-- In a run in which native code minds the binding layer, unregistering an address other than null succeeds. A handle that the
roots keep has the address after that if it had it and a collection had taken it up, and only then. As long as no handle of the address is
asked for again, nothing else has the address or is unwrapped to it, under the name of whatever class. -/
theorem unregister_spares_flagged {Γ : Host χ σ} (hΓ : Γ.Lawful (Machine.Minds (.wide strict)) (Machine.Managed strict))
    {m : Machine χ σ} (hm : Reached Γ (Machine.Minds (.wide strict)) m) {a : Address} (ha : a ≠ Address.null) :
    ∃ m', Action.unregister a m = (.ok (), m') ∧
      (∀ r, (m'.heap.Kept m'.IsRoot r ∧ m'.identity? (.userdata r) = some a) ↔
        (m.heap.Kept m.IsRoot r ∧ m.IsHandle r a true)) ∧
      ∀ es, Course (Machine.Minds (.wide strict)) m' es → (∀ e ∈ es, ¬e.AsksFor a) →
        ∀ v, (m'.follow es).identity? v = some a ∨ (∃ name, (m'.follow es).unwrap v name = .ok (some a)) →
          ∃ r, v = .userdata r ∧ m.IsHandle r a true := by
  have hmanaged : m.Managed strict := hm.managed (S := .wide strict) (fun _ h => h) hΓ
  obtain ⟨m', h, hm', hkept, hhandle⟩ := hmanaged.unregister_spec ha
  refine ⟨m', h, fun r => ?_, fun es hes hunasked v hv => ?_⟩
  · rw [hkept, Machine.identity?_eq_some_iff]
    refine and_congr_right fun _ => ⟨?_, fun hr => ⟨r, true, rfl, (hhandle r true).2 ⟨hr, rfl⟩⟩⟩
    rintro ⟨s, f, hs, hr⟩
    cases hs
    obtain ⟨hr, rfl⟩ := (hhandle r f).1 hr
    exact hr
  · have hidentity : (m'.follow es).identity? v = some a := by
      rcases hv with hv | ⟨name, hv⟩
      · exact hv
      · exact Machine.identity?_of_unwrap hv
    obtain ⟨r, f, rfl, hr⟩ := Machine.identity?_eq_some_iff.1 hidentity
    obtain ⟨f, hr⟩ := (hes.unasked hunasked).isHandle_of (fun _ h => h) hm' (fun h => h rfl) ha hr
    obtain ⟨hr, rfl⟩ := (hhandle r f).1 hr
    exact ⟨r, rfl, hr⟩

/-- The roots keep the handle that its finalizer has put among the globals. -/
theorem kept_afterKeep : afterKeep.heap.Kept afterKeep.IsRoot ⟨9, 0⟩ :=
  (Machine.has_held_iff (by decide +kernel)).1 (by decide +kernel)

/-- The handle that its finalizer has kept has its address also after that is unregistered. The handle listed instead has not. -/
theorem unregister_afterKeep :
    ∃ m', Action.unregister 0x10 afterKeep = (.ok (), m') ∧ m'.heap.Kept m'.IsRoot ⟨9, 0⟩ ∧
      m'.identity? (.userdata ⟨9, 0⟩) = some 0x10 ∧ m'.identity? (.userdata ⟨12, 0⟩) ≠ some 0x10 := by
  obtain ⟨m', h, hkept, hlater⟩ := unregister_spares_flagged (mindful_keepingHost True (.wide True) fun _ h => h)
    minded_afterKeep (a := 0x10) (by decide)
  obtain ⟨hroots, hidentity⟩ := (hkept ⟨9, 0⟩).2 ⟨kept_afterKeep, isHandle_afterKeep.1⟩
  refine ⟨m', h, hroots, hidentity, fun hn => ?_⟩
  obtain ⟨r, hr, hflagged⟩ := hlater [] trivial (List.forall_mem_nil _) _ (Or.inl hn)
  cases hr
  exact absurd (hflagged.eq isHandle_afterKeep.2).2 (by decide)

/-- That after unregistering an address no handle the roots keep has it, is false: a finalizer may have kept one. -/
theorem unregister_reaches_all_false :
    ¬∀ (Γ : Host Unit Unit) (m m' : Machine Unit Unit) (r : Ref) (a : Address),
      Γ.Lawful (Machine.Minds (.wide True)) (Machine.Managed True) → Reached Γ (Machine.Minds (.wide True)) m →
      a ≠ Address.null → Action.unregister a m = (.ok (), m') → m'.heap.Kept m'.IsRoot r →
      m'.identity? (.userdata r) ≠ some a := by
  intro hall
  have hΓ := mindful_keepingHost True (.wide True) fun _ h => h
  have hmanaged : afterKeep.Managed True := minded_afterKeep.managed (S := .wide True) (fun _ h => h) hΓ
  obtain ⟨m', h, -, hkept, hhandle⟩ := hmanaged.unregister_spec (a := 0x10) (by decide)
  refine hall keepingHost afterKeep m' ⟨9, 0⟩ 0x10 hΓ minded_afterKeep (by decide) h ((hkept _).2 kept_afterKeep) ?_
  exact Machine.identity?_eq_some_iff.2 ⟨_, true, rfl, (hhandle _ _).2 ⟨isHandle_afterKeep.1, rfl⟩⟩

end ScriptHost

import ScriptHost.Proofs.Discipline
import ScriptHost.Proofs.Intact

/-!
# Operations that leave no reference dangling

An operation that calls nothing stores no references but those it is handed, those it finds and those of the objects it makes, and
it frees nothing (`Request.safe_perform`). So where it is handed references that find something, or others that are known for
another reason, the machine holds no others afterwards. An operation is put together from actions of which is said which references
they need and which they give (`Action.Safe`). Where nothing is known but what finds something, an operation leaves a sound machine
sound (`Action.Safe.sound`).
-/

namespace ScriptHost

variable {χ σ α β : Type}

namespace Machine

/-- The references are known: each finds an object, or is of a kind that is known anyway. -/
def Knows (D : Ref → Prop) (m : Machine χ σ) (refs : List Ref) : Prop := ∀ r ∈ refs, D r ∨ m.heap.contains r = true

variable {D : Ref → Prop} {m : Machine χ σ}

@[simp] theorem knows_append {l l' : List Ref} : m.Knows D (l ++ l') ↔ m.Knows D l ∧ m.Knows D l' := by
  simp only [Knows, List.mem_append, or_imp, forall_and]

@[simp] theorem knows_cons {r : Ref} {l : List Ref} : m.Knows D (r :: l) ↔ (D r ∨ m.heap.contains r = true) ∧ m.Knows D l := by
  simp [Knows]

@[simp] theorem knows_nil : m.Knows D [] := fun _ h => nomatch h

/-- A machine with a well-formed heap that holds no references but known ones. -/
structure Informed (D : Ref → Prop) (m : Machine χ σ) : Prop where
  wellFormed : m.heap.WellFormed
  holds : m.HoldsOnly (fun r => D r ∨ m.heap.contains r = true)

/-- Where nothing is known but what finds something. -/
theorem informed_iff_sound : m.Informed (fun _ => False) ↔ m.Sound := by
  constructor
  · intro h
    have hlive := h.holds.mono fun _ hr => hr.resolve_left id
    exact ⟨h.wellFormed, hlive.roots, hlive.objects⟩
  · exact fun h => ⟨h.wellFormed, h.intact.holdsOnly.mono fun _ hr => Or.inr hr⟩

end Machine

/-- Machines stay informed, and what was found is found. -/
def soundness (D : Ref → Prop) : Discipline χ σ where
  Inv := Machine.Informed D
  Next m m' := ∀ r, m.heap.contains r = true → m'.heap.contains r = true
  refl _ _ h := h
  trans _ _ _ h h' r hr := h' r (h r hr)

theorem lasts_knows (D : Ref → Prop) (l : List Ref) : (soundness D : Discipline χ σ).Lasts (fun m => m.Knows D l) :=
  fun _ _ h hl r hr => (hl r hr).imp_right (h r)

namespace Action

/-- The action keeps machines informed and frees nothing if the references it needs are known, and the ones it gives are known then. -/
def Safe (D : Ref → Prop) (needs : List Ref) (x : Action χ σ α) (gives : α → List Ref) : Prop :=
  (soundness D).Keeps (fun m => m.Knows D needs) x (fun a m => m.Knows D (gives a))

variable {D : Ref → Prop} {L L' : List Ref} {G : α → List Ref} {G' : β → List Ref}

/-- With live references it leaves a sound machine sound. -/
theorem Safe.sound {x : Action χ σ α} (hx : Safe (fun _ => False) L x G) {m : Machine χ σ} (hm : m.Sound) (hl : m.Live L) :
    (x m).2.Sound :=
  Machine.informed_iff_sound.1 (hx m (Machine.informed_iff_sound.2 hm) fun r hr => Or.inr (hl r hr)).1

theorem Safe.bind {x : Action χ σ α} {f : α → Action χ σ β} (hx : Safe D L x G) (hf : ∀ a, Safe D (G a ++ L) (f a) G') :
    Safe D L (x >>= f) G' :=
  (Discipline.Keeps.bind (Discipline.Keeps.frame (lasts_knows D L) hx)
    fun a => (hf a).weaken (fun _ h => Machine.knows_append.2 h) fun _ _ h => h).weaken (fun _ h => ⟨h, h⟩) fun _ _ h => h

theorem Safe.mono {x : Action χ σ α} (hx : Safe D L x G) (hL : L ⊆ L') : Safe D L' x G :=
  hx.weaken (fun _ h r hr => h r (hL hr)) fun _ _ h => h

theorem Safe.drop {x : Action χ σ α} (hx : Safe D L x G) : Safe D L x (fun _ => []) :=
  hx.weaken (fun _ h => h) fun _ _ _ => Machine.knows_nil

theorem safe_pure {a : α} (h : G a ⊆ L) : Safe D L (pure a : Action χ σ α) G :=
  Discipline.keeps_pure fun _ _ hl r hr => hl r (h hr)

theorem safe_fail (e : Fault) : Safe D L (fail e : Action χ σ α) G := Discipline.keeps_fail e

theorem safe_query {f : Machine χ σ → Except Fault α} (h : ∀ m a, m.Informed D → f m = .ok a → m.Knows D (G a)) :
    Safe D L (query f) G :=
  Discipline.keeps_query fun m a hm _ ha => h m a hm ha

theorem safe_look : Safe D L (look : Action χ σ (Machine χ σ)) (fun _ => []) :=
  safe_query fun _ _ _ _ => Machine.knows_nil

/-- A new object that mentions known references only. -/
theorem safe_allocate {o : Object χ} (ho : o.refs ⊆ L) (hu : ∀ t, o = .table t → t.Unique) :
    Safe D L (allocate o : Action χ σ Ref) (fun r => [r]) := by
  intro m hm hl
  obtain ⟨r, m', h, hfresh, hwritten⟩ := exists_allocate hm.wellFormed hu
  have hkeep : ∀ s, m.heap.contains s = true → m'.heap.contains s = true := by
    intro s hs
    obtain ⟨p, hp⟩ := Heap.contains_iff.1 hs
    exact Heap.contains_of_object? ((hwritten.other (Machine.ne_of_not_contains hfresh hp)).trans hp)
  have hm' : m' = { m with heap := m'.heap } := by
    unfold allocate at h
    cases h
    rfl
  rw [h]
  refine ⟨⟨hwritten.wellFormed, fun s hs => ?_, fun s p hp => ?_⟩, hkeep, ?_⟩
  · rw [hm'] at hs
    exact (hm.holds.roots s hs).imp_right (hkeep s)
  · intro q hq
    rw [hwritten.object] at hp
    split at hp
    · cases hp
      exact (hl q (ho hq)).imp_right (hkeep q)
    · exact (hm.holds.objects s p hp q hq).imp_right (hkeep q)
  · rintro a ha
    cases ha
    exact Machine.knows_cons.2 ⟨Or.inr (Heap.contains_of_object? hwritten.self), Machine.knows_nil⟩

/-- Overwriting an object with one that mentions nothing but what the old one mentioned and known references. -/
theorem safe_onHeap {f : Heap χ → Except Fault (Heap χ)}
    (hf : ∀ h h', f h = .ok h' → ∃ r o o', h.object? r = some o ∧ h' = h.put r.slot o' ∧
      (∀ s ∈ o'.refs, s ∈ o.refs ∨ s ∈ L) ∧ (h.WellFormed → ∀ t, o' = .table t → t.Unique)) :
    Safe D L (onHeap f : Action χ σ Unit) (fun _ => []) := by
  intro m hm hl
  unfold onHeap
  cases hc : f m.heap with
  | error e => exact ⟨hm, fun _ h => h, fun _ h => nomatch h⟩
  | ok h' =>
    obtain ⟨r, o, o', ho, rfl, hrefs, hu⟩ := hf _ _ hc
    have hr := Heap.contains_of_object? ho
    have hwritten := Machine.written_put hm.wellFormed hr (hu hm.wellFormed)
    have hkeep : ∀ s, m.heap.contains s = true → (m.heap.put r.slot o').contains s = true := by
      intro s hs
      unfold Heap.contains at hs ⊢
      rw [Heap.object?_put hr]
      split
      · rfl
      · exact hs
    refine ⟨⟨hwritten.wellFormed, fun s hs => (hm.holds.roots s hs).imp_right (hkeep s), fun s p hp q hq => ?_⟩, hkeep,
      fun _ _ => Machine.knows_nil⟩
    rw [hwritten.object] at hp
    split at hp
    · cases hp
      rcases hrefs q hq with h | h
      · exact (hm.holds.objects r o ho q h).imp_right (hkeep q)
      · exact (hl q h).imp_right (hkeep q)
    · exact (hm.holds.objects s p hp q hq).imp_right (hkeep q)

theorem safe_changeTable (t : Ref) {f : Table → Table} (hf : ∀ T, ∀ r ∈ (f T).refs, r ∈ T.refs ∨ r ∈ L)
    (hu : ∀ T, T.Unique → (f T).Unique) :
    Safe D L (onHeap (fun h => h.changeTable t f) : Action χ σ Unit) (fun _ => []) := by
  refine safe_onHeap fun h h' hh => ?_
  obtain ⟨T, hT, rfl⟩ := Heap.changeTable_eq_ok_iff.1 hh
  exact ⟨t, _, _, hT, rfl, hf T, fun hw _ e => Object.table.inj e ▸ hu T (hw.unique t T hT)⟩

theorem safe_changeUserdata (r : Ref) {f : Userdata → Userdata}
    (hf : ∀ u, ∀ s ∈ (Object.userdata (f u) : Object χ).refs, s ∈ (Object.userdata u : Object χ).refs ∨ s ∈ L) :
    Safe D L (onHeap (fun h => h.changeUserdata r f) : Action χ σ Unit) (fun _ => []) := by
  refine safe_onHeap fun h h' hh => ?_
  obtain ⟨u, hu, rfl⟩ := Heap.changeUserdata_eq_ok_iff.1 hh
  exact ⟨r, _, _, hu, rfl, hf u, fun _ _ e => nomatch e⟩

/-! ### Raw access -/

theorem safe_newTable : Safe D L (newTable : Action χ σ Ref) (fun r => [r]) :=
  safe_allocate (by simp [Object.refs, Table.refs, Table.empty]) fun _ e => Object.table.inj e ▸ Table.unique_empty

theorem safe_newUserdata (p : Payload) : Safe D L (newUserdata p : Action χ σ Ref) (fun r => [r]) :=
  safe_allocate (by simp [Object.refs, Userdata.ofPayload]) fun _ e => nomatch e

theorem safe_newFunction (name : String) (code : Code χ) {upvalues : List Value} (h : upvalues.flatMap Value.refs ⊆ L) :
    Safe D L (newFunction name code upvalues : Action χ σ Ref) (fun r => [r]) :=
  safe_allocate h fun _ e => nomatch e

theorem safe_store (t : Ref) {k : Key} {v : Value} (hk : k.ref?.toList ⊆ L) (hv : v.refs ⊆ L) :
    Safe D L (onHeap (fun h => h.changeTable t (fun table => table.set k v)) : Action χ σ Unit) (fun _ => []) := by
  refine safe_changeTable t (fun T r hr => ?_) fun _ hT => hT.set k v
  rcases T.refs_set_subset k v r hr with h | h | h
  · exact Or.inl h
  · exact Or.inr (hk (by simpa using h))
  · exact Or.inr (hv h)

theorem safe_setField (t : Ref) (name : String) {v : Value} (hv : v.refs ⊆ L) :
    Safe D L (setField t name v : Action χ σ Unit) (fun _ => []) :=
  safe_store t (List.nil_subset _) hv

theorem safe_setAt (t : Ref) (i : Int64) {v : Value} (hv : v.refs ⊆ L) :
    Safe D L (setAt t i v : Action χ σ Unit) (fun _ => []) :=
  safe_store t (List.nil_subset _) hv

theorem safe_rawSet (t : Ref) {k v : Value} (hk : k.refs ⊆ L) (hv : v.refs ⊆ L) :
    Safe D L (rawSet t k v : Action χ σ Unit) (fun _ => []) := by
  unfold rawSet
  split
  · exact safe_fail _
  · rename_i key hkey
    refine safe_store t ?_ hv
    rw [Key.ref?_ofValue hkey]
    exact hk

theorem safe_remove (t : Ref) (k : Value) : Safe D L (remove t k : Action χ σ (Option Value)) (fun _ => []) := by
  unfold remove
  split
  · exact safe_fail _
  · rename_i key _
    refine (safe_query (G := fun _ => []) fun _ _ _ _ => Machine.knows_nil).bind fun table => ?_
    have herase : ∀ T : Table, ∀ r ∈ (T.erase key).refs, r ∈ T.refs ∨ r ∈ [] ++ L := fun T r hr =>
      Or.inl (T.refs_erase_subset _ r hr)
    exact (safe_changeTable t herase fun _ hT => hT.erase _).bind fun _ => safe_pure (List.nil_subset _)

theorem safe_requireTable (r : Option Ref) : Safe D L (requireTable r : Action χ σ Unit) (fun _ => r.toList) := by
  cases r with
  | none => exact safe_pure (List.nil_subset _)
  | some r =>
    refine (safe_query (G := fun _ => [r]) fun m t _ ht => ?_).bind fun _ => safe_pure (by simp)
    exact Machine.knows_cons.2 ⟨Or.inr (Heap.contains_of_object? (Heap.table_eq_ok_iff.1 ht)), Machine.knows_nil⟩

theorem safe_setMetatable (v : Value) (mt : Option Ref) :
    Safe D L (setMetatable v mt : Action χ σ Unit) (fun _ => []) := by
  unfold setMetatable
  refine (safe_requireTable mt).bind fun _ => ?_
  split
  · refine safe_changeTable _ (fun T r hr => ?_) fun _ hT => hT
    rcases Table.mem_refs_iff.1 hr with h | h
    · exact Or.inr (by simp [show mt = some r from h])
    · exact Or.inl (Table.mem_refs_iff.2 (Or.inr h))
  · refine safe_changeUserdata _ fun u s hs => ?_
    simp only [Object.refs, List.mem_append, Option.mem_toList] at hs ⊢
    rcases hs with h | h
    · exact Or.inr (Or.inl h)
    · exact Or.inl (Or.inr h)
  · exact safe_fail _

theorem safe_setEnvironment (u : Ref) (env : Option Ref) :
    Safe D L (setEnvironment u env : Action χ σ Unit) (fun _ => []) := by
  refine (safe_requireTable env).bind fun _ => safe_changeUserdata _ fun u s hs => ?_
  simp only [Object.refs, List.mem_append, Option.mem_toList] at hs ⊢
  rcases hs with h | h
  · exact Or.inl (Or.inl h)
  · exact Or.inr (Or.inl h)

theorem safe_setPayload (u : Ref) (p : Payload) : Safe D L (setPayload u p : Action χ σ Bool) (fun _ => []) := by
  refine (safe_query (G := fun _ => []) fun _ _ _ _ => Machine.knows_nil).bind fun held => ?_
  split
  · exact (safe_changeUserdata u (f := fun u => { u with payload := p }) fun _ _ h => Or.inl h).bind
      fun _ => safe_pure (List.nil_subset _)
  · exact safe_pure (List.nil_subset _)

theorem safe_setRegistry (name : String) {v : Value} (hv : v.refs ⊆ L) :
    Safe D L (setRegistry name v : Action χ σ Unit) (fun _ => []) :=
  safe_look.bind fun m => (safe_setField m.registry name hv).mono (List.subset_append_right _ _)

theorem safe_setGlobal (name : String) {v : Value} (hv : v.refs ⊆ L) :
    Safe D L (setGlobal name v : Action χ σ Unit) (fun _ => []) :=
  safe_look.bind fun m => (safe_setField m.globals name hv).mono (List.subset_append_right _ _)

theorem safe_registryField (name : String) :
    Safe D L (query (fun m : Machine χ σ => m.registryField name)) Value.refs :=
  safe_query fun _ _ hm h => hm.holds.rawField h

theorem safe_metatableNamed (name : String) :
    Safe D L (metatableNamed name : Action χ σ (Ref × Bool)) (fun found => [found.1]) := by
  refine (safe_registryField name).bind fun v => ?_
  split
  · exact safe_pure (by simp [Value.refs, Value.ref?])
  · refine safe_newTable.bind fun mt => (safe_setField mt "__name" (List.nil_subset _)).bind fun _ => ?_
    refine (safe_setRegistry name (v := .table mt) ?_).bind fun _ => safe_pure ?_
    · simp [Value.refs, Value.ref?]
    · simp

/-! ### Stack and pins -/

/-- A change of what the machine holds on to, to what it held on to before and known references. -/
theorem safe_of_roots {x : Action χ σ α} (hheap : ∀ m, (x m).2.heap = m.heap)
    (hroots : ∀ m : Machine χ σ, ∀ r, (x m).2.IsRoot r → m.IsRoot r ∨ r ∈ L) : Safe D L x (fun _ => []) := by
  intro m hm hl
  have hholds := hm.holds.of_roots (hheap m) fun r hr => (hroots m r hr).imp_right (hl r)
  have hwell := hm.wellFormed
  rw [← hheap m] at hholds hwell
  refine ⟨⟨hwell, hholds⟩, fun r hr => ?_, fun _ _ => Machine.knows_nil⟩
  rw [hheap]
  exact hr

theorem safe_push (v : Value) : Safe D v.refs (push v : Action χ σ Unit) (fun _ => []) := by
  refine safe_of_roots (fun _ => rfl) fun m r hr => ?_
  rcases hr with h | h | ⟨w, hw, hr⟩ | h
  · exact Or.inl (Or.inl h)
  · exact Or.inl (Or.inr (Or.inl h))
  · rcases Array.mem_push.1 hw with h | rfl
    · exact Or.inl (Or.inr (Or.inr (Or.inl ⟨w, h, hr⟩)))
    · exact Or.inr (by simp [Value.refs, hr])
  · exact Or.inl (Or.inr (Or.inr (Or.inr h)))

/-- A stack that has nothing new on it but nils. -/
theorem safe_of_stack {x : Action χ σ α} (hx : ∀ m, ∃ s, (x m).2 = { m with stack := s } ∧ ∀ v ∈ s, v ∈ m.stack ∨ v = .nil) :
    Safe D L x (fun _ => []) := by
  refine safe_of_roots (fun m => ?_) fun m r hr => Or.inl ?_
  · obtain ⟨s, hs, -⟩ := hx m
    rw [hs]
  · obtain ⟨s, hs, hsub⟩ := hx m
    rw [hs] at hr
    rcases hr with h | h | ⟨w, hw, hr⟩ | h
    · exact Or.inl h
    · exact Or.inr (Or.inl h)
    · rcases hsub w hw with h | rfl
      · exact Or.inr (Or.inr (Or.inl ⟨w, h, hr⟩))
      · cases hr
    · exact Or.inr (Or.inr (Or.inr h))

theorem safe_pop : Safe D L (pop : Action χ σ Value) (fun _ => []) := by
  refine safe_of_stack fun m => ⟨m.stack.pop, rfl, fun v hv => Or.inl ?_⟩
  rw [← Array.mem_toList_iff, Array.toList_pop] at hv
  exact Array.mem_toList_iff.1 (List.dropLast_subset _ hv)

theorem safe_setTop (height : Nat) : Safe D L (setTop height : Action χ σ Unit) (fun _ => []) := by
  refine safe_of_stack fun m => ⟨_, rfl, fun v hv => ?_⟩
  rcases Array.mem_append.1 hv with h | h
  · exact Or.inl (mem_of_mem_take h)
  · exact Or.inr (Array.eq_of_mem_replicate h)

/-- Other pins than before. -/
theorem safe_of_pins {x : Action χ σ α}
    (hx : ∀ m, ∃ s, (x m).2 = { m with pins := s } ∧ ∀ p v, s.get? p = some v → m.pins.get? p = some v ∨ v.refs ⊆ L) :
    Safe D L x (fun _ => []) := by
  refine safe_of_roots (fun m => ?_) fun m r hr => ?_
  · obtain ⟨s, hs, -⟩ := hx m
    rw [hs]
  · obtain ⟨s, hs, hsub⟩ := hx m
    rw [hs] at hr
    rcases hr with h | h | h | ⟨p, w, hp, hr⟩ | h
    · exact Or.inl (Or.inl h)
    · exact Or.inl (Or.inr (Or.inl h))
    · exact Or.inl (Or.inr (Or.inr (Or.inl h)))
    · rcases hsub p w hp with h | h
      · exact Or.inl (Or.inr (Or.inr (Or.inr (Or.inl ⟨p, w, h, hr⟩))))
      · exact Or.inr (h (by simp [Value.refs, hr]))
    · exact Or.inl (Or.inr (Or.inr (Or.inr (Or.inr h))))

/-- A place of the pins holds what was put there, or what it held. -/
theorem join_setIfInBounds {s : Array (Option Value)} {i j : Nat} {x : Option Value} {v : Value}
    (h : ((s.setIfInBounds i x)[j]?).join = some v) : (s[j]?).join = some v ∨ x = some v := by
  rw [Array.getElem?_setIfInBounds] at h
  split at h
  · split at h
    · exact Or.inr h
    · cases h
  · exact Or.inl h

theorem safe_pin (v : Value) : Safe D v.refs (pin v : Action χ σ Pin) (fun _ => []) := by
  refine safe_of_pins fun m => ⟨(m.pins.pin v).2, rfl, fun p w hw => ?_⟩
  have hold : m.pins.get? p = some w ∨ some v = some w := by
    unfold Pins.pin at hw
    split at hw
    · exact join_setIfInBounds hw
    · simp only [Pins.get?, Array.getElem?_push] at hw
      split at hw
      · exact Or.inr hw
      · exact Or.inl hw
  exact hold.imp_right fun h => by rw [Option.some.inj h]; exact List.Subset.refl _

theorem safe_unpin (p : Pin) : Safe D L (unpin p : Action χ σ (Option Value)) (fun _ => []) := by
  refine safe_of_pins fun m => ⟨(m.pins.unpin p).2, rfl, fun q w hw => Or.inl ?_⟩
  unfold Pins.unpin at hw
  split at hw
  · rcases join_setIfInBounds hw with h | h
    · exact h
    · cases h
  · exact hw

/-! ### The binding layer -/

theorem safe_registryTable (name : String) (mode : Option String) :
    Safe D L (Registry.table name mode : Action χ σ Ref) (fun r => [r]) := by
  refine (safe_registryField name).bind fun v => ?_
  split
  · exact safe_pure (by simp [Value.refs, Value.ref?])
  · have hnew : ∀ L, Safe D L ((mode.map Registry.newWeakTable).getD newTable : Action χ σ Ref) (fun r => [r]) := by
      intro L
      cases mode with
      | none => exact safe_newTable
      | some mode =>
        exact safe_newTable.bind fun t => safe_newTable.bind fun mt => (safe_setField mt _ (List.nil_subset _)).bind fun _ =>
          (safe_setMetatable _ _).bind fun _ => safe_pure (by simp)
    refine (hnew _).bind fun t => (safe_setRegistry name (v := .table t) ?_).bind fun _ => safe_pure ?_
    · simp [Value.refs, Value.ref?]
    · simp

theorem safe_ensureHandle (a : Address) : Safe D L (ensureHandle a : Action χ σ Ref) (fun r => [r]) := by
  refine (safe_registryTable _ _).bind fun pointers => ?_
  refine (safe_query (G := Value.refs) fun m v hm h => hm.holds.rawGet h).bind fun v => ?_
  split
  · exact safe_pure (by simp [Value.refs, Value.ref?])
  · refine (safe_newUserdata _).bind fun handle => safe_newTable.bind fun shadow => ?_
    refine (safe_setEnvironment handle (some shadow)).bind fun _ => ?_
    refine (safe_rawSet pointers (k := .address a) (v := .userdata handle) ?_ ?_).bind fun _ => safe_pure ?_
    · simp [Value.refs, Value.ref?]
    · simp [Value.refs, Value.ref?]
    · simp

theorem safe_unregister (a : Address) : Safe D L (unregister a : Action χ σ Unit) (fun _ => []) := by
  refine safe_look.bind fun m => ?_
  split
  · exact safe_pure (List.nil_subset _)
  · refine (safe_query (G := fun _ => []) fun _ _ _ _ => Machine.knows_nil).bind fun v => ?_
    split
    · refine (safe_changeUserdata _ fun u s hs => Or.inl ?_).bind fun _ => safe_rawSet _ (List.nil_subset _) (List.nil_subset _)
      unfold Userdata.forgetAddress at hs
      split at hs <;> exact hs
    · exact safe_pure (List.nil_subset _)

theorem safe_wrap (a : Address) (name : String) : Safe D L (wrap a name : Action χ σ Value) (fun _ => []) := by
  unfold wrap
  split
  · exact safe_pure (List.nil_subset _)
  · refine (safe_ensureHandle a).bind fun handle => (safe_metatableNamed name).bind fun found => ?_
    exact (safe_setMetatable _ _).bind fun _ => safe_pure (List.nil_subset _)

/-- The references of some tables. -/
theorem flatMap_refs_table (refs : List Ref) : (refs.map Value.table).flatMap Value.refs = refs := by
  induction refs with
  | nil => rfl
  | cons r rest ih => simp [Value.refs, Value.ref?, ih]

theorem safe_newReader (name : String) (cls : Ref) (bases : List Ref) (h : cls :: bases ⊆ L) :
    Safe D L (Attribute.newReader name cls bases : Action χ σ Ref) (fun r => [r]) :=
  safe_newFunction _ _ (by rw [flatMap_refs_table]; exact h)

theorem safe_writeAttribute (c : Call) : Safe D (c.args.flatMap Value.refs) (Attribute.write c : Action χ σ _) (fun _ => []) := by
  refine (safe_query (G := fun _ => []) fun _ _ _ _ => Machine.knows_nil).bind fun shadow => ?_
  split
  · exact safe_pure (List.nil_subset _)
  · exact (safe_rawSet _ (c.refs_arg_subset 2) (c.refs_arg_subset 3)).bind fun _ => safe_pure (List.nil_subset _)

theorem safe_installMethods (cls : Ref) (name : String) (methods : List (String × χ)) :
    Safe D L (ClassDescriptor.installMethods cls name methods : Action χ σ _) (fun fs => fs.map Prod.snd) := by
  induction methods generalizing L with
  | nil => exact safe_pure (List.nil_subset _)
  | cons e rest ih =>
    refine (safe_newFunction _ _ (List.nil_subset _)).bind fun f => (safe_setField cls e.1 (v := .function f) ?_).bind fun _ => ?_
    · simp [Value.refs, Value.ref?]
    · refine ih.bind fun fs => safe_pure ?_
      intro r hr
      rcases List.mem_cons.1 hr with rfl | hr
      · simp
      · exact List.mem_append_left _ hr

theorem safe_publish (t : Ref) (methods : List (String × Ref)) (h : methods.map Prod.snd ⊆ L) :
    Safe D L (ClassDescriptor.publish t methods : Action χ σ Unit) (fun _ => []) := by
  induction methods generalizing L with
  | nil => exact safe_pure (List.nil_subset _)
  | cons e rest ih =>
    rw [List.map_cons, List.cons_subset] at h
    refine (safe_setField t e.1 (v := .function e.2) ?_).bind fun _ => ih h.2
    simpa [Value.refs, Value.ref?] using h.1

/-- The tables of installed classes are known. -/
theorem knows_baseTables {m : Machine χ σ} (hm : m.Informed D) {bases : List String} {ts : List Ref}
    (h : m.baseTables bases = .ok ts) : m.Knows D ts := by
  induction bases generalizing ts with
  | nil =>
    cases h
    exact Machine.knows_nil
  | cons base bases ih =>
    simp only [Machine.baseTables] at h
    split at h
    · cases h
    · rename_i t ht
      split at h
      · cases h
      · rename_i ts' hts
        cases h
        exact Machine.knows_cons.2 ⟨hm.holds.classTable? ht, ih hts⟩

theorem safe_install (d : ClassDescriptor χ) : Safe D L (d.install : Action χ σ Unit) (fun _ => []) := by
  have hbases (m : Machine χ σ) (ts : List Ref) (hm : m.Informed D)
      (h : (m.baseTables d.bases).mapError (Fault.configuration d.name) = .ok ts) : m.Knows D ts := by
    cases hb : m.baseTables d.bases with
    | error e => rw [hb] at h; cases h
    | ok ts' => rw [hb] at h; cases h; exact knows_baseTables hm hb
  refine (safe_metatableNamed _).bind fun found => (safe_installMethods found.1 d.name _).bind fun methods => ?_
  refine (safe_setField found.1 d.name (v := .boolean true) (List.nil_subset _)).bind fun _ => ?_
  refine (safe_query (G := fun ts => ts) hbases).bind fun bases => ?_
  refine (safe_newReader d.name found.1 bases ?_).bind fun reader => ?_
  · simp
  refine (safe_newFunction _ _ (List.nil_subset _)).bind fun writer => ?_
  refine (safe_newFunction _ _ (List.nil_subset _)).bind fun finalizer => ?_
  refine (safe_setField found.1 _ (v := .function reader) ?_).bind fun _ => ?_
  · simp [Value.refs, Value.ref?]
  refine (safe_setField found.1 _ (v := .function writer) ?_).bind fun _ => ?_
  · simp [Value.refs, Value.ref?]
  refine (safe_setField found.1 _ (v := .function finalizer) ?_).bind fun _ => ?_
  · simp [Value.refs, Value.ref?]
  refine (safe_setMetatable _ _).bind fun _ => safe_newTable.bind fun space => ?_
  refine (safe_publish space methods ?_).bind fun _ => safe_setGlobal _ ?_
  · exact fun r hr => by simp only [List.mem_append]; simp [hr]
  · simp [Value.refs, Value.ref?]

theorem safe_installAll (classes : List (ClassDescriptor χ)) :
    Safe D L (ClassDescriptor.installAll classes : Action χ σ Unit) (fun _ => []) := by
  refine (safe_query (G := fun _ => []) fun _ _ _ _ => Machine.knows_nil).bind fun _ => ?_
  induction classes generalizing L with
  | nil => exact safe_pure (List.nil_subset _)
  | cons d rest ih => exact (safe_install d).bind fun _ => (ih (L := L)).mono (List.append_subset.2 ⟨by simp, by simp⟩)

theorem safe_fillEnumeration (t : Ref) (members : List (String × Int64)) :
    Safe D L (EnumDescriptor.fill t members : Action χ σ Unit) (fun _ => []) := by
  induction members generalizing L with
  | nil => exact safe_pure (List.nil_subset _)
  | cons e rest ih =>
    exact (safe_setField _ _ (List.nil_subset _)).bind fun _ => (safe_setAt _ _ (List.nil_subset _)).bind fun _ => ih

theorem safe_defineAll (enums : List EnumDescriptor) :
    Safe D L (EnumDescriptor.defineAll enums : Action χ σ Unit) (fun _ => []) := by
  induction enums generalizing L with
  | nil => exact safe_pure (List.nil_subset _)
  | cons d rest ih =>
    have hdefine : Safe D L (d.define : Action χ σ Unit) (fun _ => []) := by
      refine (safe_registryTable _ _).bind fun all => safe_newTable.bind fun t => ?_
      refine (safe_fillEnumeration t d.members).bind fun _ => safe_setField all d.name (v := .table t) ?_
      simp [Value.refs, Value.ref?]
    exact hdefine.bind fun _ => ih

theorem safe_stage (p : Payload) : Safe D L (Cell.stage p : Action χ σ Ref) (fun _ => []) := by
  have hplace : ∀ L, Safe D L (Cell.nextPlace : Action χ σ Int64) (fun _ => []) := fun L =>
    (safe_registryField _).bind fun _ => (safe_setRegistry _ (List.nil_subset _)).bind fun _ => safe_pure (List.nil_subset _)
  refine (safe_registryTable _ _).bind fun cells => (safe_newUserdata p).bind fun cell => (hplace _).bind fun place => ?_
  refine (safe_setAt cells place (v := .userdata cell) ?_).bind fun _ => safe_pure (List.nil_subset _)
  simp [Value.refs, Value.ref?]

theorem safe_stageArguments (v : Value) : Safe D L (Arguments.ofValue v : Action χ σ StagedArguments) (fun _ => []) := by
  unfold Arguments.ofValue
  split
  · exact (safe_query (G := fun _ => []) fun _ _ _ _ => Machine.knows_nil).bind fun _ => (safe_stage _).bind
      fun _ => safe_pure (List.nil_subset _)
  · exact safe_fail _

theorem safe_stageInteger (v : Value) : Safe D L (Arguments.stageInteger v : Action χ σ StagedInteger) (fun _ => []) :=
  (safe_stage _).bind fun _ => safe_pure (List.nil_subset _)

theorem safe_newTexts (texts : List String) : Safe D L (Arguments.toTable texts : Action χ σ Ref) (fun _ => []) := by
  have hfill : ∀ L t n, Safe D L (Arguments.fill t n texts : Action χ σ Unit) (fun _ => []) := by
    intro L t n
    induction texts generalizing L n with
    | nil => exact safe_pure (List.nil_subset _)
    | cons s rest ih => exact (safe_setAt _ _ (List.nil_subset _)).bind fun _ => ih _ _
  exact safe_newTable.bind fun t => (hfill _ _ _).bind fun _ => safe_pure (List.nil_subset _)

end Action

/-! ## Requests that call nothing -/

namespace Request

/-- The references a request is handed. -/
def refs : Request χ σ → List Ref
  | .newFunction _ _ upvalues => upvalues.flatMap Value.refs
  | .push v | .pin v | .stageInteger v | .stageArguments v | .isKindOf v _ => v.refs
  | .rawSet t key v => t :: key.refs ++ v.refs
  | .remove t key => t :: key.refs
  | .setMetatable v mt => v.refs ++ mt.toList
  | .setEnvironment u env => u :: env.toList
  | .setPayload u _ => [u]
  | .index v key => v.refs ++ key.refs
  | .setIndex target key v => target.refs ++ key.refs ++ v.refs
  | .call f args => f.refs ++ args.flatMap Value.refs
  | .callMethod v _ args => v.refs ++ args.flatMap Value.refs
  | .newReader _ cls bases => cls :: bases
  | _ => []

open ScriptHost.Action in
/-- With live references a request that calls nothing leaves a sound machine sound. -/
theorem safe_perform (c : Caller χ σ) {r : Request χ σ} (hr : r.IsSilent) : Safe D r.refs (r.perform c) (fun _ => []) := by
  cases r with
  | look => exact safe_query fun _ _ _ _ => Machine.knows_nil
  | keep memory => exact safe_of_roots (fun _ => rfl) fun _ _ h => Or.inl h
  | newTable => exact safe_newTable.drop
  | newUserdata p => exact (safe_newUserdata p).drop
  | newFunction name code upvalues => exact (safe_newFunction name code (List.Subset.refl _)).drop
  | push v => exact safe_push v
  | pop => exact safe_pop
  | setTop height => exact safe_setTop height
  | pin v => exact safe_pin v
  | unpin p => exact safe_unpin p
  | rawSet t key v =>
    exact safe_rawSet t (fun r hr => by simp [refs, hr]) (fun r hr => by simp [refs, hr])
  | remove t key => exact safe_remove t key
  | setMetatable v mt => exact safe_setMetatable v mt
  | setEnvironment u env => exact safe_setEnvironment u env
  | setPayload u p => exact safe_setPayload u p
  | metatableNamed name => exact (safe_metatableNamed name).drop
  | ensureHandle a => exact (safe_ensureHandle a).drop
  | unregister a => exact safe_unregister a
  | wrap a name => exact safe_wrap a name
  | installClasses classes => exact safe_installAll classes
  | newReader name cls bases => exact (safe_newReader name cls bases (List.Subset.refl _)).drop
  | defineEnums enums => exact safe_defineAll enums
  | stage p => exact safe_stage p
  | stageInteger v => exact safe_stageInteger v
  | stageArguments v => exact safe_stageArguments v
  | newTexts texts => exact safe_newTexts texts
  | index | setIndex | call | callMethod | collect | isKindOf => exact hr.elim

end Request

end ScriptHost

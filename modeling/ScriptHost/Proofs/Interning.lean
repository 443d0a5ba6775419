import ScriptHost.Proofs.Asking
import ScriptHost.Proofs.Unregistering

/-!
# Handles across whole runs

What becomes of a handle in a course. As long as its address is not unregistered and no collection frees it or takes it up, it is
the one that is listed, with the environment it has (`Course.lists_of_spared`), and the table of its attributes is what the writes
that reach it make of it (`Course.attributes`). So asking for the address again gives the same handle. Once a collection has freed
or taken up the listed handle, no handle is listed for the address until one is asked for (`interning_across_runs`).
-/

namespace ScriptHost

variable {χ σ : Type} {strict : Prop}

/-- The table with a value put under a key. What is no key is refused. -/
def Table.put (T : Table) (key v : Value) : Table :=
  match Key.ofValue key with
  | .ok k => T.set k v
  | .error _ => T

theorem Table.entries_put_congr {T T' : Table} (h : T.entries = T'.entries) (key v : Value) :
    (T.put key v).entries = (T'.put key v).entries := by
  unfold Table.put Table.set Table.erase
  cases Key.ofValue key with
  | error cause => exact h
  | ok k =>
    dsimp only
    cases hv : v.isNil <;> simp [h]

namespace Machine

variable {m m' : Machine χ σ} {a : Address} {r s t : Ref} {T : Table}

/-- What an event makes of a table, if it puts something into it. -/
def written (m : Machine χ σ) (t : Ref) (e : Event χ σ) (T : Table) : Table :=
  match e.written? m t with
  | some (key, v) => T.put key v
  | none => T

/-- What the writes of a course make of a table. -/
def writtenInto (m : Machine χ σ) (t : Ref) : List (Event χ σ) → Table → Table
  | [], T => T
  | e :: es, T => (m.after e).writtenInto t es (m.written t e T)

/-- What is under the keys at the end depends on what was under them at the beginning, not on the metatable. -/
theorem writtenInto_entries_congr {T T' : Table} (h : T.entries = T'.entries) (es : List (Event χ σ)) :
    (m.writtenInto t es T).entries = (m.writtenInto t es T').entries := by
  induction es generalizing m T T' with
  | nil => exact h
  | cons e es ih =>
    refine ih ?_
    unfold written
    split
    · exact Table.entries_put_congr h _ _
    · exact h

/-- The table holds its keys or its values weakly. -/
def HoldsWeakly (m : Machine χ σ) (t : Ref) : Prop :=
  ∃ T letter, m.heap.object? t = some (.table T) ∧ m.heap.ModeSays T letter

/-- A collection frees the userdata, or it is flagged after it. -/
def Drops (m : Machine χ σ) (r : Ref) : Prop :=
  ¬m.swept.heap.contains r = true ∨ ∃ u, m.swept.heap.object? r = some (.userdata u) ∧ u.finalized = true

/-- A collection drops a handle that no collection has taken up if it does not survive or is taken up. -/
theorem IsHandle.drops_iff (hr : m.IsHandle r a false) : m.Drops r ↔ ¬(m.Survives r ∧ ¬m.Doomed r) := by
  obtain ⟨u, hu, -, hfin⟩ := hr
  unfold Drops
  rw [contains_swept_iff]
  by_cases hs : m.Survives r
  · have hswept := swept_userdata hs hu
    simp [hs, hswept, hfin, mem_doomed_iff]
  · simp [hs]

/-- What the roots keep a collection does not drop. -/
theorem IsHandle.not_drops_of_kept (hr : m.IsHandle r a false) (hkept : m.heap.Kept m.IsRoot r) : ¬m.Drops r := by
  rw [hr.drops_iff, Classical.not_not]
  exact ⟨.root (Or.inl hkept) hkept.contains, fun hd => hd.1 hkept⟩

/-! ## Environments and attributes -/

/-- A handle has its environment after an act. -/
theorem Act.environment_eq {S : Scope} (h : m.Act S m') {f : Bool} (hr : m.IsHandle r a f) :
    m'.environment r = m.environment r := by
  obtain ⟨u, hu, hpay, -⟩ := hr
  obtain ⟨u', hu', henv⟩ := h.environment_handle hu hpay
  simp only [environment, Heap.userdata_eq_ok_iff.2 hu, Heap.userdata_eq_ok_iff.2 hu', henv]

/-- A handle that survives a collection has its environment. -/
theorem environment_swept {f : Bool} (hr : m.IsHandle r a f) (hs : m.Survives r) : m.swept.environment r = m.environment r := by
  obtain ⟨u, hu, -⟩ := hr
  simp only [environment, Heap.userdata_eq_ok_iff.2 hu, Heap.userdata_eq_ok_iff.2 (swept_userdata hs hu)]

/-- A table that is written has the value under the key. -/
theorem object?_rawSet (hw : m.heap.WellFormed) (hT : m.heap.object? t = some (.table T)) (key v : Value) :
    (Action.rawSet t key v m).2.heap.object? t = some (.table (T.put key v)) := by
  unfold Action.rawSet Table.put
  cases Key.ofValue key with
  | error cause => exact hT
  | ok k =>
    obtain ⟨m', h, hwritten⟩ := Action.exists_changeTable hw hT (f := fun T => T.set k v) fun hu => hu.set k v
    simp only [h]
    exact hwritten.self

theorem object?_remove (hw : m.heap.WellFormed) (hT : m.heap.object? t = some (.table T)) (key : Value) :
    (Action.remove t key m).2.heap.object? t = some (.table (T.put key .nil)) := by
  unfold Action.remove Table.put
  cases Key.ofValue key with
  | error cause => exact hT
  | ok k =>
    obtain ⟨m', h, hwritten⟩ := Action.exists_changeTable hw hT (f := fun T => T.erase k) fun hu => hu.erase k
    have hquery := Action.query_of_ok (f := fun m => m.heap.table t) (Heap.table_eq_ok_iff.2 hT)
    simp only [Action.bind_of_ok hquery, Action.bind_of_ok h]
    exact hwritten.self

/-- An event that puts something into a table puts it there. -/
theorem object?_after_of_written {e : Event χ σ} (hw : m.heap.WellFormed) (he : ∀ r, e = .ask r → r.IsSilent)
    (hT : m.heap.object? t = some (.table T)) {key v : Value} (h : e.written? m t = some (key, v)) :
    (m.after e).heap.object? t = some (.table (T.put key v)) := by
  have hput : ∀ {t' : Ref} {key' v' : Value}, (if t' = t then some (key', v') else none) = some (key, v) →
      t' = t ∧ key' = key ∧ v' = v := by
    intro t' key' v' hput
    simpa only [Option.ite_none_right_eq_some, Option.some.injEq, Prod.mk.injEq] using hput
  cases e with
  | ask r =>
    cases r with
    | rawSet t' key' v' =>
      obtain ⟨rfl, rfl, rfl⟩ := hput h
      exact object?_rawSet hw hT _ _
    | remove t' key' =>
      obtain ⟨rfl, rfl, rfl⟩ := hput h
      exact object?_remove hw hT _
    | setIndex target key' v' => exact (he _ rfl).elim
    | _ => cases h
  | store t' key' v' =>
    obtain ⟨rfl, rfl, rfl⟩ := hput h
    exact object?_rawSet hw hT _ _
  | write call =>
    show (Attribute.write call m).2.heap.object? t = _
    rw [write_eq]
    rw [Event.written?] at h
    cases hs : Attribute.shadow? m (call.arg 1) with
    | error cause =>
      rw [hs] at h
      cases h
    | ok shadow =>
      rw [hs] at h
      cases shadow with
      | none => cases h
      | some s =>
        obtain ⟨rfl, rfl, rfl⟩ := hput h
        exact object?_rawSet hw hT _ _
  | enter | leave | sweep | queue | finish => cases h

/-- A table of native code. -/
def Own (m : Machine χ σ) (t : Ref) : Prop := (∃ T, m.heap.object? t = some (.table T)) ∧ ¬m.Sealed t ∧ t ≠ m.globals

theorem Act.own {S : Scope} (h : m.Act S m') (hm : m.Managed S.strict) (ht : m.Own t) : m'.Own t := by
  obtain ⟨htable, hs, hg⟩ := ht
  obtain ⟨htable', hs'⟩ := h.not_sealed hm htable hs
  exact ⟨htable', hs', h.globals.symm ▸ hg⟩

/-- Acts leave a spared table of native code as it is. -/
theorem Own.object?_acts {S : Scope} (ht : m.Own t) (hspared : S.spared t) (h : Acts S m m')
    (hT : m.heap.object? t = some (.table T)) : m'.heap.object? t = some (.table T) := by
  have hlasts : (acts S : Discipline χ σ).Lasts (fun m => m.Own t ∧ m.heap.object? t = some (.table T)) :=
    lasts_of_act fun _ _ hm hact h => ⟨hact.own hm h.1, hact.object?_spared hspared h.1.2.1 h.1.2.2 h.2⟩
  exact (hlasts m m' h ⟨ht, hT⟩).2

/-- A table gets the metatable that it is to get, or nothing happens. -/
theorem setMetatable_cases (hw : m.heap.WellFormed) (hT : m.heap.object? t = some (.table T)) (mt : Option Ref) :
    (Action.setMetatable (.table t) mt m).2 = m ∨
      m.Written (Action.setMetatable (.table t) mt m).2 t (.table { T with metatable := mt }) := by
  unfold Action.setMetatable
  cases hrequire : (Action.requireTable mt m).1 with
  | error cause =>
    rw [Action.bind_of_error (Prod.ext hrequire (Action.requireTable_still mt m))]
    exact Or.inl rfl
  | ok _ =>
    obtain ⟨m', h, hwritten⟩ := Action.exists_changeTable hw hT (f := fun T => { T with metatable := mt }) fun hu => hu
    rw [Action.bind_of_ok (Prod.ext hrequire (Action.requireTable_still mt m))]
    simp only [h]
    exact Or.inr hwritten

/-- A table that gets another metatable has the entries it has. -/
theorem object?_setMetatable (hw : m.heap.WellFormed) (hT : m.heap.object? t = some (.table T)) (mt : Option Ref) :
    ∃ T', (Action.setMetatable (.table t) mt m).2.heap.object? t = some (.table T') ∧ T'.entries = T.entries := by
  rcases setMetatable_cases hw hT mt with hsame | hwritten
  · rw [hsame]
    exact ⟨T, hT, rfl⟩
  · exact ⟨_, hwritten.self, rfl⟩

/-- What an event makes of the entries of a table of native code. -/
theorem Managed.object?_after (hm : m.Managed strict) {e : Event χ σ} (he : m.Allows (Minds (.wide strict)) e) (ht : m.Own t)
    (hT : m.heap.object? t = some (.table T)) (hsweep : e = .sweep → m.Survives t ∧ ¬m.HoldsWeakly t) :
    (m.after e).Own t ∧ ∃ T', (m.after e).heap.object? t = some (.table T') ∧ T'.entries = (m.written t e T).entries := by
  by_cases hs : e = .sweep
  · subst hs
    obtain ⟨hsurvives, hstrong⟩ := hsweep rfl
    have hswept := swept_table hsurvives hT
    rw [remaining_of_strong fun letter hmode => hstrong ⟨T, letter, hT, hmode⟩] at hswept
    refine ⟨⟨⟨_, hswept⟩, fun hs => ht.2.1 (hm.orderly.swept_sealed_iff.1 hs), ?_⟩, _, hswept, rfl⟩
    show t ≠ m.swept.globals
    rw [globals_swept]
    exact ht.2.2
  have hacts := hm.acts_after (S := .wide strict) (fun _ h => h.elim) he hs fun _ _ _ _ h => h.elim
  refine ⟨lasts_of_act (fun _ _ hm hact ht => hact.own hm ht) m _ hacts ht, ?_⟩
  unfold written
  cases hwritten : e.written? m t with
  | some w =>
    refine ⟨_, object?_after_of_written hm.orderly.wellFormed (fun r hr => ?_) hT hwritten, rfl⟩
    subst hr
    exact he.1
  | none =>
    by_cases hclass : e.Reclasses t
    · cases e with
      | ask r =>
        cases r with
        | setMetatable v mt =>
          cases v with
          | table t' =>
            cases hclass
            exact object?_setMetatable hm.orderly.wellFormed hT mt
          | _ => exact hclass.elim
        | _ => exact hclass.elim
      | _ => exact hclass.elim
    · -- then the table is spared
      have he' : m.Allows (Minds { Scope.wide strict with spared := fun s => s = t }) e :=
        he.within .rfl (fun _ h => h) (fun _ _ => trivial) (fun _ _ => trivial) fun s hs => hs ▸ ⟨hwritten, hclass⟩
      have hacts := hm.acts_after (fun s hs => hs ▸ Heap.contains_of_object? hT) he' hs fun call s hcall hshadow hs => ?_
      · exact ⟨T, ht.object?_acts rfl hacts hT, rfl⟩
      · rw [hcall, Event.written?, hshadow] at hwritten
        simp [show s = t from hs] at hwritten

end Machine

/-! ## Courses -/

section

open Machine

variable {m : Machine χ σ} {es : List (Event χ σ)} {a : Address} {r s t : Ref} {T : Table}

/-- A handle that no collection drops stays listed, with its environment, where its address is not unregistered. -/
theorem Course.lists_of_spared {D : Machine χ σ → Prop} (hD : ∀ m : Machine χ σ, m.IsHandle r a false → D m → ¬m.Drops r)
    (h : Course (Minds (.wide strict)) m es) (hes : ∀ e ∈ es, ¬e.Unregisters a) (hm : m.Managed strict) (ha : a ≠ Address.null)
    (hkept : m.AtSweeps D es) (hr : m.Lists a r) :
    (m.follow es).Managed strict ∧ (m.follow es).Lists a r ∧ (m.follow es).environment r = m.environment r := by
  refine (h.unforgotten hes).frame_of (fun _ h => h) (D := D)
    (I := fun m' => m'.Lists a r ∧ m'.environment r = m.environment r) ?_ ?_ hm hkept ⟨hr, rfl⟩
  · intro m₁ m₂ hm₁ hact ⟨hr, henv⟩
    exact ⟨hact.lists_of_unforgotten hm₁ ha (fun h => h rfl) hr, (hact.environment_eq (hm₁.isHandle_of_lists hr)).trans henv⟩
  · intro m₁ hm₁ hkept ⟨hr, henv⟩
    have hhandle := hm₁.isHandle_of_lists hr
    have hdrops := hD m₁ hhandle hkept
    rw [hhandle.drops_iff, Classical.not_not] at hdrops
    exact ⟨hm₁.lists_swept_iff.2 ⟨hr, hdrops⟩, (environment_swept hhandle hdrops.1).trans henv⟩

/-- Once no handle is listed for an address, none is until one is asked for. -/
theorem Course.not_lists (h : Course (Minds (.wide strict)) m es) (hes : ∀ e ∈ es, ¬e.AsksFor a) (hm : m.Managed strict)
    (hnone : ∀ r, ¬m.Lists a r) : (m.follow es).Managed strict ∧ ∀ r, ¬(m.follow es).Lists a r := by
  refine (h.unasked hes).frame (fun _ h => h) (I := fun m => ∀ r, ¬m.Lists a r) ?_ ?_ hm hnone
  · intro m₁ m₂ hm₁ hact hnone r hr
    exact (hact.lists_of hm₁.orderly hr).elim (hnone r) fun h => h rfl
  · exact fun m₁ hm₁ hnone r hr => hnone r (hm₁.lists_swept_iff.1 hr).1

/-- A table of native code that survives every collection, and holds everything strongly in it, has the entries that the writes
give it. -/
theorem Course.attributes (h : Course (Minds (.wide strict)) m es) (hm : m.Managed strict) (ht : m.Own t)
    (hT : m.heap.object? t = some (.table T)) (hkept : m.AtSweeps (fun m => m.Survives t ∧ ¬m.HoldsWeakly t) es) :
    (m.follow es).Own t ∧
      ∃ T', (m.follow es).heap.object? t = some (.table T') ∧ T'.entries = (m.writtenInto t es T).entries := by
  induction es generalizing m T with
  | nil => exact ⟨ht, T, hT, rfl⟩
  | cons e es ih =>
    obtain ⟨ht', T', hT', hentries⟩ := hm.object?_after h.1 ht hT (atSweeps_cons.1 hkept).1
    obtain ⟨hown, T'', hT'', hwritten⟩ := ih h.2 (hm.after (S := .wide strict) (fun _ h => h) h.1) ht' hT'
      (atSweeps_cons.1 hkept).2
    exact ⟨hown, T'', hT'', hwritten.trans (writtenInto_entries_congr hentries es)⟩

/-- The environment of a handle survives with it. -/
theorem Machine.Managed.survives_environment (hm : m.Managed strict) (hr : m.Lists a r) (henv : m.environment r = .ok (some s))
    (hkept : m.heap.Kept m.IsRoot r) : m.Survives s := by
  obtain ⟨u, s', E, hu, -, -, hs', hE⟩ := hm.exists_shadow (hm.isHandle_of_lists hr)
  simp only [environment, Heap.userdata_eq_ok_iff.2 hu, Except.ok.injEq] at henv
  cases hs'.symm.trans henv
  exact (Heap.Kept.root (Or.inl hkept) hkept.contains).held (.environment hu henv) (Heap.contains_of_object? hE)

/-- A handle that the roots keep at every collection stays listed, and its environment has the entries that the writes give it. -/
theorem Course.lists_of_kept (h : Course (Minds (.wide strict)) m es) (hes : ∀ e ∈ es, ¬e.Unregisters a)
    (hm : m.Managed strict) (ha : a ≠ Address.null) (hkept : m.AtSweeps (fun m => m.heap.Kept m.IsRoot r) es)
    (hr : m.Lists a r) (henv : m.environment r = .ok (some s)) (hs : m.Own s) (hT : m.heap.object? s = some (.table T)) :
    (m.follow es).Managed strict ∧ (m.follow es).Lists a r ∧ (m.follow es).environment r = .ok (some s) ∧
      (m.AtSweeps (fun m => ¬m.HoldsWeakly s) es → (m.follow es).Own s ∧
        ∃ T', (m.follow es).heap.object? s = some (.table T') ∧ T'.entries = (m.writtenInto s es T).entries) := by
  have hD : ∀ m : Machine χ σ, m.IsHandle r a false → m.heap.Kept m.IsRoot r → ¬m.Drops r :=
    fun _ hr hkept => hr.not_drops_of_kept hkept
  obtain ⟨hm', hr', henv'⟩ := h.lists_of_spared hD hes hm ha hkept hr
  refine ⟨hm', hr', henv'.trans henv, fun hstrong => h.attributes hm hs hT ?_⟩
  intro es₁ es₂ hsplit
  subst hsplit
  obtain ⟨hm₁, hr₁, henv₁⟩ := (course_append.1 h).1.lists_of_spared hD
    (fun e he => hes e (List.mem_append_left _ he)) hm ha hkept.left hr
  exact ⟨hm₁.survives_environment hr₁ (henv₁.trans henv) (hkept es₁ es₂ rfl), hstrong es₁ es₂ rfl⟩

/-- A listed handle is what asking for its address gives. It keeps its environment, and that its entries. -/
theorem Machine.Managed.handleAs_listed (hm : m.Managed strict) (ha : a ≠ Address.null) (hr : m.Lists a r) {way : Option String}
    (hway : ∀ name, way = some name → name ∉ Registry.reserved) :
    ∃ m', Action.handleAs a way m = (.ok (.userdata r), m') ∧ m'.identity? (.userdata r) = some a ∧
      m'.environment r = m.environment r ∧
      ∀ s T, m.Own s → m.heap.object? s = some (.table T) → m'.heap.object? s = some (.table T) := by
  let S : Scope := { Scope.wide strict with spared := fun t => m.Own t, forgets := fun _ => False }
  have hthere : ∀ t, S.spared t → m.heap.contains t = true := fun t ⟨⟨T, hT⟩, _⟩ => Heap.contains_of_object? hT
  obtain ⟨r', m', h, hr', hacts⟩ := Managed.handleAs_spec (S := S) hm hthere ha trivial (fun h => h) hway
  have hlasts : (acts S : Discipline χ σ).Lasts (fun m' => m'.Lists a r ∧ m'.environment r = m.environment r) :=
    lasts_of_act fun m₁ m₂ hm₁ hact ⟨hr₁, henv₁⟩ => ⟨hact.lists_of_unforgotten hm₁ ha (fun h => h) hr₁,
      (hact.environment_eq (hm₁.isHandle_of_lists hr₁)).trans henv₁⟩
  obtain ⟨hlists, henv⟩ := hlasts m m' hacts ⟨hr, rfl⟩
  obtain rfl := hlists.eq hr'
  have hhandle := (hacts.managed hm).isHandle_of_lists hlists
  exact ⟨m', h, identity?_eq_some_iff.2 ⟨r, false, rfl, hhandle⟩, henv, fun s T hs hT => hs.object?_acts hs hacts hT⟩

end

/-! ## Runs -/

/-- Asking for an address in a run in which native code minds the binding layer gives a handle with an environment. Let any course
follow. If it does not unregister the address and the roots keep the handle at every collection, asking for the address again, in
either way, gives the same handle with the same environment, which has the entries that the writes have given it if no collection
has found it weak. If a collection frees or flags the handle while it is listed for the address, as it is at the first such
collection if the address has not been unregistered, no handle is listed from then on until one is asked for. -/
theorem interning_across_runs {Γ : Host χ σ} (hΓ : Γ.Lawful (Machine.Minds (.wide strict)) (Machine.Managed strict))
    {m₀ m : Machine χ σ} (hm₀ : Reached Γ (Machine.Minds (.wide strict)) m₀) {a : Address} (ha : a ≠ Address.null)
    {way : Option String} (hway : ∀ name, way = some name → name ∉ Registry.reserved) {r : Ref}
    (hask : Action.handleAs a way m₀ = (.ok (.userdata r), m)) :
    ∃ s E, m.environment r = .ok (some s) ∧ m.heap.object? s = some (.table E) ∧
      (∀ es, Course (Machine.Minds (.wide strict)) m es → (∀ e ∈ es, ¬e.Unregisters a) →
        m.AtSweeps (fun m => m.heap.Kept m.IsRoot r) es →
        ∀ again : Option String, (∀ name, again = some name → name ∉ Registry.reserved) →
          ∃ m', Action.handleAs a again (m.follow es) = (.ok (.userdata r), m') ∧ m'.identity? (.userdata r) = some a ∧
            m'.environment r = .ok (some s) ∧
            (m.AtSweeps (fun m => ¬m.HoldsWeakly s) es →
              ∃ E', m'.heap.object? s = some (.table E') ∧ E'.entries = (m.writtenInto s es E).entries)) ∧
      ∀ es₁ es₂, Course (Machine.Minds (.wide strict)) m (es₁ ++ .sweep :: es₂) → (m.follow es₁).Drops r →
        ((m.follow es₁).handleOf a = .ok (some r) ∨
          (∀ e ∈ es₁, ¬e.Unregisters a) ∧ m.AtSweeps (fun m => ¬m.Drops r) es₁) →
        (∀ e ∈ es₂, ¬e.AsksFor a) → (m.follow (es₁ ++ .sweep :: es₂)).handleOf a = .ok none := by
  have hmanaged₀ : m₀.Managed strict := hm₀.managed (S := .wide strict) (fun _ h => h) hΓ
  obtain ⟨r', m', h, hr, hacts⟩ := Machine.Managed.handleAs_spec (S := { Scope.wide strict with forgets := fun _ => False })
    hmanaged₀ (fun _ h => h.elim) ha trivial (fun h => h) hway
  cases hask.symm.trans h
  have hm : m.Managed strict := hacts.managed hmanaged₀
  have hhandle := hm.isHandle_of_lists hr
  obtain ⟨u, s, E, hu, hpay, -, hs, hE⟩ := hm.exists_shadow hhandle
  have henv : m.environment r = .ok (some s) := by simp only [Machine.environment, Heap.userdata_eq_ok_iff.2 hu, hs]
  have hown : m.Own s := by
    obtain ⟨s', hs', hne⟩ := hm.rostered.shadow r u a hu hpay
    cases hs.symm.trans hs'
    exact ⟨⟨E, hE⟩, hm.orderly.environment r u s hu hs, hne⟩
  refine ⟨s, E, henv, hE, fun es hes hunforgotten hkept again hagain => ?_, fun es₁ es₂ hes hdrops hlisted hunasked => ?_⟩
  · obtain ⟨hm₁, hr₁, henv₁, hwritten⟩ := hes.lists_of_kept hunforgotten hm ha hkept hr henv hown hE
    obtain ⟨m', h, hidentity, henv', hentries⟩ := hm₁.handleAs_listed ha hr₁ hagain
    refine ⟨m', h, hidentity, henv'.trans henv₁, fun hstrong => ?_⟩
    obtain ⟨hown₁, E', hE', hE''⟩ := hwritten hstrong
    exact ⟨E', hentries s E' hown₁ hE', hE''⟩
  · obtain ⟨hes₁, -, hes₂⟩ := course_append.1 hes
    have hm₁ : (m.follow es₁).Managed strict := hes₁.managed (S := .wide strict) (fun _ h => h) hm
    have hr₁ : (m.follow es₁).Lists a r := by
      rcases hlisted with h | ⟨hunforgotten, hspared⟩
      · exact hm₁.handleOf_eq_some_iff.1 h
      · exact (hes₁.lists_of_spared (fun _ _ h => h) hunforgotten hm ha hspared hr).2.1
    have hnone : ∀ t, ¬(m.follow es₁).swept.Lists a t := by
      intro t ht
      obtain ⟨ht, hkept⟩ := hm₁.lists_swept_iff.1 ht
      obtain rfl := hr₁.eq ht
      exact (hm₁.isHandle_of_lists hr₁).drops_iff.1 hdrops hkept
    obtain ⟨hm₂, hnone₂⟩ := hes₂.not_lists hunasked hm₁.swept hnone
    have hfollow : (m.follow (es₁ ++ .sweep :: es₂)) = (m.follow es₁).swept.follow es₂ := m.follow_append es₁ _
    rw [hfollow]
    exact hm₂.handleOf_eq_none_iff.2 hnone₂

/-- A new machine on which an address has been wrapped. -/
def afterWrap : Machine Unit Unit := (Action.handleAs 0x10 (some "Widget") (.start .standard ())).2

/-- The handle is kept on the stack, an attribute of it is written, and a collection comes. -/
def keepWritten : List (Event Unit Unit) :=
  [.ask (.push (.userdata ⟨4, 0⟩)), .write ⟨[.userdata ⟨4, 0⟩, .string "size", .integer 3], []⟩, .sweep]

/-- After that the address has the same handle, with the attribute. If the collection comes at once, it has none. -/
theorem interning_afterWrap :
    (∃ m' E, Action.handleAs 0x10 none (afterWrap.follow keepWritten) = (.ok (.userdata ⟨4, 0⟩), m') ∧
      m'.environment ⟨4, 0⟩ = .ok (some ⟨5, 0⟩) ∧ m'.heap.object? ⟨5, 0⟩ = some (.table E) ∧
      E.entries = [(.string "size", .integer 3)]) ∧
    (afterWrap.follow [.sweep]).handleOf 0x10 = .ok none := by
  have hask : Action.handleAs 0x10 (some "Widget") (.start .standard ()) = (.ok (.userdata ⟨4, 0⟩), afterWrap) :=
    Prod.ext (eq_ok_of_toOption (by decide +kernel)) rfl
  obtain ⟨s, E, henv, hE, hkeep, hdrop⟩ := interning_across_runs
    (mindful_keepingHost True (.wide True) fun _ h => h) (.start .standard ()) (by decide) (by simp; decide) hask
  have henv' : afterWrap.environment ⟨4, 0⟩ = .ok (some ⟨5, 0⟩) := eq_ok_of_toOption (by decide +kernel)
  have hE' : afterWrap.heap.object? ⟨5, 0⟩ = some (.table .empty) := by decide +kernel
  cases henv.symm.trans henv'
  cases hE.symm.trans hE'
  have hcollecting : afterWrap.collecting = false := by decide +kernel
  refine ⟨?_, hdrop [] [] ⟨hcollecting, trivial⟩ (Or.inl (by decide +kernel))
    (Or.inr ⟨List.forall_mem_nil _, Machine.atSweeps_nil⟩) (List.forall_mem_nil _)⟩
  -- the machine the collection finds
  have hsweep : ∀ D : Machine Unit Unit → Prop, D (afterWrap.follow (keepWritten.take 2)) → afterWrap.AtSweeps D keepWritten := by
    intro D hD
    simp only [keepWritten, Machine.atSweeps_cons, Machine.atSweeps_nil, reduceCtorEq, false_implies, true_and, and_true]
    exact fun _ => hD
  have hcollecting : (afterWrap.follow (keepWritten.take 2)).collecting = false := by decide +kernel
  obtain ⟨m', h, -, henv', hentries⟩ := hkeep keepWritten ⟨⟨trivial, trivial⟩, trivial, hcollecting, trivial⟩
    (by simp [keepWritten, Event.Unregisters])
    (hsweep _ ((Machine.has_held_iff (by decide +kernel)).1 (by decide +kernel))) none nofun
  have hstrong : ¬(afterWrap.follow (keepWritten.take 2)).HoldsWeakly ⟨5, 0⟩ := by
    rintro ⟨T, letter, hT, mt, -, -, hmt, -⟩
    have hplain : (afterWrap.follow (keepWritten.take 2)).heap.object? ⟨5, 0⟩ =
        some (.table ⟨[(.string "size", .integer 3)], none⟩) := by decide +kernel
    cases hT.symm.trans hplain
    cases hmt
  obtain ⟨E', hE', hwritten⟩ := hentries (hsweep _ hstrong)
  exact ⟨m', E', h, henv', hE', hwritten.trans (by decide +kernel)⟩

/-- A new machine on which a handle has been made. -/
def afterEnsure : Machine Unit Unit := (Action.handleAs 0x10 none (.start .standard ())).2

/-- The address is unregistered, and another handle for it is made and kept on the stack. -/
def renewHandle : List (Event Unit Unit) :=
  [.ask (.unregister 0x10), .ask (.ensureHandle 0x10), .ask (.push (.userdata ⟨6, 0⟩))]

/-- That no handle is listed after a collection that frees one, until one is asked for, is false: the address may have got another
handle before. -/
theorem none_after_drop_false :
    ¬∀ (Γ : Host Unit Unit) (m₀ m : Machine Unit Unit) (a : Address) (r : Ref) (es₁ es₂ : List (Event Unit Unit)),
      Γ.Lawful (Machine.Minds (.wide True)) (Machine.Managed True) → Reached Γ (Machine.Minds (.wide True)) m₀ →
      a ≠ Address.null → Action.handleAs a none m₀ = (.ok (.userdata r), m) →
      Course (Machine.Minds (.wide True)) m (es₁ ++ .sweep :: es₂) → (m.follow es₁).Drops r →
      (∀ e ∈ es₂, ¬e.AsksFor a) → (m.follow (es₁ ++ .sweep :: es₂)).handleOf a = .ok none := by
  intro hall
  have hask : Action.handleAs 0x10 none (.start .standard ()) = (.ok (.userdata ⟨4, 0⟩), afterEnsure) :=
    Prod.ext (eq_ok_of_toOption (by decide +kernel)) rfl
  have hcollecting : (afterEnsure.follow renewHandle).collecting = false := by decide +kernel
  have hcourse : Course (Machine.Minds (.wide True)) afterEnsure (renewHandle ++ [.sweep]) :=
    ⟨⟨trivial, trivial⟩, ⟨trivial, trivial⟩, ⟨trivial, trivial⟩, hcollecting, trivial⟩
  have hnone := hall keepingHost _ afterEnsure 0x10 ⟨4, 0⟩ renewHandle [] (mindful_keepingHost True (.wide True) fun _ h => h)
    (.start .standard ()) (by decide) hask hcourse (Or.inl (by decide +kernel)) (List.forall_mem_nil _)
  have hlisted : (afterEnsure.follow (renewHandle ++ [.sweep])).handleOf 0x10 = .ok (some ⟨6, 0⟩) :=
    eq_ok_of_toOption (by decide +kernel)
  cases hnone.symm.trans hlisted

end ScriptHost

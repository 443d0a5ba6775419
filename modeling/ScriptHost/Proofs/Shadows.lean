import ScriptHost.Proofs.Complete
import ScriptHost.Proofs.Minds

/-!
# Shadows of their own

A handle is made with a new shadow, and as long as native code minds the binding layer a handle keeps the shadow it was made with. So
no two handles have one shadow (`Machine.ShadowsOwn`). Where classes are installed with success or not at all, the tables of classes
are complete as well, and all of that holds of every machine of a run (`Reached.tended`).
-/

namespace ScriptHost

variable {χ σ : Type}

namespace Machine

/-- Handles with the same shadow are the same. -/
def ShadowsOwn (m : Machine χ σ) : Prop :=
  ∀ r r' u u' a a' e, m.heap.object? r = some (.userdata u) → m.heap.object? r' = some (.userdata u') →
    u.payload = .handle a → u'.payload = .handle a' → u.environment = some e → u'.environment = some e → r = r'

variable {S : Scope} {strict : Prop} {m m' : Machine χ σ} {r r' t : Ref} {u u' : Userdata} {a a' : Address} {name : String}

/-- What an act makes a handle of is listed, and its shadow is new. -/
theorem Act.exists_shadow_of_new (h : m.Act S m') (hu : m'.heap.object? r = some (.userdata u)) (hpay : u.payload = .handle a)
    (hr : ¬m.heap.contains r = true) :
    ∃ b e, m'.Lists b r ∧ u.environment = some e ∧ ¬m.heap.contains e = true := by
  cases h.new r _ hu hr with
  | userdata hp => exact absurd hpay (hp a)
  | handle _ he _ hlisted => exact ⟨_, _, hlisted, rfl, he⟩

/-- The entry of the pointer table under which an act lists what it makes. -/
theorem Act.lists_new (h : m.Act S m') (hm : m.Managed S.strict) (hr : ¬m.heap.contains r = true) (hlists : m'.Lists a r) :
    ∃ p T, m.Registered Registry.pointers p ∧ m.heap.object? p = some (.table T) ∧
      m'.heap.object? p = some (.table (T.set (.address a) (.userdata r))) := by
  obtain ⟨p, T', hp, hT', hfind⟩ := hlists
  rcases h.registered_of hm.orderly hp with hp | hfounded
  · obtain ⟨-, T, hT⟩ := hm.orderly.unshared.registered _ p hp
    have hnot : T.find? (.address a) ≠ some (.userdata r) := by
      intro hfind
      obtain ⟨u, hu, -⟩ := hm.isHandle_of_lists ⟨p, T, hp, hT, hfind⟩
      exact hr (Heap.contains_of_object? hu)
    rcases h.own_cases hm.orderly (by decide) hp hT with hsame | ⟨k, v, -, hset⟩
    · cases hT'.symm.trans hsame
      exact absurd hfind hnot
    · cases hT'.symm.trans hset
      rw [Table.find?_set] at hfind
      split at hfind
      · rename_i hk
        subst hk
        split at hfind <;> cases hfind
        exact ⟨p, T, hp, hT, hT'⟩
      · exact absurd hfind hnot
  · obtain ⟨T, hT, -, hown⟩ := hfounded.table
    cases hT'.symm.trans hT
    have hmem := Table.mem_of_find? hfind
    rw [(hown (by decide)).1] at hmem
    cases hmem

/-- An act makes one handle at most. -/
theorem Act.eq_of_new (h : m.Act S m') (hm : m.Managed S.strict) (hr : ¬m.heap.contains r = true)
    (hr' : ¬m.heap.contains r' = true) (hlists : m'.Lists a r) (hlists' : m'.Lists a' r') : r = r' := by
  obtain ⟨p, T, hp, hT, hset⟩ := h.lists_new hm hr hlists
  obtain ⟨p', T', hp', hT', hset'⟩ := h.lists_new hm hr' hlists'
  cases hp.eq hp'
  cases hT.symm.trans hT'
  have hsame := Object.table.inj (Option.some.inj (hset.symm.trans hset'))
  have hfind : (T.set (.address a') (.userdata r')).find? (.address a) = some (.userdata r) := by
    rw [← hsame, Table.find?_set, if_pos rfl]
    rfl
  rw [Table.find?_set] at hfind
  split at hfind
  · cases hfind
    rfl
  · obtain ⟨u, hu, -⟩ := hm.isHandle_of_lists ⟨p, T, hp, hT, hfind⟩
    exact absurd (Heap.contains_of_object? hu) hr

/-- Acts leave each handle with a shadow of its own. -/
theorem ShadowsOwn.act (ho : m.ShadowsOwn) (hm : m.Managed S.strict) (h : m.Act S m') : m'.ShadowsOwn := by
  -- the shadow of a handle that was there is no new table
  have hold : ∀ r r' u u' a a' e, m'.heap.object? r = some (.userdata u) → m'.heap.object? r' = some (.userdata u') →
      u.payload = .handle a → u'.payload = .handle a' → u.environment = some e → u'.environment = some e →
      m.heap.contains r = true → r = r' := by
    intro r r' u u' a a' e hu hu' hpay hpay' he he' hr
    rcases h.handle_cases hu hpay with ⟨w, b, hw, hwpay, henv, -⟩ | ⟨hnew, -⟩
    · rcases h.handle_cases hu' hpay' with ⟨w', b', hw', hwpay', henv', -⟩ | ⟨hnew, -⟩
      · exact ho r r' w w' b b' e hw hw' hwpay hwpay' (henv ▸ he) (henv' ▸ he')
      · obtain ⟨-, e', -, he'', hfresh⟩ := h.exists_shadow_of_new hu' hpay' hnew
        cases he'.symm.trans he''
        obtain ⟨⟨E, hE⟩, -⟩ := hm.orderly.unshared.environment r w e hw (henv ▸ he)
        exact absurd (Heap.contains_of_object? hE) hfresh
    · exact absurd hr hnew
  intro r r' u u' a a' e hu hu' hpay hpay' he he'
  by_cases hr : m.heap.contains r = true
  · exact hold r r' u u' a a' e hu hu' hpay hpay' he he' hr
  by_cases hr' : m.heap.contains r' = true
  · exact (hold r' r u' u a' a e hu' hu hpay' hpay he' he hr').symm
  obtain ⟨b, f, hlists, -⟩ := h.exists_shadow_of_new hu hpay hr
  obtain ⟨b', f', hlists', -⟩ := h.exists_shadow_of_new hu' hpay' hr'
  exact h.eq_of_new hm hr hr' hlists hlists'

theorem ShadowsOwn.swept (ho : m.ShadowsOwn) : m.swept.ShadowsOwn := by
  intro r r' u u' a a' e hu hu' hpay hpay' he he'
  obtain ⟨-, w, hw, rfl⟩ := exists_of_swept_userdata hu
  obtain ⟨-, w', hw', rfl⟩ := exists_of_swept_userdata hu'
  exact ho r r' w w' a a' e hw hw' hpay hpay' he he'

/-! ## Classes and the tables of the binding layer -/

/-- A table of the binding layer does not say that it is a class. -/
theorem Managed.classTable?_of_reserved (hm : m.Managed strict) (hname : name ∈ Registry.reserved) :
    m.classTable? name = none := by
  obtain ⟨R, hR, -⟩ := hm.orderly.unshared.registry
  refine Option.eq_none_iff_forall_not_mem.2 fun t ht => ?_
  obtain ⟨hr, T, hT, hmark⟩ := (classTable?_eq_some_iff hR).1 ht
  have hmem := Table.mem_of_find? (Table.find?_of_get hmark nofun)
  rcases List.mem_cons.1 hname with rfl | hname
  · obtain ⟨a, s, he, -⟩ := hm.rostered.listing t T hr hT _ hmem
    cases he
  rcases List.mem_cons.1 hname with rfl | hname
  · obtain ⟨s, E, he, -⟩ := hm.stocked.enumerations t T hr hT _ hmem
    cases he
  rcases List.mem_cons.1 hname with rfl | hname
  · obtain ⟨i, hi⟩ := hm.stocked.cells t T hr hT _ hmem
    cases hi
  · cases List.mem_singleton.1 hname
    exact hm.orderly.not_registered_nextCell hr

/-- Where that is so no class that the check lets pass has such a base. -/
theorem not_reserved_of_checkClasses {listed : List String} {classes : List (ClassDescriptor χ)}
    (hm : ∀ name ∈ Registry.reserved, m.classTable? name = none) (hlisted : ∀ name ∈ listed, name ∉ Registry.reserved)
    (hc : m.checkClasses listed classes = .ok ()) : ∀ d ∈ classes, ∀ b ∈ d.bases, b ∉ Registry.reserved := by
  induction classes generalizing listed with
  | nil => nofun
  | cons d rest ih =>
    obtain ⟨hd, hrest⟩ := checkClasses_cons_eq_ok_iff.1 hc
    obtain ⟨-, hreserved, -, -, hbases⟩ := checkClass_eq_ok_iff.1 hd
    refine List.forall_mem_cons.2 ⟨fun b hb hname => ?_, ih (List.forall_mem_cons.2 ⟨hreserved, hlisted⟩) hrest⟩
    rcases (hbases b hb).2 with hin | hinstalled
    · exact hlisted b hin hname
    · rw [isInstalled, hm b hname] at hinstalled
      cases hinstalled

theorem Managed.not_reserved_of_installed (hm : m.Managed strict) {classes : List (ClassDescriptor χ)}
    (h : (ClassDescriptor.installAll classes m).1 = .ok ()) : ∀ d ∈ classes, ∀ b ∈ d.bases, b ∉ Registry.reserved := by
  cases hc : m.checkClasses [] classes with
  | error e =>
    rw [installAll_of_refused hc] at h
    cases h
  | ok u => exact not_reserved_of_checkClasses (fun _ => hm.classTable?_of_reserved) (fun _ h => absurd h List.not_mem_nil) hc

/-! ## Machines with both -/

/-- The request minds the binding layer, and it installs classes with success, or not at all. -/
def Tends (m : Machine χ σ) (r : Request χ σ) : Prop :=
  m.Minds (.wide True) r ∧ ∀ classes, r = .installClasses classes →
    (ClassDescriptor.installAll classes m).2 = m ∨ (ClassDescriptor.installAll classes m).1 = .ok ()

theorem writable_of_not_sealed {closed : Prop} (h : ¬m.Sealed t) : m.Writable closed t :=
  ⟨fun e => h (Or.inl e), fun hc => h (.of_registered hc.2.choose_spec.2)⟩

/-- What minds the binding layer writes no table of a class. -/
theorem Tends.spares {request : Request χ σ} (h : m.Tends request) (hm : m.Managed True) : m.Spares True request := by
  obtain ⟨hminds, hinstall⟩ := h
  cases request with
  | rawSet t key v => exact Or.inl (writable_of_not_sealed hminds.1)
  | remove t key => exact Or.inl (writable_of_not_sealed hminds.1)
  | setMetatable v mt =>
    cases v with
    | table t => exact writable_of_not_sealed hminds.1
    | _ => trivial
  | setEnvironment r env => exact fun e he => writable_of_not_sealed (hminds.2 e he)
  | setIndex target key v => exact fun t ht => Or.inl (writable_of_not_sealed (Minds.lands hm.orderly hminds ht).1)
  | installClasses classes =>
    exact fun _ => (hinstall classes rfl).imp_right fun h => ⟨h, hm.not_reserved_of_installed h⟩
  | _ => trivial

/-- The binding layer keeps its tables, the tables of classes are complete or blank, and each handle has a shadow of its own. -/
structure Tended (m : Machine χ σ) : Prop where
  managed : m.Managed True
  completed : m.Completed
  shadows : m.ShadowsOwn

theorem tended_start (limits : Limits) (host : σ) : (start limits host : Machine χ σ).Tended where
  managed := managed_start limits host
  completed := completed_start limits host
  shadows _ _ _ _ _ _ _ hu := nomatch eq_empty_of_start hu

theorem ShadowsOwn.of_heap_eq (ho : m.ShadowsOwn) (hheap : m'.heap = m.heap) : m'.ShadowsOwn := by
  unfold ShadowsOwn
  rwa [hheap]

/-- It is a matter of the heap. -/
theorem Tended.of_heap_eq (hm : m.Tended) (hheap : m'.heap = m.heap) (hregistry : m'.registry = m.registry)
    (hglobals : m'.globals = m.globals) : m'.Tended :=
  ⟨hm.managed.of_heap_eq hheap hregistry hglobals, hm.completed.of_heap_eq hheap hregistry hglobals,
    hm.shadows.of_heap_eq hheap⟩

/-- What acts lead to. -/
theorem ShadowsOwn.acts (ho : m.ShadowsOwn) (h : Acts S m m') : m'.ShadowsOwn :=
  lasts_of_act (K := ShadowsOwn) (fun _ _ hm hact ho => ho.act hm hact) m m' h ho

end Machine

open Machine in
/-- Native code that minds the binding layer and installs classes with success, or not at all, leaves machines tended. -/
theorem stable_tended : Stable (Machine.Tended : Machine χ σ → Prop) Machine.Tends := by
  have hmanaged : Stable (fun m : Machine χ σ => m.Managed True) (Machine.Minds (.wide True)) :=
    stable_managed (S := .wide True) fun _ h => h
  exact {
    silent := fun c m r hr hm hp => {
      managed := hmanaged.silent c m r hr hm.managed hp.1
      completed := stable_completed.silent c m r hr hm.completed (hp.spares hm.managed)
      shadows := hm.shadows.acts (Request.acts_perform (S := .wide True) c hr m ⟨hm.managed, fun _ h => h.elim⟩ hp.1).2.1 }
    written := fun m call hm => {
      managed := hmanaged.written m call hm.managed
      completed := stable_completed.written m call hm.completed
      shadows := hm.shadows.act hm.managed (hm.managed.act_write (S := .wide True) call fun _ _ h => h.elim) }
    lands := fun m target key v t hm hp ht => {
      managed := hmanaged.lands m target key v t hm.managed hp.1 ht
      completed := stable_completed.lands m target key v t hm.completed (hp.spares hm.managed) ht
      shadows := hm.shadows.act hm.managed
        (hm.managed.act_rawSet (S := .wide True) (Minds.lands hm.managed.orderly hp.1 ht).1 (fun h => h.elim) key v) }
    swept := fun m hm _ => ⟨hm.managed.swept, hm.completed.swept, hm.shadows.swept⟩
    queue := fun _ _ _ _ _ hm => hm.of_heap_eq rfl rfl rfl
    finish := fun _ _ _ _ _ hm => hm.of_heap_eq rfl rfl rfl }

theorem Reached.tended {Γ : Host χ σ} (hΓ : Γ.Lawful Machine.Tends Machine.Tended) {m : Machine χ σ}
    (hm : Reached Γ Machine.Tends m) : m.Tended :=
  hm.keep stable_tended (fun _ _ _ => ⟨trivial, nofun⟩) hΓ Machine.tended_start (fun _ _ _ _ h _ => h.of_heap_eq rfl rfl rfl)
    fun _ _ h => h.of_heap_eq rfl rfl rfl

end ScriptHost

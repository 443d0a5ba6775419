import ScriptHost.Proofs.Runs
import ScriptHost.Proofs.Unshared

/-!
# Operations as edits

Every operation that calls nothing is a sequence of edits (`Machine.edits`), as long as native code asks for nothing that writes
the registry itself or, where the tables of classes are closed, one of those (`Machine.Spares`). So in every run each name of the
registry has a table of its own, also where native code writes class tables by hand (`Reached.unshared`).
-/

namespace ScriptHost

variable {χ σ α β : Type} {closed : Prop}

/-- A value that has the key of a text is the text. -/
theorem Key.eq_string_of_ofValue {v : Value} {name : String} (h : Key.ofValue v = .ok (.string name)) : v = .string name := by
  cases v with
  | string s =>
    cases h
    rfl
  | number x =>
    simp only [Key.ofValue] at h
    split at h
    · cases h
    · split at h <;> cases h
  | _ => cases h

namespace Machine

/-- A raw write that leaves the names alone: to what may be written, or to the registry, when neither the entry that goes nor the
one that comes is a table under a name. -/
def MayWrite (closed : Prop) (m : Machine χ σ) (t : Ref) (key v : Value) : Prop :=
  m.Writable closed t ∨ t = m.registry ∧ (∀ s, v ≠ .table s) ∧ ∀ name s, key = .string name → ¬m.Registered name s

/-- The request leaves the names to the binding layer. Where the tables of classes are closed it writes none of them, and makes
none an environment, which scripts write; and classes are installed with success, or not at all. -/
def Spares (closed : Prop) (m : Machine χ σ) : Request χ σ → Prop
  | .rawSet t key v => m.MayWrite closed t key v
  | .remove t key => m.MayWrite closed t key .nil
  | .setMetatable (.table t) _ => m.Writable closed t
  | .setEnvironment _ env => ∀ e, env = some e → m.Writable closed e
  | .setIndex target key v =>
    ∀ t, m.landsOn key m.limits.maxIndexChain target = some t → m.MayWrite closed t key v
  | .installClasses classes => closed → (ClassDescriptor.installAll classes m).2 = m ∨
      (ClassDescriptor.installAll classes m).1 = .ok () ∧ ∀ d ∈ classes, ∀ b ∈ d.bases, b ∉ Registry.reserved
  | _ => True

/-- Tables that native code may write. -/
def OpenAll (closed : Prop) (refs : List Ref) (m : Machine χ σ) : Prop := ∀ t ∈ refs, m.Open closed t

/-- One edit after the other. -/
def edits (closed : Prop) : Discipline χ σ where
  Inv := Unshared closed
  Next := Relation.ReflTransGen (Edit closed)
  refl _ := .refl
  trans _ _ _ := .trans

variable {m m' : Machine χ σ} {t : Ref} {refs : List Ref}

/-- What every edit leaves, edits leave. -/
theorem lasts_of_edit {K : Machine χ σ → Prop} (h : ∀ m m' : Machine χ σ, m.Edit closed m' → K m → K m') :
    (edits closed : Discipline χ σ).Lasts K := by
  intro m m' hnext hk
  induction hnext with
  | refl => exact hk
  | tail _ hedit ih => exact h _ _ hedit ih

theorem lasts_openAll : (edits closed : Discipline χ σ).Lasts (OpenAll closed refs) :=
  lasts_of_edit fun _ _ h hk t ht => h.open (hk t ht)

theorem openAll_nil : m.OpenAll closed [] := fun _ ht => nomatch ht

theorem openAll_cons : m.OpenAll closed (t :: refs) ↔ m.Open closed t ∧ m.OpenAll closed refs := List.forall_mem_cons

/-! ## Primitive changes -/

theorem edit_refl (m : Machine χ σ) : m.Edit closed m := .still rfl rfl rfl

theorem Unshared.edit_changeTable (hm : m.Unshared closed) (ht : m.Writable closed t) {f : Table → Table}
    (hf : ∀ T, T.Unique → (f T).Unique) :
    m.Edit closed (Action.onHeap (fun h => h.changeTable t f) m).2 := by
  refine Action.onHeap_elim (P := fun m' => m.Edit closed m') (edit_refl m) fun h' hc => ?_
  obtain ⟨T, hT, rfl⟩ := Heap.changeTable_eq_ok_iff.1 hc
  refine .table (written_put hm.wellFormed (Heap.contains_of_object? hT) ?_) ⟨⟨T, hT⟩, ht⟩
  exact fun T' e => Object.table.inj e ▸ hf T (hm.wellFormed.unique t T hT)

/-- An entry of the registry becomes something other than a table. -/
theorem Unshared.edit_entry (hm : m.Unshared closed) {k : Key} {v : Value} (value : ∀ s, v ≠ .table s)
    (key : ∀ name s, k = .string name → m.Registered name s → name ∈ Registry.reserved) :
    m.Edit closed (Action.onHeap (fun h => h.changeTable m.registry (fun T => T.set k v)) m).2 := by
  obtain ⟨R, hR, -⟩ := hm.registry
  have hset := Action.onHeap_of_ok (m := m) (f := fun h => h.changeTable m.registry (fun T => T.set k v))
    (Heap.changeTable_eq_ok_iff.2 ⟨R, hR, rfl⟩)
  rw [hset]
  refine .entry (written_put hm.wellFormed (Heap.contains_of_object? hR) ?_) hR value key
  exact fun T e => Object.table.inj e ▸ (hm.wellFormed.unique _ R hR).set k v

theorem Unshared.edit_changeUserdata (hm : m.Unshared closed) {r : Ref} {f : Userdata → Userdata}
    (hf : ∀ u e, (f u).environment = some e → u.environment = some e ∨ m.Open closed e) :
    m.Edit closed (Action.onHeap (fun h => h.changeUserdata r f) m).2 := by
  refine Action.onHeap_elim (P := fun m' => m.Edit closed m') (edit_refl m) fun h' hc => ?_
  obtain ⟨u, hu, rfl⟩ := Heap.changeUserdata_eq_ok_iff.1 hc
  obtain ⟨R, hR, -⟩ := hm.registry
  exact .userdata (written_put hm.wellFormed (Heap.contains_of_object? hu) fun _ e => nomatch e) hu
    (Heap.ne_of_table_of_userdata hR hu).symm (hf u)

theorem Unshared.edit_allocate (hm : m.Unshared closed) {o : Object χ} (ho : o.IsNew) :
    m.Edit closed (Action.allocate o m).2 := by
  obtain ⟨R, hR, -⟩ := hm.registry
  have hunique : ∀ t, o = .table t → t.Unique := by
    rintro t rfl
    rw [ho]
    exact Table.unique_empty
  obtain ⟨r, m', h, hfresh, hw⟩ := Action.exists_allocate hm.wellFormed hunique
  rw [h]
  refine .new hw hfresh (ne_of_not_contains hfresh hR).symm ?_
  rintro u rfl
  rw [ho]
  rfl

/-- A write that leaves the names alone. -/
theorem Unshared.edit_rawSet (hm : m.Unshared closed) {key v : Value} (h : m.MayWrite closed t key v) :
    m.Edit closed (Action.rawSet t key v m).2 := by
  unfold Action.rawSet
  cases hk : Key.ofValue key with
  | error cause => exact edit_refl m
  | ok k =>
    rcases h with h | ⟨rfl, hv, hkey⟩
    · exact hm.edit_changeTable h fun _ hu => hu.set _ _
    · exact hm.edit_entry hv fun name s e hr => absurd hr (hkey name s (Key.eq_string_of_ofValue (e ▸ hk)))

theorem Unshared.edit_remove (hm : m.Unshared closed) {key : Value} (h : m.MayWrite closed t key .nil) :
    m.Edit closed (Action.remove t key m).2 := by
  unfold Action.remove
  cases hk : Key.ofValue key with
  | error cause => exact edit_refl m
  | ok k =>
    have herase : m.Edit closed (Action.onHeap (fun h => h.changeTable t (fun T => T.erase k)) m).2 := by
      rcases h with h | ⟨rfl, hv, hkey⟩
      · exact hm.edit_changeTable h fun _ hu => hu.erase _
      · exact hm.edit_entry hv fun name s e hr => absurd hr (hkey name s (Key.eq_string_of_ofValue (e ▸ hk)))
    show m.Edit closed (Action.bind (Action.query fun m => m.heap.table t) _ m).2
    rw [Action.query_bind]
    cases m.heap.table t with
    | error e => exact edit_refl m
    | ok T => exact (Action.answer_snd _ (fun _ => T.find? k) m).symm ▸ herase

end Machine

namespace Action

open Discipline Machine

variable {refs : List Ref} {t : Ref} {K : Machine χ σ → Prop} {Q : α → Machine χ σ → Prop}

/-- An action that is one edit. -/
theorem keeps_edit {x : Action χ σ α} (h : ∀ m : Machine χ σ, m.Unshared closed → K m → m.Edit closed (x m).2)
    (hQ : ∀ m a, m.Unshared closed → K m → (x m).1 = .ok a → Q a (x m).2) : (edits closed).Keeps K x Q :=
  fun m hm hk => ⟨(h m hm hk).unshared hm, .single (h m hm hk), fun a ha => hQ m a hm hk ha⟩

/-- Open tables stay open in it. -/
theorem keeps_openAll {x : Action χ σ α} (h : ∀ m : Machine χ σ, m.Unshared closed → m.OpenAll closed refs → m.Edit closed (x m).2) :
    (edits closed).Keeps (OpenAll closed refs) x (fun _ => OpenAll closed refs) :=
  keeps_edit h fun m _ hm hk _ t ht => (h m hm hk).open (hk t ht)

/-- What needs nothing and promises nothing. -/
theorem keeps_of_open {x : Action χ σ α} {P : α → Machine χ σ → Prop} (h : (edits closed).Keeps (OpenAll closed []) x P) :
    (edits closed).Keeps K x (fun _ _ => True) :=
  h.weaken (fun _ _ => openAll_nil) fun _ _ _ => trivial

/-! ## Raw access -/

theorem keeps_still {x : Action χ σ α} (h : ∀ m, (x m).2 = m) :
    (edits closed).Keeps (OpenAll closed refs) x (fun _ => OpenAll closed refs) :=
  keeps_of_still h fun _ _ _ hk _ => hk

/-- Changes outside the heap. -/
theorem keeps_beside {x : Action χ σ α} (h : ∀ m, (x m).2.heap = m.heap ∧ (x m).2.registry = m.registry ∧
    (x m).2.globals = m.globals) : (edits closed).Keeps K x (fun _ _ => True) :=
  keeps_edit (fun m _ _ => .still (h m).1 (h m).2.1 (h m).2.2) fun _ _ _ _ _ => trivial

theorem keeps_newTable :
    (edits closed).Keeps (OpenAll closed refs) (newTable : Action χ σ Ref) (fun t => OpenAll closed (t :: refs)) := by
  have hedit : ∀ m : Machine χ σ, m.Unshared closed → m.OpenAll closed refs →
      m.Edit closed ((newTable : Action χ σ Ref) m).2 := fun m hm _ => hm.edit_allocate rfl
  refine keeps_edit hedit fun m t hm hk ht => openAll_cons.2 ⟨?_, fun s hs => (hedit m hm hk).open (hk s hs)⟩
  obtain ⟨R, hR, -⟩ := hm.registry
  obtain ⟨r, m', h, hfresh, hw⟩ := exists_newTable hm.wellFormed
  have hnew := hedit m hm hk
  rw [h] at ht hnew ⊢
  cases ht
  refine ⟨⟨_, hw.self⟩, ?_, ?_⟩
  · rw [hw.registry]
    exact (ne_of_not_contains hfresh hR).symm
  · rintro ⟨-, name, -, hr⟩
    -- the new table has no name, because its object is new and the registry is what it was
    rw [registered_congr (m := m) (by rw [hw.registry, hw.other (ne_of_not_contains hfresh hR)])] at hr
    exact hfresh (hm.contains_of_registered hr)

theorem keeps_newUserdata (p : Payload) :
    (edits closed).Keeps (OpenAll closed refs) (newUserdata p : Action χ σ Ref) (fun _ => OpenAll closed refs) :=
  keeps_openAll fun _ hm _ => hm.edit_allocate rfl

theorem keeps_newFunction (name : String) (code : Code χ) (upvalues : List Value) :
    (edits closed).Keeps (OpenAll closed refs) (newFunction name code upvalues : Action χ σ Ref)
      (fun _ => OpenAll closed refs) :=
  keeps_openAll fun _ hm _ => hm.edit_allocate trivial

theorem keeps_store (ht : t ∈ refs) (k : Key) (v : Value) :
    (edits closed).Keeps (OpenAll closed refs)
      (onHeap (fun h => h.changeTable t (fun T => T.set k v)) : Action χ σ Unit) (fun _ => OpenAll closed refs) :=
  keeps_openAll fun _ hm hk => hm.edit_changeTable (hk t ht).2 fun _ hu => hu.set _ _

theorem keeps_setField (ht : t ∈ refs) (name : String) (v : Value) :
    (edits closed).Keeps (OpenAll closed refs) (setField t name v : Action χ σ Unit) (fun _ => OpenAll closed refs) :=
  keeps_store ht _ v

theorem keeps_setAt (ht : t ∈ refs) (i : Int64) (v : Value) :
    (edits closed).Keeps (OpenAll closed refs) (setAt t i v : Action χ σ Unit) (fun _ => OpenAll closed refs) :=
  keeps_store ht _ v

theorem keeps_setAddress (ht : t ∈ refs) (a : Address) (v : Value) :
    (edits closed).Keeps (OpenAll closed refs) (rawSet t (.address a) v : Action χ σ Unit) (fun _ => OpenAll closed refs) :=
  keeps_store ht _ v

/-- An entry of the binding layer that is no table. -/
theorem keeps_setRegistry {name : String} (hname : name ∈ Registry.reserved) {v : Value} (hv : ∀ s, v ≠ .table s) :
    (edits closed).Keeps (OpenAll closed refs) (setRegistry name v : Action χ σ Unit) (fun _ => OpenAll closed refs) := by
  refine keeps_openAll fun m hm _ => ?_
  refine hm.edit_entry (k := .string name) hv fun n s e _ => ?_
  cases e
  exact hname

theorem keeps_setMetatable {v : Value} (mt : Option Ref) (hK : ∀ m : Machine χ σ, K m → ∀ t, v = .table t → m.Writable closed t) :
    (edits closed).Keeps K (setMetatable v mt : Action χ σ Unit) (fun _ _ => True) := by
  have hrequire : (edits closed).Keeps K (requireTable mt : Action χ σ Unit) (fun _ => K) :=
    keeps_of_still (requireTable_still mt) fun _ _ _ hk _ => hk
  refine hrequire.bind fun _ => ?_
  cases v with
  | table t =>
    exact keeps_edit (fun m hm hk => hm.edit_changeTable (hK m hk t rfl) fun _ hu => hu) fun _ _ _ _ _ => trivial
  | userdata r =>
    exact keeps_edit (fun m hm _ => hm.edit_changeUserdata fun _ _ h => Or.inl h) fun _ _ _ _ _ => trivial
  | _ => exact keeps_fail _

theorem keeps_setEnvironment (r : Ref) (env : Option Ref) (hK : ∀ m : Machine χ σ, K m → ∀ e, env = some e → m.Writable closed e) :
    (edits closed).Keeps K (setEnvironment r env : Action χ σ Unit) (fun _ _ => True) := by
  have hrequire : (edits closed).Keeps K (requireTable env : Action χ σ Unit)
      (fun _ m => ∀ e, env = some e → m.Open closed e) := by
    refine keeps_of_still (requireTable_still env) fun m _ _ hk h e he => ?_
    subst he
    exact ⟨isTable_of_requireTable h, hK m hk e rfl⟩
  refine hrequire.bind fun _ => ?_
  exact keeps_edit (fun m hm ho => hm.edit_changeUserdata fun _ e he => Or.inr (ho e he)) fun _ _ _ _ _ => trivial

/-! ## The binding layer -/

theorem keeps_registryTable {name : String} (hname : name ∈ Registry.reserved) (mode : Option String) :
    (edits closed).Keeps (OpenAll closed refs) (Registry.table name mode : Action χ σ Ref)
      (fun t => OpenAll closed (t :: refs)) := by
  intro m hm hk
  obtain ⟨R, hR, -⟩ := hm.registry
  obtain ⟨t, m', h, ⟨rfl, hr⟩ | ⟨T, hregisters, -⟩⟩ := exists_registryTable hm.wellFormed hR name mode
  · rw [h]
    refine ⟨hm, .refl, fun s hs => ?_⟩
    cases hs
    exact openAll_cons.2 ⟨hm.open_of_reserved hname hr, hk⟩
  · have hedit : m.Edit closed m' := .named hregisters fun hn => absurd hname hn
    have hm' := hedit.unshared hm
    rw [h]
    refine ⟨hm', .single hedit, fun s hs => ?_⟩
    cases hs
    refine openAll_cons.2 ⟨hm'.open_of_reserved hname ?_, fun s hs => hedit.open (hk s hs)⟩
    exact (hregisters.registered_iff name t).2 (Or.inl ⟨rfl, rfl⟩)

/-- The table under a name. It is open where class tables are. -/
theorem keeps_metatableNamed (name : String) :
    (edits closed).Keeps (OpenAll closed refs) (metatableNamed name : Action χ σ (Ref × Bool))
      (fun p m => m.OpenAll closed refs ∧ (¬closed → m.Open closed p.1)) := by
  intro m hm hk
  obtain ⟨R, hR, -⟩ := hm.registry
  have hopen : ∀ {m' : Machine χ σ} {t : Ref}, m'.Unshared closed → m'.Registered name t → ¬closed → m'.Open closed t := by
    intro m' t hm' hr hn
    obtain ⟨hne, hT⟩ := hm'.registered name t hr
    exact ⟨hT, hne, fun h => hn h.1⟩
  obtain ⟨t, b, m', h, ⟨rfl, hr⟩ | hregisters⟩ := exists_metatableNamed hm.wellFormed hR name
  · rw [h]
    refine ⟨hm, .refl, fun s hs => ?_⟩
    cases hs
    exact ⟨hk, hopen hm hr⟩
  · have hedit : m.Edit closed m' := .named hregisters fun _ => rfl
    have hm' := hedit.unshared hm
    rw [h]
    refine ⟨hm', .single hedit, fun s hs => ?_⟩
    cases hs
    exact ⟨fun s hs => hedit.open (hk s hs), hopen hm' ((hregisters.registered_iff name t).2 (Or.inl ⟨rfl, rfl⟩))⟩

theorem keeps_listHandle (ht : t ∈ refs) (a : Address) :
    (edits closed).Keeps (OpenAll closed refs) (newUserdata (.handle a) >>= fun handle => newTable >>= fun shadow =>
      setEnvironment handle (some shadow) >>= fun _ => rawSet t (.address a) (.userdata handle) >>= fun _ =>
      pure handle : Action χ σ Ref) (fun _ => OpenAll closed refs) := by
  refine (keeps_newUserdata _).bind fun handle => keeps_newTable.bind fun shadow => ?_
  have hlasts : (edits closed : Discipline χ σ).Lasts (OpenAll closed (shadow :: refs)) := lasts_openAll
  have henv := Keeps.frame hlasts
    (keeps_setEnvironment (K := OpenAll closed (shadow :: refs)) handle (some shadow)
      fun (m : Machine χ σ) h e he => Option.some.inj he ▸ (openAll_cons.1 h).1.2)
  refine (henv.weaken (fun _ h => ⟨h, h⟩) fun _ _ h => h.2).bind fun _ => ?_
  exact (keeps_setAddress (by simp [ht]) a _).bind fun _ => keeps_pure fun _ _ h => (openAll_cons.1 h).2

theorem keeps_ensureHandle (a : Address) :
    (edits closed).Keeps (OpenAll closed refs) (ensureHandle a : Action χ σ Ref) (fun _ => OpenAll closed refs) := by
  refine (keeps_registryTable (by decide) _).bind fun pointers => (keeps_still fun _ => rfl).bind fun found => ?_
  split
  · exact keeps_pure fun _ _ h => (openAll_cons.1 h).2
  · exact (keeps_listHandle (by simp) a).weaken (fun _ h => h) fun _ _ h => (openAll_cons.1 h).2

theorem keeps_unregister (a : Address) :
    (edits closed).Keeps K (unregister a : Action χ σ Unit) (fun _ _ => True) := by
  have hlook : (edits closed).Keeps K (look : Action χ σ (Machine χ σ)) (fun m₀ m => m₀ = m) :=
    keeps_of_still (fun _ => rfl) fun _ _ _ _ h => (Except.ok.inj h).symm
  refine hlook.bind fun m₀ => ?_
  split
  · exact keeps_pure fun _ _ _ => trivial
  · rename_i pointers hfound
    -- the table that is found has a name of the binding layer, so it is open
    refine Keeps.of_need (K := OpenAll closed [pointers]) ?_ fun m hm hk => ?_
    · refine (keeps_still fun _ => rfl).bind fun found => ?_
      split
      · refine Keeps.bind (keeps_openAll fun m hm _ => hm.edit_changeUserdata fun u e he => Or.inl ?_) fun _ =>
          (keeps_setAddress (by simp) a _).weaken (fun _ h => h) fun _ _ _ => trivial
        unfold Userdata.forgetAddress at he
        split at he <;> exact he
      · exact keeps_pure fun _ _ _ => trivial
    · subst hk
      refine openAll_cons.2 ⟨hm.open_of_reserved (by decide) (hm.find?_eq_some_iff.1 hfound), openAll_nil⟩

theorem keeps_wrap (a : Address) (name : String) :
    (edits closed).Keeps K (wrap a name : Action χ σ Value) (fun _ _ => True) := by
  unfold wrap
  split
  · exact keeps_pure fun _ _ _ => trivial
  · refine keeps_of_open (P := fun _ _ => True) ((keeps_ensureHandle a).bind fun handle => (keeps_metatableNamed name).bind fun found => ?_)
    refine (keeps_setMetatable (v := .userdata handle) _ fun _ _ _ e => nomatch e).bind fun _ => ?_
    exact keeps_pure (Q := fun _ _ => True) fun _ _ _ => trivial

theorem keeps_fillEnumeration (ht : t ∈ refs) (members : List (String × Int64)) :
    (edits closed).Keeps (OpenAll closed refs) (EnumDescriptor.fill t members : Action χ σ Unit)
      (fun _ => OpenAll closed refs) := by
  induction members with
  | nil => exact keeps_pure fun _ _ h => h
  | cons e rest ih => exact (keeps_setField ht _ _).bind fun _ => (keeps_setAt ht _ _).bind fun _ => ih

theorem keeps_defineAll (enums : List EnumDescriptor) :
    (edits closed).Keeps (OpenAll closed []) (EnumDescriptor.defineAll enums : Action χ σ Unit)
      (fun _ => OpenAll closed []) := by
  induction enums with
  | nil => exact keeps_pure fun _ _ h => h
  | cons d rest ih =>
    refine Keeps.bind (Q := fun _ => OpenAll closed []) ?_ fun _ => ih
    refine (keeps_registryTable (by decide) _).bind fun all => keeps_newTable.bind fun t => ?_
    refine (keeps_fillEnumeration (by simp) d.members).bind fun _ => ?_
    exact (keeps_setField (by simp) d.name _).weaken (fun _ h => h) fun _ _ _ => openAll_nil

theorem keeps_stage (p : Payload) :
    (edits closed).Keeps (OpenAll closed []) (Cell.stage p : Action χ σ Ref) (fun _ => OpenAll closed []) := by
  refine (keeps_registryTable (by decide) _).bind fun cells => (keeps_newUserdata p).bind fun cell => ?_
  refine Keeps.bind (Q := fun _ => OpenAll closed [cells]) ?_ fun place => ?_
  · refine (keeps_still fun _ => rfl).bind fun counter => ?_
    exact (keeps_setRegistry (v := .integer _) (by decide) fun _ e => nomatch e).bind fun _ => keeps_pure fun _ _ h => h
  · exact (keeps_setAt (by simp) place _).bind fun _ => keeps_pure fun _ _ _ => openAll_nil

theorem keeps_stageArguments (v : Value) :
    (edits closed).Keeps (OpenAll closed []) (Arguments.ofValue v : Action χ σ StagedArguments)
      (fun _ => OpenAll closed []) := by
  unfold Arguments.ofValue
  split
  · exact (keeps_still fun _ => rfl).bind fun _ => (keeps_stage _).bind fun _ => keeps_pure fun _ _ h => h
  · exact keeps_fail _

theorem keeps_stageInteger (v : Value) :
    (edits closed).Keeps (OpenAll closed []) (Arguments.stageInteger v : Action χ σ StagedInteger)
      (fun _ => OpenAll closed []) :=
  (keeps_stage _).bind fun _ => keeps_pure fun _ _ h => h

theorem keeps_newTexts (texts : List String) :
    (edits closed).Keeps (OpenAll closed []) (Arguments.toTable texts : Action χ σ Ref) (fun _ => OpenAll closed []) := by
  have hfill : ∀ t n, (edits closed).Keeps (OpenAll closed [t]) (Arguments.fill t n texts : Action χ σ Unit)
      (fun _ => OpenAll closed [t]) := by
    intro t n
    induction texts generalizing n with
    | nil => exact keeps_pure fun _ _ h => h
    | cons s rest ih => exact (keeps_setAt (by simp) _ _).bind fun _ => ih _
  exact keeps_newTable.bind fun t => (hfill t 0).bind fun _ => keeps_pure fun _ _ _ => openAll_nil

/-! ### Classes, where their tables are open -/

theorem keeps_installMethods (ht : t ∈ refs) (name : String) (methods : List (String × χ)) :
    (edits closed).Keeps (OpenAll closed refs) (ClassDescriptor.installMethods t name methods : Action χ σ _)
      (fun _ => OpenAll closed refs) := by
  induction methods with
  | nil => exact keeps_pure fun _ _ h => h
  | cons e rest ih =>
    exact (keeps_newFunction _ _ _).bind fun f => (keeps_setField ht _ _).bind fun _ => ih.bind fun _ =>
      keeps_pure fun _ _ h => h

theorem keeps_publish (ht : t ∈ refs) (methods : List (String × Ref)) :
    (edits closed).Keeps (OpenAll closed refs) (ClassDescriptor.publish t methods : Action χ σ Unit)
      (fun _ => OpenAll closed refs) := by
  induction methods with
  | nil => exact keeps_pure fun _ _ h => h
  | cons e rest ih => exact (keeps_setField ht _ _).bind fun _ => ih

theorem keeps_setGlobal (name : String) (v : Value) :
    (edits closed).Keeps (OpenAll closed refs) (setGlobal name v : Action χ σ Unit) (fun _ => OpenAll closed refs) := by
  refine keeps_openAll fun m hm _ => hm.edit_changeTable ?_ fun _ hu => hu.set _ _
  exact ⟨hm.globals.1, fun ⟨_, name, _, h⟩ => hm.globals.2.1 name h⟩

theorem keeps_install (hopen : ¬closed) (d : ClassDescriptor χ) :
    (edits closed).Keeps (OpenAll closed []) (d.install : Action χ σ Unit) (fun _ => OpenAll closed []) := by
  refine (keeps_metatableNamed d.name).bind fun found => ?_
  refine Keeps.weaken (K := OpenAll closed [found.1]) (Q := fun _ => OpenAll closed []) ?_
    (fun m h => openAll_cons.2 ⟨h.2 hopen, openAll_nil⟩) fun _ _ h => h
  refine (keeps_installMethods (by simp) _ _).bind fun methods => (keeps_setField (by simp) _ _).bind fun _ => ?_
  refine (keeps_still fun _ => rfl).bind fun bases => (keeps_newFunction _ _ _).bind fun reader => ?_
  refine (keeps_newFunction _ _ _).bind fun writer => (keeps_newFunction _ _ _).bind fun finalizer => ?_
  refine (keeps_setField (by simp) _ _).bind fun _ => (keeps_setField (by simp) _ _).bind fun _ => ?_
  refine (keeps_setField (by simp) _ _).bind fun _ => Keeps.bind (Q := fun _ => OpenAll closed []) ?_ fun _ => ?_
  · refine (keeps_setMetatable (K := OpenAll closed [found.1]) _ fun m h t e => ?_).weaken (fun _ h => h)
      fun _ _ _ => openAll_nil
    cases e
    exact (h found.1 (by simp)).2
  · refine keeps_newTable.bind fun space => (keeps_publish (by simp) _).bind fun _ => ?_
    exact (keeps_setGlobal _ _).weaken (fun _ h => h) fun _ _ _ => openAll_nil

theorem keeps_installEach (hopen : ¬closed) (classes : List (ClassDescriptor χ)) :
    (edits closed).Keeps (OpenAll closed []) (ClassDescriptor.installEach classes : Action χ σ Unit)
      (fun _ => OpenAll closed []) := by
  induction classes with
  | nil => exact keeps_pure fun _ _ h => h
  | cons d rest ih => exact (keeps_install hopen d).bind fun _ => ih

end Action

/-! ## Requests that call nothing -/

open ScriptHost.Action Machine in
/-- A request that calls nothing and spares the names is a sequence of edits. Installing classes is one where their tables are
open. -/
theorem Request.keeps_perform (c : Caller χ σ) {r : Request χ σ} (hr : r.IsSilent)
    (hinstall : ∀ classes, r = .installClasses classes → ¬closed) :
    (edits closed).Keeps (fun m => m.Spares closed r) (r.perform c) (fun _ _ => True) := by
  cases r with
  | look => exact keeps_beside fun _ => ⟨rfl, rfl, rfl⟩
  | keep memory => exact keeps_beside fun _ => ⟨rfl, rfl, rfl⟩
  | newTable => exact keeps_of_open keeps_newTable
  | newUserdata p => exact keeps_of_open (keeps_newUserdata p)
  | newFunction name code upvalues => exact keeps_of_open (keeps_newFunction name code upvalues)
  | push v => exact keeps_beside fun _ => ⟨rfl, rfl, rfl⟩
  | pop => exact keeps_beside fun _ => ⟨rfl, rfl, rfl⟩
  | setTop height => exact keeps_beside fun _ => ⟨rfl, rfl, rfl⟩
  | pin v => exact keeps_beside fun _ => ⟨rfl, rfl, rfl⟩
  | unpin p => exact keeps_beside fun _ => ⟨rfl, rfl, rfl⟩
  | rawSet t key v => exact keeps_edit (fun _ hm h => hm.edit_rawSet h) fun _ _ _ _ _ => trivial
  | remove t key => exact keeps_edit (fun _ hm h => hm.edit_remove h) fun _ _ _ _ _ => trivial
  | setMetatable v mt =>
    refine keeps_setMetatable mt fun m h t e => ?_
    subst e
    exact h
  | setEnvironment u env => exact keeps_setEnvironment u env fun _ h => h
  | setPayload u p =>
    refine Discipline.Keeps.bind (Q := fun _ _ => True) (Discipline.keeps_of_still (fun _ => rfl) fun _ _ _ _ _ => trivial)
      fun held => ?_
    split
    · refine Discipline.Keeps.bind (Q := fun _ _ => True) ?_ fun _ => Discipline.keeps_pure fun _ _ _ => trivial
      exact keeps_edit (fun m hm _ => hm.edit_changeUserdata fun _ _ h => Or.inl h) fun _ _ _ _ _ => trivial
    · exact Discipline.keeps_pure fun _ _ _ => trivial
  | metatableNamed name => exact keeps_of_open (keeps_metatableNamed name)
  | ensureHandle a => exact keeps_of_open (keeps_ensureHandle a)
  | unregister a => exact keeps_unregister a
  | wrap a name => exact keeps_wrap a name
  | installClasses classes =>
    refine keeps_of_open (P := fun _ => OpenAll closed []) ?_
    exact Discipline.Keeps.bind (keeps_still fun _ => rfl) fun _ => keeps_installEach (hinstall classes rfl) classes
  | newReader name cls bases => exact keeps_of_open (keeps_newFunction _ _ _)
  | defineEnums enums => exact keeps_of_open (keeps_defineAll enums)
  | stage p => exact keeps_of_open (keeps_stage p)
  | stageInteger v => exact keeps_of_open (keeps_stageInteger v)
  | stageArguments v => exact keeps_of_open (keeps_stageArguments v)
  | newTexts texts => exact keeps_of_open (keeps_newTexts texts)
  | index | setIndex | call | callMethod | collect | isKindOf => exact hr.elim

/-! ## Runs -/

namespace Machine

/-- The class of a handle writes its shadow, which is open. -/
theorem Unshared.edit_write {m : Machine χ σ} (hm : m.Unshared closed) (call : Call) :
    m.Edit closed (Attribute.write call m).2 := by
  show m.Edit closed (Action.bind (Action.query fun m => Attribute.shadow? m (call.arg 1)) _ m).2
  rw [Action.query_bind]
  cases hs : Attribute.shadow? m (call.arg 1) with
  | error e => exact edit_refl m
  | ok shadow =>
    cases shadow with
    | none => exact edit_refl m
    | some e =>
      have hopen : m.Open closed e := by
        unfold Attribute.shadow? at hs
        split at hs
        · unfold Machine.environment at hs
          split at hs
          · cases hs
          · rename_i hu
            exact hm.environment _ _ e (Heap.userdata_eq_ok_iff.1 hu) (Except.ok.inj hs)
        · cases hs
      exact (Action.answer_snd _ (fun _ => []) m).symm ▸ hm.edit_rawSet (Or.inl hopen.2)

end Machine

/-- Native code that leaves the names to the binding layer leaves each with a table of its own. -/
theorem stable_unshared : Stable (Machine.Unshared False : Machine χ σ → Prop) (Machine.Spares False) where
  silent c _ _ hr hm hp := (Request.keeps_perform c hr (fun _ _ h => h) _ hm hp).1
  written _ call hm := (hm.edit_write call).unshared hm
  lands _ _ _ _ t hm hp ht := (hm.edit_rawSet (hp t ht)).unshared hm
  swept _ hm _ := hm.swept
  queue _ _ _ _ _ hm := hm.of_heap_eq rfl rfl rfl
  finish _ _ _ _ _ hm := hm.of_heap_eq rfl rfl rfl

/-- In a run in which native code leaves the names to the binding layer, each name has a table of its own on every machine. -/
theorem Reached.unshared {Γ : Host χ σ} (hΓ : Γ.Lawful (Machine.Spares False) (Machine.Unshared False)) {m : Machine χ σ}
    (hm : Reached Γ (Machine.Spares False) m) : m.Unshared False :=
  hm.keep stable_unshared (fun _ _ _ => trivial) hΓ Machine.unshared_start
    (fun _ _ _ _ h _ => h.of_heap_eq rfl rfl rfl)
    (fun _ _ h => h.of_heap_eq rfl rfl rfl)

end ScriptHost

import ScriptHost.Proofs.Acts

/-!
# Operations as acts

Every operation that calls nothing is a sequence of acts (`Machine.acts`), if native code leaves alone what is sealed. Raw access is
an act on tables that are not sealed and on userdata that are no handles; installing a class writes its table, which stays one that
leads no write anywhere; the operations of the binding layer put into its tables what they are meant for.
-/

namespace ScriptHost

variable {χ σ α β : Type} {S : Scope}

/-- A value other than a table or userdata, under whatever key, leads no write anywhere. -/
theorem Table.EndsWrites.set {T : Table} (hT : T.EndsWrites) (k : Key) {v : Value}
    (hv : ∀ r, v ≠ .table r ∧ v ≠ .userdata r) : (T.set k v).EndsWrites := by
  intro r
  unfold Table.field
  rw [Table.get_set]
  split
  · exact hv r
  · exact hT r

namespace Machine

/-- A table that native code may write: it is not sealed, and spared only if it is that of the globals. -/
def Loose (S : Scope) (m : Machine χ σ) (t : Ref) : Prop :=
  (∃ T, m.heap.object? t = some (.table T)) ∧ ¬m.Sealed t ∧ (S.spared t → t = m.globals)

/-- The table of a class, installed or not. -/
def ClassTable (t : Ref) (m : Machine χ σ) : Prop := ∃ name ∉ Registry.reserved, m.Registered name t

/-- Acts, one after the other, from managed machines. -/
def Acts (S : Scope) : Machine χ σ → Machine χ σ → Prop := Relation.ReflTransGen fun m m' => m.Managed S.strict ∧ m.Act S m'

/-- Acts on managed machines, on which the spared tables are there. -/
def acts (S : Scope) : Discipline χ σ where
  Inv m := m.Managed S.strict ∧ ∀ t, S.spared t → m.heap.contains t = true
  Next := Acts S
  refl _ := .refl
  trans _ _ _ := .trans

variable {m m' : Machine χ σ} {t : Ref} {refs : List Ref}

/-- What every act leaves, acts leave. -/
theorem lasts_of_act {K : Machine χ σ → Prop} (h : ∀ m m' : Machine χ σ, m.Managed S.strict → m.Act S m' → K m → K m') :
    (acts S : Discipline χ σ).Lasts K := by
  intro m m' hnext hk
  induction hnext with
  | refl => exact hk
  | tail _ hact ih => exact h _ _ hact.1 hact.2 ih

/-- A table that is not sealed stays one. -/
theorem Act.not_sealed (h : m.Act S m') (hm : m.Managed S.strict) (ht : ∃ T, m.heap.object? t = some (.table T))
    (hs : ¬m.Sealed t) : (∃ T, m'.heap.object? t = some (.table T)) ∧ ¬m'.Sealed t := by
  obtain ⟨T, hT⟩ := ht
  exact ⟨h.exists_table hT, fun hs' => hs (h.sealed_of_contains hm.orderly (Heap.contains_of_object? hT) hs')⟩

theorem Act.loose (h : m.Act S m') (hm : m.Managed S.strict) (ht : m.Loose S t) : m'.Loose S t := by
  obtain ⟨htable, hs, hspared⟩ := ht
  obtain ⟨htable', hs'⟩ := h.not_sealed hm htable hs
  exact ⟨htable', hs', h.globals.symm ▸ hspared⟩

/-- A handle stays listed where its address is not forgotten. -/
theorem Act.lists_of_unforgotten (h : m.Act S m') (hm : m.Managed S.strict) {a : Address} (ha : a ≠ Address.null)
    (hf : ¬S.forgets a) {r : Ref} (hr : m.Lists a r) : m'.Lists a r := by
  rcases h.isHandle (hm.isHandle_of_lists hr) with hkept | ⟨hforgets, -⟩
  · exact h.lists hm.orderly ha hr hkept
  · exact absurd hforgets hf

theorem lasts_registered (name : String) (t : Ref) : (acts S : Discipline χ σ).Lasts (fun m => m.Registered name t) :=
  lasts_of_act fun _ _ hm h ht => h.registered hm.orderly ht

/-- A new object is not sealed, if the registry and the metatables of the tables of the binding layer are what they were. -/
theorem Managed.not_sealed_of_fresh (hm : m.Managed S.strict) (hfresh : ¬m.heap.contains t = true)
    (hregistry : m'.registry = m.registry) (hsame : m'.heap.object? m.registry = m.heap.object? m.registry)
    (hown : ∀ name p T, m.Registered name p → m.heap.object? p = some (.table T) →
      ∃ T', m'.heap.object? p = some (.table T') ∧ T'.metatable = T.metatable) : ¬m'.Sealed t := by
  have hnames : ∀ name s, m'.Registered name s ↔ m.Registered name s :=
    fun name s => registered_congr (by rw [hregistry, hsame]) name s
  have hnot : ¬m.Sealed t := by
    intro hs
    obtain ⟨T, hT⟩ := hm.orderly.exists_of_sealed hs
    exact hfresh (Heap.contains_of_object? hT)
  rintro (rfl | ⟨name, hr⟩ | ⟨name, hname, p, T', hp, hT', hmt⟩)
  · exact hnot (Or.inl hregistry)
  · exact hnot (.of_registered ((hnames name t).1 hr))
  · have hp' := (hnames name p).1 hp
    obtain ⟨-, T, hT⟩ := hm.orderly.unshared.registered name p hp'
    obtain ⟨T'', hT'', hmetatable⟩ := hown name p T hp' hT
    cases hT'.symm.trans hT''
    exact hnot (.of_badge ⟨name, hname, p, T, hp', hT, hmetatable ▸ hmt⟩)

/-! ## Primitive changes -/

/-- Nothing happens to the heap. -/
theorem act_of_heap_eq (hheap : m'.heap = m.heap) (hregistry : m'.registry = m.registry) (hglobals : m'.globals = m.globals) :
    m.Act S m' := by
  refine ⟨.single (.still hheap hregistry hglobals), fun t o ho => ⟨o, by rw [hheap, ho], .same o⟩, fun t o ho hc => ?_⟩
  rw [hheap] at ho
  exact absurd (Heap.contains_of_object? ho) hc

theorem act_refl (m : Machine χ σ) : m.Act S m := act_of_heap_eq rfl rfl rfl

/-- One object becomes what it may become. -/
theorem Written.act_put {o o' : Object χ} (h : m.Written m' t o') (ho : m.heap.object? t = some o) (hedit : m.Edit False m')
    (hb : m.Becomes S m' t o o') : m.Act S m' := by
  refine ⟨.single hedit, fun s p hp => ?_, fun s p hp hc => ?_⟩
  · by_cases hs : s = t
    · subst hs
      cases ho.symm.trans hp
      exact ⟨o', h.self, hb⟩
    · exact ⟨p, (h.other hs).trans hp, .same p⟩
  · have hs : s ≠ t := by
      rintro rfl
      exact hc (Heap.contains_of_object? ho)
    rw [h.other hs] at hp
    exact absurd (Heap.contains_of_object? hp) hc

/-- One object is made. -/
theorem Written.act_new {o : Object χ} (h : m.Written m' t o) (hfresh : ¬m.heap.contains t = true) (hedit : m.Edit False m')
    (hb : m.Born S m' t o) : m.Act S m' := by
  refine ⟨.single hedit, fun s p hp => ⟨p, (h.other (ne_of_not_contains hfresh hp)).trans hp, .same p⟩, fun s p hp hc => ?_⟩
  by_cases hs : s = t
  · subst hs
    cases h.self.symm.trans hp
    exact hb
  · rw [h.other hs] at hp
    exact absurd (Heap.contains_of_object? hp) hc

/-- What is made by native code. -/
theorem Managed.act_allocate (hm : m.Managed S.strict) {o : Object χ} (ho : o.IsNew)
    (hu : ∀ u, o = .userdata u → ∀ a, u.payload ≠ .handle a) : m.Act S (Action.allocate o m).2 := by
  have hunique : ∀ t, o = .table t → t.Unique := by
    rintro t rfl
    rw [ho]
    exact Table.unique_empty
  have hedit := hm.orderly.unshared.edit_allocate ho
  obtain ⟨r, m', h, hfresh, hw⟩ := Action.exists_allocate hm.orderly.wellFormed hunique
  rw [h] at hedit ⊢
  refine hw.act_new hfresh hedit ?_
  cases o with
  | table T => exact .table T
  | function f => exact .function f
  | userdata u =>
    rw [ho]
    exact .userdata (hu u rfl)

/-- A table becomes what it may become. -/
theorem Managed.act_changeTable (hm : m.Managed S.strict) (hne : t ≠ m.registry) {f : Table → Table}
    (hf : ∀ T, T.Unique → (f T).Unique)
    (hb : ∀ T m', m.heap.object? t = some (.table T) → m.Written m' t (.table (f T)) →
      m.Becomes S m' t (.table T) (.table (f T))) :
    m.Act S (Action.onHeap (fun h => h.changeTable t f) m).2 := by
  have hedit := hm.orderly.unshared.edit_changeTable (t := t) (f := f) ⟨hne, fun h => h.1⟩ hf
  revert hedit
  refine Action.onHeap_elim (P := fun m' => m.Edit False m' → m.Act S m') (fun _ => act_refl m) fun h' hc hedit => ?_
  obtain ⟨T, hT, rfl⟩ := Heap.changeTable_eq_ok_iff.1 hc
  have hw := written_put (m := m) (o := .table (f T)) hm.orderly.wellFormed (Heap.contains_of_object? hT) fun T' e =>
    Object.table.inj e ▸ hf T (hm.orderly.wellFormed.unique t T hT)
  exact hw.act_put hT hedit (hb T _ hT hw)

theorem Managed.act_loose (hm : m.Managed S.strict) (hs : ¬m.Sealed t) (hspared : S.spared t → t = m.globals)
    {f : Table → Table} (hf : ∀ T, T.Unique → (f T).Unique) : m.Act S (Action.onHeap (fun h => h.changeTable t f) m).2 :=
  hm.act_changeTable (fun e => hs (Or.inl e)) hf fun _ _ _ _ => .loose hs hspared

/-- A class comes to say `true` of its own name at most. -/
theorem Managed.act_classed (hm : m.Managed S.strict) (ht : m.ClassTable t) {f : Table → Table}
    (hf : ∀ T, T.Unique → (f T).Unique) (hends : ∀ T, T.EndsWrites → (f T).EndsWrites)
    (hmarks : ∀ name T k, m.Registered name t → (f T).get k = .boolean true → T.get k = .boolean true ∨ k = .string name) :
    m.Act S (Action.onHeap (fun h => h.changeTable t f) m).2 := by
  obtain ⟨name, hname, hr⟩ := ht
  exact hm.act_changeTable (hm.orderly.unshared.registered name t hr).1 hf fun T _ hT _ =>
    .classed hname hr (hends T (hm.orderly.classes name hname t T hr hT)) fun k => hmarks name T k hr

/-- A userdata becomes what it may become. -/
theorem Managed.act_changeUserdata (hm : m.Managed S.strict) {r : Ref} {f : Userdata → Userdata}
    (hf : ∀ u e, (f u).environment = some e → u.environment = some e ∨ m.Open False e)
    (hb : ∀ u m', m.heap.object? r = some (.userdata u) → m.Becomes S m' r (.userdata u) (.userdata (f u))) :
    m.Act S (Action.onHeap (fun h => h.changeUserdata r f) m).2 := by
  have hedit := hm.orderly.unshared.edit_changeUserdata (r := r) (f := f) hf
  revert hedit
  refine Action.onHeap_elim (P := fun m' => m.Edit False m' → m.Act S m') (fun _ => act_refl m) fun h' hc hedit => ?_
  obtain ⟨u, hu, rfl⟩ := Heap.changeUserdata_eq_ok_iff.1 hc
  have hw := written_put (m := m) (o := .userdata (f u)) hm.orderly.wellFormed (Heap.contains_of_object? hu) fun _ e => nomatch e
  exact hw.act_put hu hedit (hb u _ hu)

/-- What has no address is no handle. -/
theorem payload_ne_of_address? {r : Ref} (h : m.address? r = none) {u : Userdata} (hu : m.heap.object? r = some (.userdata u))
    (a : Address) : u.payload ≠ .handle a := by
  intro hpay
  unfold address? at h
  rw [Heap.userdata_eq_ok_iff.2 hu] at h
  obtain ⟨p, mt, e, f⟩ := u
  cases hpay
  cases h

end Machine

namespace Action

open Discipline Machine

variable {K L : Machine χ σ → Prop} {Q : α → Machine χ σ → Prop} {t : Ref}

/-- An action that is one act. -/
theorem acts_single {x : Action χ σ α} (h : ∀ m : Machine χ σ, m.Managed S.strict → K m → m.Act S (x m).2)
    (hQ : ∀ m a, (acts S).Inv m → K m → (x m).1 = .ok a → Q a (x m).2) : (acts S).Keeps K x Q := by
  intro m hm hk
  have hact := h m hm.1 hk
  exact ⟨⟨hact.managed hm.1, fun t ht => hact.contains (hm.2 t ht)⟩, .single ⟨hm.1, hact⟩, fun a ha => hQ m a hm hk ha⟩

/-- What lasts is there after it. -/
theorem acts_lasting (hL : (acts S : Discipline χ σ).Lasts L) {x : Action χ σ α}
    (h : ∀ m : Machine χ σ, m.Managed S.strict → L m → m.Act S (x m).2) : (acts S).Keeps L x (fun _ => L) :=
  acts_single h fun m _ hm hk _ => hL m _ (.single ⟨hm.1, h m hm.1 hk⟩) hk

theorem acts_still {x : Action χ σ α} (h : ∀ m, (x m).2 = m) : (acts S).Keeps L x (fun _ => L) :=
  keeps_of_still h fun _ _ _ hk _ => hk

/-- Changes beside the heap. -/
theorem acts_beside {x : Action χ σ α} (h : ∀ m, (x m).2.heap = m.heap ∧ (x m).2.registry = m.registry ∧
    (x m).2.globals = m.globals) : (acts S).Keeps K x (fun _ _ => True) :=
  acts_single (fun m _ _ => act_of_heap_eq (h m).1 (h m).2.1 (h m).2.2) fun _ _ _ _ _ => trivial

/-- Two things that last, last together. -/
theorem lasts_and {K L : Machine χ σ → Prop} (hK : (acts S : Discipline χ σ).Lasts K) (hL : (acts S : Discipline χ σ).Lasts L) :
    (acts S : Discipline χ σ).Lasts (fun m => K m ∧ L m) :=
  fun m m' h hk => ⟨hK m m' h hk.1, hL m m' h hk.2⟩

/-! ## Raw access -/

/-- A new table is loose, also where a spared one is gone, because spared tables are there. -/
theorem acts_newTable (hL : (acts S : Discipline χ σ).Lasts L) :
    (acts S).Keeps L (newTable : Action χ σ Ref) (fun t m => m.Loose S t ∧ L m) := by
  have hact : ∀ m : Machine χ σ, m.Managed S.strict → L m → m.Act S ((newTable : Action χ σ Ref) m).2 :=
    fun m hm _ => hm.act_allocate rfl fun _ e => nomatch e
  refine acts_single hact fun m t hm hk ht => ⟨?_, hL m _ (.single ⟨hm.1, hact m hm.1 hk⟩) hk⟩
  obtain ⟨r, m', h, hfresh, hw⟩ := exists_newTable hm.1.orderly.wellFormed
  have hact := hact m hm.1 hk
  rw [h] at ht hact ⊢
  cases ht
  have hkept : ∀ {s o}, m.heap.object? s = some o → m'.heap.object? s = some o := fun ho =>
    (hw.other (ne_of_not_contains hfresh ho)).trans ho
  obtain ⟨R, hR, -⟩ := hm.1.orderly.unshared.registry
  exact ⟨⟨_, hw.self⟩, hm.1.not_sealed_of_fresh hfresh hw.registry (by rw [hkept hR, hR])
    fun _ _ T _ hT => ⟨T, hkept hT, rfl⟩, fun hspared => absurd (hm.2 t hspared) hfresh⟩

theorem acts_newUserdata (hL : (acts S : Discipline χ σ).Lasts L) {p : Payload} (hp : ∀ a, p ≠ .handle a) :
    (acts S).Keeps L (newUserdata p : Action χ σ Ref) (fun _ => L) := by
  refine acts_lasting hL fun m hm _ => hm.act_allocate rfl fun u e => ?_
  cases e
  exact hp

theorem acts_newFunction (hL : (acts S : Discipline χ σ).Lasts L) (name : String) (code : Code χ) (upvalues : List Value) :
    (acts S).Keeps L (newFunction name code upvalues : Action χ σ Ref) (fun _ => L) :=
  acts_lasting hL fun _ hm _ => hm.act_allocate trivial fun _ e => nomatch e

theorem acts_store (hL : (acts S : Discipline χ σ).Lasts L) (ht : ∀ m, L m → m.Loose S t) (k : Key) (v : Value) :
    (acts S).Keeps L (onHeap (fun h => h.changeTable t (fun T => T.set k v)) : Action χ σ Unit) (fun _ => L) :=
  acts_lasting hL fun m hm hk => hm.act_loose (ht m hk).2.1 (ht m hk).2.2 fun _ hu => hu.set k v

theorem acts_setField (hL : (acts S : Discipline χ σ).Lasts L) (ht : ∀ m, L m → m.Loose S t) (name : String) (v : Value) :
    (acts S).Keeps L (setField t name v : Action χ σ Unit) (fun _ => L) := acts_store hL ht _ v

theorem acts_setAt (hL : (acts S : Discipline χ σ).Lasts L) (ht : ∀ m, L m → m.Loose S t) (i : Int64) (v : Value) :
    (acts S).Keeps L (setAt t i v : Action χ σ Unit) (fun _ => L) := acts_store hL ht _ v

/-- A global becomes anything. -/
theorem acts_setGlobal (hL : (acts S : Discipline χ σ).Lasts L) (name : String) (v : Value) :
    (acts S).Keeps L (setGlobal name v : Action χ σ Unit) (fun _ => L) :=
  acts_lasting hL fun m hm _ => hm.act_loose (t := m.globals) hm.orderly.not_sealed_globals (fun _ => rfl) fun _ hu =>
    hu.set (.string name) v

/-- A class takes whatever is neither a table nor a userdata, and `true` under its own name. -/
theorem acts_setClassField (hL : (acts S : Discipline χ σ).Lasts L) (ht : ∀ m, L m → m.ClassTable t) (name : String)
    {v : Value} (hv : ∀ r, v ≠ .table r ∧ v ≠ .userdata r) (hmark : v = .boolean true → ∀ m, L m → m.Registered name t) :
    (acts S).Keeps L (setField t name v : Action χ σ Unit) (fun _ => L) := by
  refine acts_lasting hL fun m hm hk => hm.act_classed (ht m hk) (fun _ hu => hu.set _ _) (fun _ hT => hT.set _ hv) ?_
  intro name' T k hr hk'
  rw [Table.get_set] at hk'
  split at hk'
  · rename_i e
    rw [e, hm.orderly.name_eq hr (hmark hk' m hk)]
    exact Or.inr rfl
  · exact Or.inl hk'

theorem acts_requireTable (mt : Option Ref) :
    (acts S).Keeps K (requireTable mt : Action χ σ Unit) (fun _ m => K m ∧ ∀ t, mt = some t →
      ∃ T, m.heap.object? t = some (.table T)) := by
  refine keeps_of_still (requireTable_still mt) fun m _ _ hk h => ⟨hk, fun t e => ?_⟩
  subst e
  exact isTable_of_requireTable h

theorem acts_setClassMetatable (hL : (acts S : Discipline χ σ).Lasts L) (ht : ∀ m, L m → m.ClassTable t) (mt : Option Ref) :
    (acts S).Keeps L (setMetatable (.table t) mt : Action χ σ Unit) (fun _ => L) :=
  ((acts_requireTable mt).weaken (fun _ h => h) fun _ _ h => h.1).bind fun _ =>
    acts_lasting hL fun m hm hk => hm.act_classed (ht m hk) (fun _ hu => hu) (fun _ hT => hT) fun _ _ _ _ h => Or.inl h

end Action

/-! ## Names, handles and cells -/

namespace Machine

variable {m m' : Machine χ σ} {name : String} {t p r e : Ref} {T : Table} {a : Address}

/-- A new table gets a name. -/
theorem Registers.act (h : m.Registers m' name t T) (hf : m.Founded m' name t)
    (hblank : name ∉ Registry.reserved → T = .blank name) : m.Act S m' := by
  obtain ⟨R, hR, hR'⟩ := h.added
  refine ⟨.single (.named h hblank), fun s o ho => ?_, fun s o ho hc => ?_⟩
  · by_cases hs : s = m.registry
    · subst hs
      cases hR.symm.trans ho
      exact ⟨_, hR', .named rfl hf⟩
    · exact ⟨o, h.kept s o hs ho, .same o⟩
  · cases o with
    | table T => exact .table T
    | function f => exact .function f
    | userdata u => exact absurd (Heap.contains_of_object? (h.userdata s u ho)) hc

/-- A new handle is listed under an address that had none. -/
theorem Enlists.act (h : m.Enlists m' p r e T a) (hm : m.Managed S.strict) (hp : m.Registered Registry.pointers p)
    (hnone : T.find? (.address a) = none) (ha : S.lists a) (hedits : Relation.ReflTransGen (Edit False) m m') :
    m.Act S m' := by
  have hne := (hm.orderly.unshared.registered _ p hp).1
  obtain ⟨R, hR, -⟩ := hm.orderly.unshared.registry
  have hregistry : m'.heap.object? m.registry = m.heap.object? m.registry := by rw [h.kept hne.symm hR, hR]
  have hp' : m'.Registered Registry.pointers p := (registered_congr (by rw [h.registry, hregistry]) _ p).2 hp
  have hhandle : m'.IsHandle r a false := ⟨_, h.handle, rfl, rfl⟩
  refine ⟨hedits, fun s o ho => ?_, fun s o ho hc => ?_⟩
  · by_cases hs : s = p
    · subst hs
      cases hT : h.before.symm.trans ho
      exact ⟨_, h.listed, .own (by decide) hp (.handle ha hnone hhandle)⟩
    · exact ⟨o, h.kept hs ho, .same o⟩
  · rw [h.object] at ho
    split at ho
    · rename_i hs
      subst hs
      exact absurd (Heap.contains_of_object? h.before) hc
    · split at ho
      · rename_i hs
        subst hs
        cases ho
        refine .handle ha h.fresh_shadow ?_ ⟨p, _, hp', h.listed, ?_⟩
        · refine hm.not_sealed_of_fresh h.fresh_shadow h.registry hregistry fun name q Q hq hQ => ?_
          by_cases hqp : q = p
          · subst hqp
            cases h.before.symm.trans hQ
            exact ⟨_, h.listed, T.metatable_set _ _⟩
          · exact ⟨Q, h.kept hqp hQ, rfl⟩
        · rw [Table.find?_set, if_pos rfl]
          rfl
      · split at ho
        · cases ho
          exact .table _
        · exact absurd (Heap.contains_of_object? ho) hc

/-- The handle of an address is forgotten. -/
theorem Forgets.act {u : Userdata} (h : m.Forgets m' p r T u a) (hm : m.Managed S.strict)
    (hp : m.Registered Registry.pointers p) (hfind : T.find? (.address a) = some (.userdata r)) (ha : S.forgets a)
    (hedits : Relation.ReflTransGen (Edit False) m m') : m.Act S m' := by
  have hne := (hm.orderly.unshared.registered _ p hp).1
  obtain ⟨R, hR, -⟩ := hm.orderly.unshared.registry
  have hkept : ∀ {s o}, s ≠ p → s ≠ r → m.heap.object? s = some o → m'.heap.object? s = some o :=
    fun hs hsr ho => (h.other hs hsr).trans ho
  have hregistry : m'.heap.object? m'.registry = m.heap.object? m.registry := by
    rw [h.registry, hkept hne.symm (Heap.ne_of_table_of_userdata hR h.handle) hR, hR]
  refine ⟨hedits, fun s o ho => ?_, fun s o ho hc => ?_⟩
  · by_cases hs : s = p
    · subst hs
      cases h.before.symm.trans ho
      refine ⟨_, h.unlisted, .own (by decide) hp (.nothing ha fun hnull s hs hhandle => ?_)⟩
      cases hfind.symm.trans hs
      exact hnull (hhandle.eq ⟨_, h.forgotten, rfl, rfl⟩).1
    · by_cases hsr : s = r
      · subst hsr
        cases h.handle.symm.trans ho
        refine ⟨_, h.forgotten, .forgotten ha h.payload fun q Q hq hQ entry hentry hlast => ?_⟩
        obtain rfl := ((registered_congr hregistry _ q).1 hq).eq hp
        cases h.unlisted.symm.trans hQ
        rcases Table.mem_entries_set hentry with ⟨-, hnil⟩ | ⟨hmem, hkey⟩
        · exact hnil rfl
        · obtain ⟨b, s', rfl, hs'⟩ := hm.rostered.listing q T hp h.before entry hmem
          cases hlast
          obtain ⟨rfl, -⟩ := hs'.eq ⟨u, h.handle, h.payload, rfl⟩
          exact hkey rfl
      · exact ⟨o, hkept hs hsr ho, .same o⟩
  · rw [h.object] at ho
    split at ho
    · rename_i hs
      subst hs
      exact absurd (Heap.contains_of_object? h.before) hc
    · split at ho
      · rename_i hs
        subst hs
        exact absurd (Heap.contains_of_object? h.handle) hc
      · exact absurd (Heap.contains_of_object? ho) hc

/-- A table of the binding layer gets an entry that suits it. -/
theorem Managed.act_own (hm : m.Managed S.strict) (hname : name ∈ Registry.reserved) (ht : m.Registered name t) {k : Key}
    {v : Value} (hsuits : ∀ T m', m.heap.object? t = some (.table T) → m.Written m' t (.table (T.set k v)) →
      m'.Suits S T name k v) : m.Act S (Action.onHeap (fun h => h.changeTable t (fun T => T.set k v)) m).2 :=
  hm.act_changeTable (hm.orderly.unshared.registered name t ht).1 (fun _ hu => hu.set k v) fun T m' hT hw =>
    .own hname ht (hsuits T m' hT hw)

/-- The cells are counted. -/
theorem Managed.act_counted (hm : m.Managed S.strict) (i : Int64) (hS : S.stages) :
    m.Act S (Action.setRegistry Registry.nextCell (.integer i) m).2 := by
  obtain ⟨R, hR, -⟩ := hm.orderly.unshared.registry
  have hedit : m.Edit False (Action.setRegistry Registry.nextCell (.integer i) m).2 := by
    refine hm.orderly.unshared.edit_entry (k := .string Registry.nextCell) nofun fun name s e _ => ?_
    cases e
    decide
  obtain ⟨m', h, hw⟩ := Action.exists_setRegistry hm.orderly.wellFormed hR Registry.nextCell (.integer i)
  rw [h] at hedit ⊢
  exact hw.act_put hR hedit (.counted i rfl hS)

end Machine

namespace Action

open Discipline Machine

variable {K L : Machine χ σ → Prop} {Q : α → Machine χ σ → Prop} {t : Ref} {name : String}

/-- The table under a name of the binding layer, made as its name says if there is none. -/
theorem acts_registryTable (hL : (acts S : Discipline χ σ).Lasts L) (hname : name ∈ Registry.reserved)
    (hne : name ≠ Registry.nextCell) {mode : Option String} (hmode : Registry.modeOf name = mode) :
    (acts S).Keeps L (Registry.table name mode : Action χ σ Ref) (fun t m => m.Registered name t ∧ L m) := by
  intro m hm hk
  obtain ⟨R, hR, -⟩ := hm.1.orderly.unshared.registry
  obtain ⟨t, m', h, ⟨rfl, hr⟩ | ⟨T, hregisters, hentries, hnone, hsome⟩⟩ :=
    exists_registryTable hm.1.orderly.wellFormed hR name mode
  · rw [h]
    refine ⟨hm, .refl, fun s hs => ?_⟩
    cases hs
    exact ⟨hr, hk⟩
  · have hbadged : m'.Badged name T := by
      rw [Machine.Badged, hmode]
      refine ⟨hnone, fun text htext => ?_⟩
      obtain ⟨mt, M, hmt, hfresh, hmtt, hM, hsays⟩ := hsome text htext
      refine ⟨mt, M, hmt, hM, hsays, hregisters.registry.symm ▸ (ne_of_not_contains hfresh hR).symm, fun n hr => ?_⟩
      rcases (hregisters.registered_iff n mt).1 hr with ⟨-, e⟩ | ⟨-, hr⟩
      · exact hmtt e
      · exact hfresh (hm.1.orderly.unshared.contains_of_registered hr)
    have hnew : ∀ mt, T.metatable = some mt → ¬m.heap.contains mt = true := by
      intro mt hmt
      cases mode with
      | none =>
        rw [hnone rfl] at hmt
        cases hmt
      | some text =>
        obtain ⟨mt', M, hmt', hfresh, -⟩ := hsome text rfl
        cases hmt.symm.trans hmt'
        exact hfresh
    have hact : m.Act S m' := hregisters.act ⟨hne, hregisters.unused, hregisters.fresh, T, hregisters.table,
      fun hn => absurd hname hn, fun _ => ⟨hentries, hbadged, hnew⟩⟩ fun hn => absurd hname hn
    rw [h]
    refine ⟨⟨hact.managed hm.1, fun s hs => hact.contains (hm.2 s hs)⟩, .single ⟨hm.1, hact⟩, fun s hs => ?_⟩
    cases hs
    exact ⟨(hregisters.registered_iff name t).2 (Or.inl ⟨rfl, rfl⟩), hL m m' (.single ⟨hm.1, hact⟩) hk⟩

/-- The table under a name that is not one of the binding layer, or is one that is there already. -/
theorem acts_metatableNamed (hL : (acts S : Discipline χ σ).Lasts L)
    (hK : ∀ m, L m → name ∉ Registry.reserved ∨ ∃ t, m.Registered name t) :
    (acts S).Keeps L (metatableNamed name : Action χ σ (Ref × Bool)) (fun p m => m.Registered name p.1 ∧ L m) := by
  intro m hm hk
  obtain ⟨R, hR, -⟩ := hm.1.orderly.unshared.registry
  obtain ⟨t, b, m', h, ⟨rfl, hr⟩ | hregisters⟩ := exists_metatableNamed hm.1.orderly.wellFormed hR name
  · rw [h]
    refine ⟨hm, .refl, fun s hs => ?_⟩
    cases hs
    exact ⟨hr, hk⟩
  · have hname : name ∉ Registry.reserved := by
      rcases hK m hk with hname | ⟨s, hs⟩
      · exact hname
      · exact absurd hs (hregisters.unused s)
    have hact : m.Act S m' := hregisters.act ⟨fun e => hname (e ▸ by decide), hregisters.unused, hregisters.fresh, _,
      hregisters.table, fun _ => ⟨endsWrites_blank name, get_blank_ne_true name⟩, fun hn => absurd hn hname⟩ fun _ => rfl
    rw [h]
    refine ⟨⟨hact.managed hm.1, fun s hs => hact.contains (hm.2 s hs)⟩, .single ⟨hm.1, hact⟩, fun s hs => ?_⟩
    cases hs
    exact ⟨(hregisters.registered_iff name t).2 (Or.inl ⟨rfl, rfl⟩), hL m m' (.single ⟨hm.1, hact⟩) hk⟩

/-! ## Handles -/

/-- The handle of an address, made if none is listed. It is listed after that. -/
theorem acts_ensureHandle (hL : (acts S : Discipline χ σ).Lasts L) {a : Address} (ha : S.lists a) :
    (acts S).Keeps L (ensureHandle a : Action χ σ Ref) (fun r m => m.Lists a r ∧ L m) := by
  refine (acts_registryTable hL (by decide) (by decide) Registry.modeOf_pointers).bind fun p => ?_
  have hquery : (acts S).Keeps (fun m => m.Registered Registry.pointers p ∧ L m)
      (query (fun m => m.rawGet p (.address a)) : Action χ σ Value)
      (fun found m => (m.Registered Registry.pointers p ∧ L m) ∧ m.rawGet p (.address a) = .ok found) :=
    keeps_query fun m found _ hk h => ⟨hk, h⟩
  refine hquery.bind fun found => ?_
  split
  · refine keeps_pure fun m hm h => ⟨?_, h.1.2⟩
    obtain ⟨-, T, hT⟩ := hm.1.orderly.unshared.registered _ p h.1.1
    rw [Machine.rawGet_of_table hT] at h
    exact ⟨p, T, h.1.1, hT, Table.find?_of_get (Except.ok.inj h.2) (by simp)⟩
  · rename_i hnot
    intro m hm ⟨⟨hp, hk⟩, hget⟩
    obtain ⟨-, T, hT⟩ := hm.1.orderly.unshared.registered _ p hp
    rw [Machine.rawGet_of_table hT] at hget
    have hnone : T.find? (.address a) = none := by
      cases hfind : T.find? (.address a) with
      | none => rfl
      | some v =>
        obtain ⟨r, rfl, -⟩ := hm.1.find?_pointers hp hT hfind
        rw [Table.get, hfind] at hget
        cases hget
        exact absurd rfl (hnot r)
    have hlist : (edits False).Keeps (OpenAll False [p]) (_ : Action χ σ Ref) (fun _ => OpenAll False [p]) :=
      keeps_listHandle (List.mem_singleton.2 rfl) a
    have hopen : m.OpenAll False [p] :=
      openAll_cons.2 ⟨hm.1.orderly.unshared.open_of_reserved (by decide) hp, openAll_nil⟩
    have hedits := (hlist m hm.1.orderly.unshared hopen).2.1
    obtain ⟨r, e, m', h, henlists⟩ := exists_listHandle hm.1.orderly.wellFormed hT a
    rw [h] at hedits
    have hact := henlists.act hm.1 hp hnone ha hedits
    show (acts S).Inv (_ : Except Fault Ref × Machine χ σ).2 ∧ _
    rw [h]
    refine ⟨⟨hact.managed hm.1, fun s hs => hact.contains (hm.2 s hs)⟩, .single ⟨hm.1, hact⟩, fun s hs => ?_⟩
    cases hs
    refine ⟨⟨p, _, hact.registered hm.1.orderly hp, henlists.listed, ?_⟩, hL m m' (.single ⟨hm.1, hact⟩) hk⟩
    rw [Table.find?_set, if_pos rfl]
    rfl

/-- Either no handle is listed for an address, and unregistering it does nothing; or the one that is listed is forgotten. -/
theorem unregister_cases {strict : Prop} {m : Machine χ σ} (hm : m.Managed strict) (a : Address) :
    unregister a m = (.ok (), m) ∧ (∀ r, ¬m.Lists a r) ∨ ∃ p r T u m', unregister a m = (.ok (), m') ∧
      m.Registered Registry.pointers p ∧ T.find? (.address a) = some (.userdata r) ∧ m.Forgets m' p r T u a := by
  rw [unregister, bind_of_ok (look_eq m)]
  cases hp : Registry.find? m Registry.pointers with
  | none =>
    refine Or.inl ⟨rfl, ?_⟩
    rintro r ⟨p, T, hr, -⟩
    rw [hm.orderly.find?_eq_some_iff.2 hr] at hp
    cases hp
  | some p =>
    have hregistered := hm.orderly.find?_eq_some_iff.1 hp
    obtain ⟨-, T, hT⟩ := hm.orderly.unshared.registered _ p hregistered
    simp only
    rw [bind_of_ok (query_of_ok (Machine.rawGet_of_table hT a))]
    by_cases hlisted : ∃ r, T.find? (.address a) = some (.userdata r)
    · obtain ⟨r, hfind⟩ := hlisted
      obtain ⟨s, hs, u, hu, hpay, -⟩ := hm.find?_pointers hregistered hT hfind
      cases hs
      obtain ⟨m', h, hforgets⟩ := exists_forgetHandle hm.orderly.wellFormed hT hu hpay
      refine Or.inr ⟨p, r, T, u, m', ?_, hregistered, hfind, hforgets⟩
      simp only [Table.get, hfind, Option.getD_some, h]
    · refine Or.inl ⟨?_, ?_⟩
      · cases hv : T.get (.address a) with
        | userdata r => exact absurd ⟨r, Table.find?_of_get hv (by simp)⟩ hlisted
        | _ => rfl
      · rintro r ⟨q, Q, hq, hQ, hfind⟩
        obtain rfl := hq.eq hregistered
        cases hT.symm.trans hQ
        exact hlisted ⟨r, hfind⟩

/-- The handle of an address is forgotten, if one is listed. -/
theorem act_unregister {m : Machine χ σ} (hm : m.Managed S.strict) {a : Address} (ha : S.forgets a) :
    m.Act S (unregister a m).2 := by
  have hkeeps : (edits False).Keeps (fun _ => True) (unregister a : Action χ σ Unit) (fun _ _ => True) := keeps_unregister a
  have hedits := (hkeeps m hm.orderly.unshared trivial).2.1
  rcases unregister_cases hm a with ⟨h, -⟩ | ⟨p, r, T, u, m', h, hp, hfind, hforgets⟩
  · rw [h]
    exact act_refl m
  · rw [h] at hedits ⊢
    exact hforgets.act hm hp hfind ha hedits

/-- The handle of an address as an object of a class. The name is one of the binding layer only where it is not strict, and there
is such a table. The handle is listed after that, unless the address may be forgotten. -/
theorem acts_wrap {a : Address} (ha : S.lists a)
    (hK : ∀ m, K m → name ∉ Registry.reserved ∨ ¬S.strict ∧ (name = Registry.pointers ∨ ∃ t, m.Registered name t)) :
    (acts S).Keeps K (wrap a name : Action χ σ Value)
      (fun v m => a ≠ Address.null → ¬S.forgets a → ∃ r, v = .userdata r ∧ m.Lists a r) := by
  unfold wrap
  split
  · rename_i hnull
    exact keeps_pure fun _ _ _ h => absurd hnull h
  let L : Machine χ σ → Prop := fun m =>
    name ∉ Registry.reserved ∨ ¬S.strict ∧ (name = Registry.pointers ∨ ∃ t, m.Registered name t)
  have hL : (acts S : Discipline χ σ).Lasts L := lasts_of_act fun m m' hm hact h =>
    h.imp_right fun h => ⟨h.1, h.2.imp_right fun ⟨t, ht⟩ => ⟨t, hact.registered hm.orderly ht⟩⟩
  refine ((acts_ensureHandle hL ha).weaken (fun m hk => hK m hk) fun _ _ h => h).bind fun handle => ?_
  -- by now there is a pointer table, and it lists the handle
  let M : Machine χ σ → Prop := fun m =>
    (∃ p, m.Registered Registry.pointers p) ∧ (a ≠ Address.null → ¬S.forgets a → m.Lists a handle)
  have hM : (acts S : Discipline χ σ).Lasts M := lasts_of_act fun m m' hm hact ⟨⟨p, hp⟩, hlists⟩ =>
    ⟨⟨p, hact.registered hm.orderly hp⟩, fun hnull hf => hact.lists_of_unforgotten hm hnull hf (hlists hnull hf)⟩
  have hnamed : (acts S).Keeps (fun m : Machine χ σ => M m ∧ L m) (metatableNamed name : Action χ σ (Ref × Bool))
      (fun p m => m.Registered name p.1 ∧ M m ∧ L m) := by
    refine acts_metatableNamed (lasts_and hM hL) fun m hk => hk.2.imp_right ?_
    rintro ⟨-, rfl | h⟩
    · exact hk.1.1
    · exact h
  refine (hnamed.weaken (fun m ⟨⟨p, T, hp, hfind⟩, hl⟩ => ⟨⟨⟨p, hp⟩, fun _ _ => ⟨p, T, hp, hfind⟩⟩, hl⟩)
    fun _ _ h => h).bind fun found => ?_
  refine Keeps.bind (Q := fun _ => M) ?_ fun _ => keeps_pure fun _ _ h hnull hf => ⟨handle, rfl, h.2 hnull hf⟩
  refine (acts_requireTable (some found.1)).bind fun _ => ?_
  have hact : ∀ m : Machine χ σ, m.Managed S.strict →
      (m.Registered name found.1 ∧ M m ∧ L m) ∧ (∀ t, some found.1 = some t → ∃ T, m.heap.object? t = some (.table T)) →
      m.Act S (Action.onHeap (fun h => h.changeUserdata handle (fun u => { u with metatable := some found.1 })) m).2 := by
    rintro m hm ⟨⟨hr, -, hname⟩, -⟩
    exact hm.act_changeUserdata (fun u e he => Or.inl he) fun u m' _ =>
      .dressed hr (fun hstrict => hname.resolve_right fun h => h.1 hstrict) ⟨a, ha⟩
  exact acts_single hact fun m _ hm hk _ => hM m _ (.single ⟨hm.1, hact m hm.1 hk⟩) hk.1.2.1

/-! ## Enumerations, cells and texts -/

theorem acts_fillEnumeration (hL : (acts S : Discipline χ σ).Lasts L) (ht : ∀ m, L m → m.Loose S t)
    (members : List (String × Int64)) :
    (acts S).Keeps L (EnumDescriptor.fill t members : Action χ σ Unit) (fun _ => L) := by
  induction members with
  | nil => exact keeps_pure fun _ _ h => h
  | cons e rest ih => exact (acts_setField hL ht _ _).bind fun _ => (acts_setAt hL ht _ _).bind fun _ => ih

/-- The enumerations get a table. -/
theorem acts_enumerate (all t : Ref) (name : String) :
    (acts S).Keeps (fun m => m.Loose S t ∧ m.Registered Registry.enumerations all)
      (setField all name (.table t) : Action χ σ Unit) (fun _ _ => True) := by
  refine acts_single (fun m hm hk => ?_) fun _ _ _ _ _ => trivial
  obtain ⟨⟨⟨E, hE⟩, hs, -⟩, hall⟩ := hk
  refine hm.act_own (by decide) hall fun T m' _ hw => ?_
  have hne : t ≠ all := by
    rintro rfl
    exact hs (.of_registered hall)
  exact .enumeration _ ((hw.other hne).trans hE)

theorem acts_defineAll (enums : List EnumDescriptor) :
    (acts S).Keeps K (EnumDescriptor.defineAll enums : Action χ σ Unit) (fun _ _ => True) := by
  have hdefine : ∀ d : EnumDescriptor, (acts S).Keeps (fun _ => True) (d.define : Action χ σ Unit) (fun _ _ => True) := by
    intro d
    refine (acts_registryTable (fun _ _ _ h => h) (by decide) (by decide) Registry.modeOf_enumerations).bind fun all => ?_
    have hall := lasts_registered (χ := χ) (σ := σ) (S := S) Registry.enumerations all
    have hnew := (acts_newTable hall).weaken (L := fun m => m.Registered Registry.enumerations all ∧ True) (fun _ h => h.1)
      fun _ _ h => h
    refine hnew.bind fun t => ?_
    have hL : (acts S : Discipline χ σ).Lasts (fun m => m.Loose S t ∧ m.Registered Registry.enumerations all) :=
      lasts_and (lasts_of_act fun _ _ hm hact h => hact.loose hm h) hall
    exact (acts_fillEnumeration hL (fun _ h => h.1) d.members).bind fun _ => acts_enumerate all t d.name
  induction enums generalizing K with
  | nil => exact keeps_pure fun _ _ _ => trivial
  | cons d rest ih => exact ((hdefine d).weaken (fun _ _ => trivial) fun _ _ h => h).bind fun _ => ih

theorem acts_nextPlace (hL : (acts S : Discipline χ σ).Lasts L) (hS : S.stages) :
    (acts S).Keeps L (Cell.nextPlace : Action χ σ Int64) (fun _ => L) := by
  refine (acts_still fun _ => rfl).bind fun counter => ?_
  exact (acts_lasting hL fun m hm _ => hm.act_counted _ hS).bind fun _ => keeps_pure fun _ _ h => h

theorem acts_stage (hS : S.stages) {p : Payload} (hp : ∀ a, p ≠ .handle a) :
    (acts S).Keeps K (Cell.stage p : Action χ σ Ref) (fun _ _ => True) := by
  have htrue : (acts S : Discipline χ σ).Lasts (fun _ => True) := fun _ _ _ h => h
  have htable := acts_registryTable (χ := χ) (σ := σ) htrue (by decide) (by decide) Registry.modeOf_cells
  refine (htable.weaken (fun _ _ => trivial) fun _ _ h => h.1).bind fun cells => ?_
  have hcells := lasts_registered (χ := χ) (σ := σ) (S := S) Registry.cells cells
  refine (acts_newUserdata hcells hp).bind fun cell => (acts_nextPlace hcells hS).bind fun place => ?_
  refine Keeps.bind (Q := fun _ _ => True) ?_ fun _ => keeps_pure fun _ _ _ => trivial
  exact acts_single (fun m hm hk => hm.act_own (by decide) hk fun _ _ _ _ => .cell place cell hS) fun _ _ _ _ _ => trivial

theorem acts_stageArguments (hS : S.stages) (v : Value) :
    (acts S).Keeps K (Arguments.ofValue v : Action χ σ StagedArguments) (fun _ _ => True) := by
  unfold Arguments.ofValue
  split
  · exact (acts_still fun _ => rfl).bind fun _ => (acts_stage hS (by simp)).bind fun _ => keeps_pure fun _ _ h => h
  · exact keeps_fail _

theorem acts_stageInteger (hS : S.stages) (v : Value) :
    (acts S).Keeps K (Arguments.stageInteger v : Action χ σ StagedInteger) (fun _ _ => True) :=
  (acts_stage hS (by simp)).bind fun _ => keeps_pure fun _ _ h => h

theorem acts_newTexts (texts : List String) :
    (acts S).Keeps K (Arguments.toTable texts : Action χ σ Ref) (fun _ _ => True) := by
  have hfill : ∀ t n, (acts S).Keeps (fun m : Machine χ σ => m.Loose S t) (Arguments.fill t n texts : Action χ σ Unit)
      (fun _ m => m.Loose S t) := by
    intro t n
    have hL : (acts S : Discipline χ σ).Lasts (fun m => m.Loose S t) := lasts_of_act fun _ _ hm hact h => hact.loose hm h
    induction texts generalizing n with
    | nil => exact keeps_pure fun _ _ h => h
    | cons s rest ih => exact (acts_setAt hL (fun _ h => h) _ _).bind fun _ => ih _
  have hnew : (acts S).Keeps K (newTable : Action χ σ Ref) (fun t m => m.Loose S t) :=
    (acts_newTable (L := fun _ => True) fun _ _ _ h => h).weaken (fun _ _ => trivial) fun _ _ h => h.1
  exact hnew.bind fun t => (hfill t 0).bind fun _ => keeps_pure fun _ _ _ => trivial

/-! ## Classes -/

theorem acts_installMethods (hL : (acts S : Discipline χ σ).Lasts L) {cls : Ref} (ht : ∀ m, L m → m.ClassTable cls) (name : String)
    (methods : List (String × χ)) :
    (acts S).Keeps L (ClassDescriptor.installMethods cls name methods : Action χ σ _) (fun _ => L) := by
  induction methods with
  | nil => exact keeps_pure fun _ _ h => h
  | cons e rest ih =>
    refine (acts_newFunction hL _ _ _).bind fun f => (acts_setClassField hL ht _ (by simp) (by simp)).bind fun _ => ?_
    exact ih.bind fun _ => keeps_pure fun _ _ h => h

theorem acts_publish (t : Ref) (methods : List (String × Ref)) :
    (acts S).Keeps (fun m => m.Loose S t) (ClassDescriptor.publish t methods : Action χ σ Unit) (fun _ m => m.Loose S t) := by
  have hL : (acts S : Discipline χ σ).Lasts (fun m => m.Loose S t) := lasts_of_act fun _ _ hm hact h => hact.loose hm h
  induction methods with
  | nil => exact keeps_pure fun _ _ h => h
  | cons e rest ih => exact (acts_setField hL (fun _ h => h) _ _).bind fun _ => ih

/-- One class, under a name that is not one of the binding layer. -/
theorem acts_install (d : ClassDescriptor χ) (hname : d.name ∉ Registry.reserved) :
    (acts S).Keeps K (d.install : Action χ σ Unit) (fun _ _ => True) := by
  have htrue : (acts S : Discipline χ σ).Lasts (fun _ => True) := fun _ _ _ h => h
  refine ((acts_metatableNamed htrue fun _ _ => Or.inl hname).weaken (fun _ _ => trivial) fun _ _ h => h.1).bind fun found => ?_
  have hL := lasts_registered (χ := χ) (σ := σ) (S := S) d.name found.1
  have ht : ∀ m : Machine χ σ, m.Registered d.name found.1 → m.ClassTable found.1 := fun m h => ⟨d.name, hname, h⟩
  have hfunction : ∀ (name : String) (f : Ref), (acts S).Keeps (fun m => m.Registered d.name found.1)
      (setField found.1 name (.function f) : Action χ σ Unit) (fun _ m => m.Registered d.name found.1) := fun name f =>
    acts_setClassField hL ht name (by simp) fun e => nomatch e
  refine (acts_installMethods hL ht _ _).bind fun methods =>
    (acts_setClassField hL ht _ (by simp) fun _ _ h => h).bind fun _ => ?_
  refine (acts_still fun _ => rfl).bind fun bases => (acts_newFunction hL _ _ _).bind fun reader => ?_
  refine (acts_newFunction hL _ _ _).bind fun writer => (acts_newFunction hL _ _ _).bind fun finalizer => ?_
  refine (hfunction _ reader).bind fun _ => (hfunction _ writer).bind fun _ => (hfunction _ finalizer).bind fun _ => ?_
  refine (acts_setClassMetatable hL ht _).bind fun _ => ?_
  refine ((acts_newTable hL).weaken (fun _ h => h) fun _ _ h => h.1).bind fun space => (acts_publish space _).bind fun _ => ?_
  exact (acts_setGlobal htrue _ _).weaken (fun _ _ => trivial) fun _ _ h => h

theorem acts_installAll (classes : List (ClassDescriptor χ)) :
    (acts S).Keeps K (ClassDescriptor.installAll classes : Action χ σ Unit) (fun _ _ => True) := by
  have heach : (∀ d ∈ classes, d.name ∉ Registry.reserved) →
      (acts S).Keeps (fun _ => True) (ClassDescriptor.installEach classes : Action χ σ Unit) (fun _ _ => True) := by
    intro hnames
    induction classes with
    | nil => exact keeps_pure fun _ _ h => h
    | cons d rest ih =>
      exact (acts_install d (hnames d (by simp))).bind fun _ => ih fun d' hd' => hnames d' (List.mem_cons_of_mem _ hd')
  have hcheck : (acts S).Keeps K (query fun m => m.checkClasses [] classes : Action χ σ Unit)
      (fun _ _ => ∀ d ∈ classes, d.name ∉ Registry.reserved) :=
    keeps_query fun _ _ _ _ h => not_reserved_of_checkClasses h
  exact hcheck.bind fun _ m hm hnames => heach hnames m hm trivial

end Action

end ScriptHost

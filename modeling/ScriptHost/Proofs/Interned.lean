import ScriptHost.Proofs.Writes

/-!
# One handle for an address

The pointer table lists the handle of each address that no collection has taken up (`Machine.Interned`). For that to last, native
code has to leave the tables of the binding layer alone (`Machine.Guarded`): the registry, the tables in it, and the metatable
that makes the pointer table weak. Any other table is plain, and what is done to plain tables and to userdata that are no
handles is tame (`Machine.Tame`).
-/

namespace ScriptHost

variable {χ σ : Type}

/-- What the table has under `__newindex` leads a write to no other table: it is neither a table nor a userdata. -/
def Table.EndsWrites (t : Table) : Prop :=
  ∀ r, t.field Registry.writeName ≠ .table r ∧ t.field Registry.writeName ≠ .userdata r

namespace Machine

/-- The registry has the table under the name. -/
def Registered (m : Machine χ σ) (name : String) (t : Ref) : Prop :=
  ∃ R, m.heap.object? m.registry = some (.table R) ∧ R.field name = .table t

/-- A table of the binding layer: the registry, a table in it, or the metatable of the pointer table. -/
def Guarded (m : Machine χ σ) (t : Ref) : Prop :=
  t = m.registry ∨ (∃ name, m.Registered name t) ∨
    ∃ p T, m.Registered Registry.pointers p ∧ m.heap.object? p = some (.table T) ∧ T.metatable = some t

/-- A table that is no table of the binding layer. -/
def Plain (m : Machine χ σ) (t : Ref) : Prop := (∃ T, m.heap.object? t = some (.table T)) ∧ ¬m.Guarded t

/-- A handle for the address, flagged or not. -/
def IsHandle (m : Machine χ σ) (r : Ref) (a : Address) (finalized : Bool) : Prop :=
  ∃ u, m.heap.object? r = some (.userdata u) ∧ u.payload = .handle a ∧ u.finalized = finalized

/-- The pointer table lists the handles that no collection has taken up, and every such handle for an address other than null.
The tables this rests on are where they belong, and no chain of writes and no environment leads to one of them. -/
structure Interned (m : Machine χ σ) : Prop where
  wellFormed : m.heap.WellFormed
  registry : ∃ R, m.heap.object? m.registry = some (.table R) ∧ R.metatable = none
  globals : m.Plain m.globals
  registered : ∀ name t, m.Registered name t →
    t ≠ m.registry ∧ ∃ T, m.heap.object? t = some (.table T) ∧ T.EndsWrites
  pointers : ∀ p, m.Registered Registry.pointers p → (∀ name, m.Registered name p → name = Registry.pointers) ∧
    ∃ T mt M, m.heap.object? p = some (.table T) ∧ T.metatable = some mt ∧ m.heap.object? mt = some (.table M) ∧
      M.field "__mode" = .string "v" ∧ mt ≠ m.registry ∧ (∀ name, ¬m.Registered name mt) ∧
      ∀ e ∈ T.entries, ∃ a r, e = (.address a, .userdata r) ∧ m.IsHandle r a false
  listed : ∀ r a, m.IsHandle r a false → a ≠ Address.null → ∃ p T, m.Registered Registry.pointers p ∧
    m.heap.object? p = some (.table T) ∧ T.find? (.address a) = some (.userdata r)
  environment : ∀ r u e, m.heap.object? r = some (.userdata u) → u.environment = some e → m.Plain e
  classOf : ∀ r u a mt, m.heap.object? r = some (.userdata u) → u.payload = .handle a → u.metatable = some mt →
    ∃ name, m.Registered name mt

variable {m m' : Machine χ σ}

theorem registered_iff {R : Table} (hR : m.heap.object? m.registry = some (.table R)) {name : String} {t : Ref} :
    m.Registered name t ↔ R.field name = .table t := by
  unfold Registered
  simp [hR]

/-- The table under a name is the one that is found. -/
theorem find?_eq_some_iff {R : Table} (hR : m.heap.object? m.registry = some (.table R)) {name : String} {t : Ref} :
    Registry.find? m name = some t ↔ m.Registered name t := by
  rw [Registry.find?, registryField_of_table hR, registered_iff hR]
  cases R.field name with
  | table s => simp [Value.table?]
  | _ => simp [Value.table?]

theorem Registered.eq {name : String} {t t' : Ref} (h : m.Registered name t) (h' : m.Registered name t') : t = t' := by
  obtain ⟨R, hR, ht⟩ := h
  rw [registered_iff hR, ht] at h'
  exact Value.table.inj h'

/-- The names depend on the object that the registry is, and on nothing else. -/
theorem registered_congr (h : m'.heap.object? m'.registry = m.heap.object? m.registry) (name : String) (t : Ref) :
    m'.Registered name t ↔ m.Registered name t := by
  unfold Registered
  rw [h]

/-- The guarded tables depend on the names, and on the metatable of the pointer table. -/
theorem Interned.guarded_congr (hm : m.Interned) (hregistry : m'.registry = m.registry)
    (hnames : ∀ name t, m'.Registered name t ↔ m.Registered name t)
    (hpointers : ∀ p T, m.Registered Registry.pointers p → m.heap.object? p = some (.table T) →
      ∃ T', m'.heap.object? p = some (.table T') ∧ T'.metatable = T.metatable) (t : Ref) :
    m'.Guarded t ↔ m.Guarded t := by
  unfold Guarded
  simp only [hregistry, hnames]
  refine or_congr_right (or_congr_right ?_)
  constructor
  · rintro ⟨p, T', hp, hT', hmt⟩
    obtain ⟨-, T, mt, M, hT, -⟩ := hm.pointers p hp
    obtain ⟨T₀, hT₀, hsame⟩ := hpointers p T hp hT
    rw [hT'] at hT₀
    cases hT₀
    exact ⟨p, T, hp, hT, hsame ▸ hmt⟩
  · rintro ⟨p, T, hp, hT, hmt⟩
    obtain ⟨T', hT', hsame⟩ := hpointers p T hp hT
    exact ⟨p, T', hp, hT', hsame.trans hmt⟩

/-- The tables of the binding layer are there. -/
theorem Interned.contains_of_guarded (hm : m.Interned) {t : Ref} (ht : m.Guarded t) : m.heap.contains t = true := by
  rcases ht with rfl | ⟨name, h⟩ | ⟨p, T, hp, hT, hmt⟩
  · obtain ⟨R, hR, -⟩ := hm.registry
    exact Heap.contains_of_object? hR
  · obtain ⟨-, T, hT, -⟩ := hm.registered name t h
    exact Heap.contains_of_object? hT
  · obtain ⟨-, T₀, mt, M, hT₀, hmt₀, hM, -⟩ := hm.pointers p hp
    rw [hT] at hT₀
    cases hT₀
    rw [hmt] at hmt₀
    cases hmt₀
    exact Heap.contains_of_object? hM

/-- A handle for an address stands for that address only. -/
theorem IsHandle.eq {r : Ref} {a b : Address} {f g : Bool} (h : m.IsHandle r a f) (h' : m.IsHandle r b g) :
    a = b ∧ f = g := by
  obtain ⟨u, hu, ha, hf⟩ := h
  obtain ⟨u', hu', hb, hg⟩ := h'
  rw [hu] at hu'
  cases hu'
  rw [ha] at hb
  cases hb
  exact ⟨rfl, hf.symm.trans hg⟩

/-- The new machine: nothing is registered, and there are no userdata. -/
theorem interned_start (limits : Limits) (host : σ) : (start limits host : Machine χ σ).Interned := by
  have hregistry : (start limits host : Machine χ σ).heap.object? ⟨0, 0⟩ = some (.table .empty) := rfl
  have hglobals : (start limits host : Machine χ σ).heap.object? ⟨1, 0⟩ = some (.table .empty) := rfl
  have hnone : ∀ name t, ¬(start limits host : Machine χ σ).Registered name t := by
    rintro name t ⟨R, hR, ht⟩
    cases hregistry.symm.trans hR
    cases ht
  have huserdata : ∀ r u, (start limits host : Machine χ σ).heap.object? r ≠ some (.userdata u) :=
    fun r u hu => nomatch eq_empty_of_start hu
  refine ⟨wellFormed_start limits host, ⟨_, hregistry, rfl⟩, ⟨⟨_, hglobals⟩, ?_⟩, ?_, ?_, ?_, ?_, ?_⟩
  · rintro (h | ⟨name, h⟩ | ⟨p, T, h, -⟩)
    · exact Nat.one_ne_zero (congrArg Ref.slot h)
    · exact hnone _ _ h
    · exact hnone _ _ h
  · exact fun name t h => (hnone _ _ h).elim
  · exact fun p h => (hnone _ _ h).elim
  · exact fun r a ⟨u, hu, _⟩ => (huserdata _ _ hu).elim
  · exact fun r u e hu => (huserdata _ _ hu).elim
  · exact fun r u a mt hu => (huserdata _ _ hu).elim

/-! ## Tame changes -/

/-- A change that leaves handles to the same addresses and the tables of the binding layer alone, except that it may write class
tables, and the metatables of handles among them. -/
structure Tame (m m' : Machine χ σ) : Prop where
  wellFormed : m'.heap.WellFormed
  registry : m'.registry = m.registry
  globals : m'.globals = m.globals
  tables : ∀ t T, m.heap.object? t = some (.table T) → ∃ T', m'.heap.object? t = some (.table T') ∧
    (m.Guarded t → T' = T ∨ T'.EndsWrites ∧ ∃ name, name ≠ Registry.pointers ∧ m.Registered name t)
  handles : ∀ r a f, m.IsHandle r a f → m'.IsHandle r a f
  userdata : ∀ r u', m'.heap.object? r = some (.userdata u') →
    (∀ e, u'.environment = some e → m.Plain e ∨ ∃ u, m.heap.object? r = some (.userdata u) ∧ u.environment = some e) ∧
    ∀ a, u'.payload = .handle a → m.IsHandle r a u'.finalized ∧ ∀ mt, u'.metatable = some mt →
      (∃ name, m.Registered name mt) ∨ ∃ u, m.heap.object? r = some (.userdata u) ∧ u.metatable = some mt

/-- What native code can rely on from one machine to a later one: names stay with their tables, and plain tables stay plain. -/
structure Evolves (m m' : Machine χ σ) : Prop where
  registry : m'.registry = m.registry
  globals : m'.globals = m.globals
  registered : ∀ name t, m.Registered name t → m'.Registered name t
  plain : ∀ t, m.Plain t → m'.Plain t

theorem Evolves.refl (m : Machine χ σ) : m.Evolves m := ⟨rfl, rfl, fun _ _ h => h, fun _ h => h⟩

theorem Evolves.trans {m'' : Machine χ σ} (h : m.Evolves m') (h' : m'.Evolves m'') : m.Evolves m'' :=
  ⟨h'.registry.trans h.registry, h'.globals.trans h.globals, fun _ _ hr => h'.registered _ _ (h.registered _ _ hr),
    fun _ hp => h'.plain _ (h.plain _ hp)⟩

/-- The tables that the listing rests on are what they were. -/
theorem Tame.object?_eq (h : m.Tame m') {t : Ref} {T : Table} (ht : m.heap.object? t = some (.table T))
    (hg : m.Guarded t) (hclass : ∀ name, name ≠ Registry.pointers → ¬m.Registered name t) :
    m'.heap.object? t = some (.table T) := by
  obtain ⟨T', ht', hT'⟩ := h.tables t T ht
  rcases hT' hg with rfl | ⟨-, name, hname, hr⟩
  · exact ht'
  · exact absurd hr (hclass name hname)

theorem Tame.registered_iff (h : m.Tame m') (hm : m.Interned) (name : String) (t : Ref) :
    m'.Registered name t ↔ m.Registered name t := by
  obtain ⟨R, hR, -⟩ := hm.registry
  refine registered_congr ?_ name t
  rw [h.registry, hR]
  exact h.object?_eq hR (Or.inl rfl) fun name _ hr => (hm.registered name _ hr).1 rfl

/-- The pointer table is what it was. -/
theorem Tame.pointers_eq (h : m.Tame m') (hm : m.Interned) {p : Ref} {T : Table} (hp : m.Registered Registry.pointers p)
    (hT : m.heap.object? p = some (.table T)) : m'.heap.object? p = some (.table T) :=
  h.object?_eq hT (Or.inr (Or.inl ⟨_, hp⟩)) fun name hname hr => hname ((hm.pointers p hp).1 name hr)

theorem Tame.guarded_iff (h : m.Tame m') (hm : m.Interned) (t : Ref) : m'.Guarded t ↔ m.Guarded t :=
  hm.guarded_congr h.registry (h.registered_iff hm) (fun _ T hp hT => ⟨T, h.pointers_eq hm hp hT, rfl⟩) t

theorem Tame.plain (h : m.Tame m') (hm : m.Interned) {t : Ref} (ht : m.Plain t) : m'.Plain t := by
  obtain ⟨⟨T, hT⟩, hg⟩ := ht
  obtain ⟨T', hT', -⟩ := h.tables t T hT
  exact ⟨⟨T', hT'⟩, mt (h.guarded_iff hm t).1 hg⟩

theorem Tame.evolves (h : m.Tame m') (hm : m.Interned) : m.Evolves m' :=
  ⟨h.registry, h.globals, fun name t hr => (h.registered_iff hm name t).2 hr, fun _ ht => h.plain hm ht⟩

/-- Tame changes keep the listing. -/
theorem Tame.interned (h : m.Tame m') (hm : m.Interned) : m'.Interned where
  wellFormed := h.wellFormed
  registry := by
    obtain ⟨R, hR, hmt⟩ := hm.registry
    refine ⟨R, ?_, hmt⟩
    rw [h.registry]
    exact h.object?_eq hR (Or.inl rfl) fun name _ hr => (hm.registered name _ hr).1 rfl
  globals := by
    rw [h.globals]
    exact h.plain hm hm.globals
  registered name t hr := by
    have hr' := (h.registered_iff hm name t).1 hr
    obtain ⟨hne, T, hT, hends⟩ := hm.registered name t hr'
    obtain ⟨T', hT', hsame⟩ := h.tables t T hT
    rw [h.registry]
    rcases hsame (Or.inr (Or.inl ⟨name, hr'⟩)) with rfl | ⟨hends', -⟩
    · exact ⟨hne, T', hT', hends⟩
    · exact ⟨hne, T', hT', hends'⟩
  pointers p hp := by
    have hp' := (h.registered_iff hm _ _).1 hp
    obtain ⟨hname, T, mt, M, hT, hmt, hM, hmode, hne, hnot, hentries⟩ := hm.pointers p hp'
    simp only [h.registry, h.registered_iff hm]
    refine ⟨hname, T, mt, M, h.pointers_eq hm hp' hT, hmt, ?_, hmode, hne, hnot, ?_⟩
    · exact h.object?_eq hM (Or.inr (Or.inr ⟨p, T, hp', hT, hmt⟩)) fun name _ hr => hnot name hr
    · intro e he
      obtain ⟨a, r, rfl, hr⟩ := hentries e he
      exact ⟨a, r, rfl, h.handles r a false hr⟩
  listed r a hr ha := by
    obtain ⟨u', hu', hpay, hfin⟩ := hr
    have hold := ((h.userdata r u' hu').2 a hpay).1
    rw [hfin] at hold
    obtain ⟨p, T, hp, hT, hfind⟩ := hm.listed r a hold ha
    exact ⟨p, T, (h.registered_iff hm _ _).2 hp, h.pointers_eq hm hp hT, hfind⟩
  environment r u' e hu' he := by
    rcases (h.userdata r u' hu').1 e he with hplain | ⟨u, hu, he'⟩
    · exact h.plain hm hplain
    · exact h.plain hm (hm.environment r u e hu he')
  classOf r u' a mt hu' hpay hmt := by
    obtain ⟨⟨u, hu, hpay', -⟩, hclass⟩ := (h.userdata r u' hu').2 a hpay
    rcases hclass mt hmt with ⟨name, hr⟩ | ⟨u₀, hu₀, hmt₀⟩
    · exact ⟨name, (h.registered_iff hm _ _).2 hr⟩
    · rw [hu] at hu₀
      cases hu₀
      obtain ⟨name, hr⟩ := hm.classOf r u a mt hu hpay' hmt₀
      exact ⟨name, (h.registered_iff hm _ _).2 hr⟩

/-! ### Which changes are tame -/

/-- Whatever leaves the heap alone is tame. -/
theorem tame_of_heap_eq (hw : m.heap.WellFormed) (hheap : m'.heap = m.heap) (hregistry : m'.registry = m.registry)
    (hglobals : m'.globals = m.globals) : m.Tame m' where
  wellFormed := hheap ▸ hw
  registry := hregistry
  globals := hglobals
  tables t T hT := ⟨T, by rw [hheap, hT], fun _ => Or.inl rfl⟩
  handles r a f hr := by
    unfold IsHandle
    rw [hheap]
    exact hr
  userdata r u hu := by
    rw [hheap] at hu
    exact ⟨fun e he => Or.inr ⟨u, hu, he⟩, fun a ha => ⟨⟨u, hu, ha, rfl⟩, fun mt hmt => Or.inr ⟨u, hu, hmt⟩⟩⟩

/-- The listing is a matter of the heap. -/
theorem Interned.of_heap_eq (hm : m.Interned) (hheap : m'.heap = m.heap) (hregistry : m'.registry = m.registry)
    (hglobals : m'.globals = m.globals) : m'.Interned :=
  (tame_of_heap_eq hm.wellFormed hheap hregistry hglobals).interned hm

/-- A new table, a new function, or a new userdata that is no handle. -/
theorem Written.tame_new {r : Ref} {o : Object χ} (h : m.Written m' r o) (hr : ¬m.heap.contains r = true)
    (hu : ∀ u, o = .userdata u → u.environment = none ∧ ∀ a, u.payload ≠ .handle a) : m.Tame m' := by
  have hold : ∀ s p, m.heap.object? s = some p → m'.heap.object? s = some p := by
    intro s p hp
    rw [h.other (ne_of_not_contains hr hp), hp]
  refine ⟨h.wellFormed, h.registry, h.globals, ?_, ?_, ?_⟩
  · intro t T hT
    exact ⟨T, hold t _ hT, fun _ => Or.inl rfl⟩
  · rintro s a f ⟨u, hs, hpay, hfin⟩
    exact ⟨u, hold s _ hs, hpay, hfin⟩
  · intro s u hs
    by_cases hsr : s = r
    · subst hsr
      obtain ⟨henv, hpay⟩ := hu u (Option.some.inj (h.self.symm.trans hs))
      refine ⟨?_, ?_⟩
      · intro e he
        rw [henv] at he
        cases he
      · intro a ha
        exact absurd ha (hpay a)
    · rw [h.other hsr] at hs
      exact ⟨fun e he => Or.inr ⟨u, hs, he⟩, fun a ha => ⟨⟨u, hs, ha, rfl⟩, fun mt hmt => Or.inr ⟨u, hs, hmt⟩⟩⟩

/-- Whatever a plain table turns into, and a class table that still ends writes. -/
theorem Written.tame_table {t : Ref} {T T' : Table} (h : m.Written m' t (.table T'))
    (hT : m.heap.object? t = some (.table T))
    (hguard : m.Guarded t → T'.EndsWrites ∧ ∃ name, name ≠ Registry.pointers ∧ m.Registered name t) : m.Tame m' := by
  refine ⟨h.wellFormed, h.registry, h.globals, ?_, ?_, ?_⟩
  · intro s S hS
    by_cases hs : s = t
    · subst hs
      exact ⟨T', h.self, fun hg => Or.inr (hguard hg)⟩
    · exact ⟨S, (h.other hs).trans hS, fun _ => Or.inl rfl⟩
  · rintro r a f ⟨u, hu, hpay, hfin⟩
    exact ⟨u, (h.other (Heap.ne_of_table_of_userdata hT hu).symm).trans hu, hpay, hfin⟩
  · intro r u hu
    rw [h.other (Heap.ne_of_table_of_userdata h.self hu).symm] at hu
    exact ⟨fun e he => Or.inr ⟨u, hu, he⟩, fun a ha => ⟨⟨u, hu, ha, rfl⟩, fun mt hmt => Or.inr ⟨u, hu, hmt⟩⟩⟩

/-- A userdata whose address and flag stay, whose environment stays or becomes a plain table, and whose metatable, if it is a
handle, stays or becomes a class table. -/
theorem Written.tame_userdata {r : Ref} {u u' : Userdata} (h : m.Written m' r (.userdata u'))
    (hu : m.heap.object? r = some (.userdata u)) (hfin : u'.finalized = u.finalized)
    (hpay : ∀ a, u'.payload = .handle a ↔ u.payload = .handle a)
    (henv : ∀ e, u'.environment = some e → u.environment = some e ∨ m.Plain e)
    (hclass : ∀ a mt, u'.payload = .handle a → u'.metatable = some mt →
      u.metatable = some mt ∨ ∃ name, m.Registered name mt) : m.Tame m' := by
  refine ⟨h.wellFormed, h.registry, h.globals, ?_, ?_, ?_⟩
  · intro s S hS
    exact ⟨S, (h.other (Heap.ne_of_table_of_userdata hS hu)).trans hS, fun _ => Or.inl rfl⟩
  · rintro s a f ⟨v, hv, hva, hvf⟩
    by_cases hs : s = r
    · subst hs
      rw [hu] at hv
      cases hv
      exact ⟨u', h.self, (hpay a).2 hva, hfin.trans hvf⟩
    · exact ⟨v, (h.other hs).trans hv, hva, hvf⟩
  · intro s v hv
    by_cases hs : s = r
    · subst hs
      rw [h.self] at hv
      cases hv
      refine ⟨?_, ?_⟩
      · intro e he
        exact (henv e he).symm.imp_right fun he' => ⟨u, hu, he'⟩
      · intro a ha
        refine ⟨⟨u, hu, (hpay a).1 ha, hfin.symm⟩, ?_⟩
        intro mt hmt
        exact (hclass a mt ha hmt).symm.imp_right fun hmt' => ⟨u, hu, hmt'⟩
    · rw [h.other hs] at hv
      exact ⟨fun e he => Or.inr ⟨v, hv, he⟩, fun a ha => ⟨⟨v, hv, ha, rfl⟩, fun mt hmt => Or.inr ⟨v, hv, hmt⟩⟩⟩

end Machine

end ScriptHost

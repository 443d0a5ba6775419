import ScriptHost.Proofs.Sealed

/-!
# Acts

One change of the machine by native code that leaves alone what is sealed, or by the binding layer itself, is an act
(`Machine.Act`). What an act may do is said object by object: what may become of one that is there (`Becomes`), and how a new one
may look (`Born`). From this alone an act keeps the tables of the binding layer, what they hold, and the list of handles
(`Act.managed`). A scope says which addresses may be listed or forgotten, which tables native code spares, and whether cells are
staged, so that something can be said about what a part of a run leaves as it is.
-/

namespace ScriptHost

variable {χ σ : Type}

/-- What may happen in a part of a run. Where it is strict, handles get no tables of the binding layer for classes. -/
structure Scope where
  strict : Prop
  spared : Ref → Prop
  lists : Address → Prop
  forgets : Address → Prop
  stages : Prop

/-- A scope in which nothing is left out. -/
def Scope.wide (strict : Prop) : Scope := ⟨strict, fun _ => False, fun _ => True, fun _ => True, True⟩

namespace Machine

/-! ## What may become of an object -/

/-- A new table is in the registry under a name that had none: that of a class leads no write anywhere and says `true` of nothing,
and one of the binding layer is empty, with a badge that is new. -/
structure Founded (m m' : Machine χ σ) (name : String) (s : Ref) : Prop where
  name_ne : name ≠ Registry.nextCell
  unused : ∀ t, ¬m.Registered name t
  fresh : ¬m.heap.contains s = true
  table : ∃ T, m'.heap.object? s = some (.table T) ∧
    (name ∉ Registry.reserved → T.EndsWrites ∧ ∀ k, T.get k ≠ .boolean true) ∧
    (name ∈ Registry.reserved → T.entries = [] ∧ m'.Badged name T ∧ ∀ mt, T.metatable = some mt → ¬m.heap.contains mt = true)

/-- What a table of the binding layer may get under a key. -/
inductive Suits (S : Scope) (m' : Machine χ σ) (T : Table) : String → Key → Value → Prop where
  | handle {a : Address} {r : Ref} (ha : S.lists a) (hnone : T.find? (.address a) = none) (hr : m'.IsHandle r a false) :
      Suits S m' T Registry.pointers (.address a) (.userdata r)
  | nothing {a : Address} (ha : S.forgets a)
      (hgone : a ≠ Address.null → ∀ r, T.find? (.address a) = some (.userdata r) → ¬m'.IsHandle r a false) :
      Suits S m' T Registry.pointers (.address a) .nil
  | cell (i : Int64) (r : Ref) (hS : S.stages) : Suits S m' T Registry.cells (.integer i) (.userdata r)
  | enumeration {t : Ref} {E : Table} (k : Key) (hE : m'.heap.object? t = some (.table E)) :
      Suits S m' T Registry.enumerations k (.table t)

/-- What may become of the object of a reference. A class may come to say `true` of its own name, and only where handles may be
listed does one get another class. -/
inductive Becomes (S : Scope) (m m' : Machine χ σ) (t : Ref) : Object χ → Object χ → Prop where
  | same (o : Object χ) : Becomes S m m' t o o
  | loose {T T' : Table} (hs : ¬m.Sealed t) (hspared : S.spared t → t = m.globals) : Becomes S m m' t (.table T) (.table T')
  | classed {name : String} {T T' : Table} (hname : name ∉ Registry.reserved) (ht : m.Registered name t)
      (hends : T'.EndsWrites) (hmarks : ∀ k, T'.get k = .boolean true → T.get k = .boolean true ∨ k = .string name) :
      Becomes S m m' t (.table T) (.table T')
  | own {name : String} {T : Table} {k : Key} {v : Value} (hname : name ∈ Registry.reserved) (ht : m.Registered name t)
      (hsuits : m'.Suits S T name k v) : Becomes S m m' t (.table T) (.table (T.set k v))
  | named {name : String} {s : Ref} {R : Table} (ht : t = m.registry) (h : m.Founded m' name s) :
      Becomes S m m' t (.table R) (.table (R.set (.string name) (.table s)))
  | counted {R : Table} (i : Int64) (ht : t = m.registry) (hS : S.stages) :
      Becomes S m m' t (.table R) (.table (R.set (.string Registry.nextCell) (.integer i)))
  | other {u u' : Userdata} (hu : ∀ a, u.payload ≠ .handle a) (hu' : ∀ a, u'.payload ≠ .handle a)
      (henv : ∀ e, u'.environment = some e → u.environment = some e ∨ m.heap.contains e = true ∧ ¬m.Sealed e) :
      Becomes S m m' t (.userdata u) (.userdata u')
  | dressed {u : Userdata} {mt : Ref} {name : String} (hmt : m.Registered name mt)
      (hname : S.strict → name ∉ Registry.reserved) (hlists : ∃ a, S.lists a) :
      Becomes S m m' t (.userdata u) (.userdata { u with metatable := some mt })
  | forgotten {u : Userdata} {a : Address} (ha : S.forgets a) (hu : u.payload = .handle a)
      (hgone : ∀ p T, m'.Registered Registry.pointers p → m'.heap.object? p = some (.table T) →
        ∀ e ∈ T.entries, e.2 ≠ .userdata t) :
      Becomes S m m' t (.userdata u) (.userdata { u with payload := .handle Address.null })

/-- How a new object may look. A new handle is listed, and has a new shadow. -/
inductive Born (S : Scope) (m m' : Machine χ σ) (t : Ref) : Object χ → Prop where
  | table (T : Table) : Born S m m' t (.table T)
  | function (f : NativeFunction χ) : Born S m m' t (.function f)
  | userdata {p : Payload} (hp : ∀ a, p ≠ .handle a) : Born S m m' t (.userdata (.ofPayload p))
  | handle {a : Address} {e : Ref} (ha : S.lists a) (he : ¬m.heap.contains e = true) (hs : ¬m'.Sealed e)
      (hlisted : m'.Lists a t) :
      Born S m m' t (.userdata ⟨.handle a, none, some e, false⟩)

/-- One change by native code that leaves alone what is sealed, or by the binding layer. -/
structure Act (S : Scope) (m m' : Machine χ σ) : Prop where
  edits : Relation.ReflTransGen (Edit False) m m'
  old : ∀ t o, m.heap.object? t = some o → ∃ o', m'.heap.object? t = some o' ∧ m.Becomes S m' t o o'
  new : ∀ t o, m'.heap.object? t = some o → ¬m.heap.contains t = true → m.Born S m' t o

namespace Act

variable {S : Scope} {m m' : Machine χ σ} {t : Ref} {name : String}

/-! ## The registry -/

theorem registry (h : m.Act S m') : m'.registry = m.registry := by
  obtain ⟨hedits, -, -⟩ := h
  induction hedits with
  | refl => rfl
  | tail _ hedit ih => exact hedit.registry.trans ih

theorem globals (h : m.Act S m') : m'.globals = m.globals := by
  obtain ⟨hedits, -, -⟩ := h
  induction hedits with
  | refl => rfl
  | tail _ hedit ih => exact hedit.globals.trans ih

theorem unshared (h : m.Act S m') (hm : m.Unshared False) : m'.Unshared False := by
  obtain ⟨hedits, -, -⟩ := h
  induction hedits with
  | refl => exact hm
  | tail _ hedit ih => exact hedit.unshared ih

/-- What is there stays there. -/
theorem contains (h : m.Act S m') (ht : m.heap.contains t = true) : m'.heap.contains t = true := by
  obtain ⟨o, ho⟩ := Heap.contains_iff.1 ht
  obtain ⟨o', ho', -⟩ := h.old t o ho
  exact Heap.contains_of_object? ho'

/-- A table stays a table. -/
theorem exists_table (h : m.Act S m') {T : Table} (hT : m.heap.object? t = some (.table T)) :
    ∃ T', m'.heap.object? t = some (.table T') := by
  obtain ⟨o', ho', hb⟩ := h.old t _ hT
  cases hb <;> exact ⟨_, ho'⟩

/-- What is found after an act was there, and is what may become of it, or it is new. -/
theorem old_or_new (h : m.Act S m') {o : Object χ} (ho : m'.heap.object? t = some o) :
    (∃ p, m.heap.object? t = some p ∧ m.Becomes S m' t p o) ∨ ¬m.heap.contains t = true ∧ m.Born S m' t o := by
  cases hp : m.heap.object? t with
  | none =>
    have hc : ¬m.heap.contains t = true := by simp [Heap.contains, hp]
    exact Or.inr ⟨hc, h.new t o ho hc⟩
  | some p =>
    obtain ⟨o', ho', hb⟩ := h.old t p hp
    cases ho.symm.trans ho'
    exact Or.inl ⟨p, rfl, hb⟩

/-- What an act may do to the registry: nothing, a new table gets a name, or the cells are counted. -/
theorem registry_cases (h : m.Act S m') (hm : m.Orderly S.strict) {R : Table}
    (hR : m.heap.object? m.registry = some (.table R)) :
    m'.heap.object? m.registry = some (.table R) ∨
      (∃ name s, m.Founded m' name s ∧ m'.heap.object? m.registry = some (.table (R.set (.string name) (.table s)))) ∨
      ∃ i, S.stages ∧ m'.heap.object? m.registry = some (.table (R.set (.string Registry.nextCell) (.integer i))) := by
  obtain ⟨o, ho, hb⟩ := h.old _ _ hR
  cases hb with
  | same => exact Or.inl ho
  | loose hs => exact absurd (Or.inl rfl) hs
  | classed _ ht => exact absurd rfl (hm.unshared.registered _ _ ht).1
  | own _ ht => exact absurd rfl (hm.unshared.registered _ _ ht).1
  | named _ hf => exact Or.inr (Or.inl ⟨_, _, hf, ho⟩)
  | counted i _ hS => exact Or.inr (Or.inr ⟨i, hS, ho⟩)

/-- Names stay with their tables. -/
theorem registered (h : m.Act S m') (hm : m.Orderly S.strict) (ht : m.Registered name t) : m'.Registered name t := by
  obtain ⟨R, hR, hfield⟩ := id ht
  rcases h.registry_cases hm hR with hR' | ⟨n, s, hf, hR'⟩ | ⟨i, -, hR'⟩
  · exact ⟨R, h.registry.symm ▸ hR', hfield⟩
  · refine ⟨_, h.registry.symm ▸ hR', ?_⟩
    rw [Table.field, Table.get_set, if_neg]
    · exact hfield
    · intro e
      cases e
      exact hf.unused t ht
  · refine ⟨_, h.registry.symm ▸ hR', ?_⟩
    rw [Table.field, Table.get_set, if_neg]
    · exact hfield
    · intro e
      cases e
      exact hm.not_registered_nextCell ht

/-- Only a new table gets a name. -/
theorem registered_of (h : m.Act S m') (hm : m.Orderly S.strict) (ht : m'.Registered name t) :
    m.Registered name t ∨ m.Founded m' name t := by
  obtain ⟨R, hR, -⟩ := hm.unshared.registry
  rcases h.registry_cases hm hR with hR' | ⟨n, s, hf, hR'⟩ | ⟨i, -, hR'⟩
  · exact Or.inl ⟨R, hR, (Machine.registered_iff (h.registry.symm ▸ hR')).1 ht⟩
  · rw [Machine.registered_iff (h.registry.symm ▸ hR'), Table.field, Table.get_set] at ht
    split at ht
    · rename_i e
      cases e
      cases ht
      exact Or.inr hf
    · exact Or.inl ⟨R, hR, ht⟩
  · rw [Machine.registered_iff (h.registry.symm ▸ hR'), Table.field, Table.get_set] at ht
    split at ht
    · cases ht
    · exact Or.inl ⟨R, hR, ht⟩

/-- What was there before and has a name had it. -/
theorem registered_of_contains (h : m.Act S m') (hm : m.Orderly S.strict) (hc : m.heap.contains t = true)
    (ht : m'.Registered name t) : m.Registered name t :=
  (h.registered_of hm ht).resolve_right fun hf => hf.fresh hc

/-! ## Sealed tables -/

/-- A table of the binding layer stays what it is, apart from the one entry that suits it. -/
theorem own_cases (h : m.Act S m') (hm : m.Orderly S.strict) (hname : name ∈ Registry.reserved) (ht : m.Registered name t)
    {T : Table} (hT : m.heap.object? t = some (.table T)) :
    m'.heap.object? t = some (.table T) ∨
      ∃ k v, m'.Suits S T name k v ∧ m'.heap.object? t = some (.table (T.set k v)) := by
  obtain ⟨hne, -⟩ := hm.unshared.registered name t ht
  obtain ⟨o, ho, hb⟩ := h.old t _ hT
  cases hb with
  | same => exact Or.inl ho
  | loose hs => exact absurd (Sealed.of_registered ht) hs
  | classed hn ht' => exact absurd (hm.name_eq ht ht' ▸ hname) hn
  | own _ ht' hsuits =>
    obtain rfl := hm.name_eq ht ht'
    exact Or.inr ⟨_, _, hsuits, ho⟩
  | named e => exact absurd e hne
  | counted _ e => exact absurd e hne

/-- Its badge is what it was. -/
theorem own_metatable (h : m.Act S m') (hm : m.Orderly S.strict) (hname : name ∈ Registry.reserved) (ht : m.Registered name t)
    {T : Table} (hT : m.heap.object? t = some (.table T)) :
    ∃ T', m'.heap.object? t = some (.table T') ∧ T'.metatable = T.metatable := by
  rcases h.own_cases hm hname ht hT with hT' | ⟨k, v, -, hT'⟩
  · exact ⟨T, hT', rfl⟩
  · exact ⟨_, hT', T.metatable_set k v⟩

theorem object?_badge (h : m.Act S m') (hm : m.Orderly S.strict) (ht : m.Badge t) {T : Table}
    (hT : m.heap.object? t = some (.table T)) : m'.heap.object? t = some (.table T) := by
  obtain ⟨-, hne, hn⟩ := hm.of_badge ht
  obtain ⟨o, ho, hb⟩ := h.old t _ hT
  cases hb with
  | same => exact ho
  | loose hs => exact absurd (Sealed.of_badge ht) hs
  | classed _ ht' => exact absurd ht' (hn _)
  | own _ ht' => exact absurd ht' (hn _)
  | named e => exact absurd e hne
  | counted _ e => exact absurd e hne

theorem badge_of_contains (h : m.Act S m') (hm : m.Orderly S.strict) (hc : m.heap.contains t = true) (ht : m'.Badge t) :
    m.Badge t := by
  obtain ⟨name, hname, p, T', hp, hT', hmt⟩ := ht
  rcases h.registered_of hm hp with hp | hf
  · obtain ⟨-, T, hT⟩ := hm.unshared.registered name p hp
    obtain ⟨T'', hT'', hsame⟩ := h.own_metatable hm hname hp hT
    cases hT'.symm.trans hT''
    exact ⟨name, hname, p, T, hp, hT, hsame ▸ hmt⟩
  · obtain ⟨T'', hT'', -, hown⟩ := hf.table
    cases hT'.symm.trans hT''
    exact absurd hc ((hown hname).2.2 t hmt)

/-- Of what was there nothing else is sealed. -/
theorem sealed_of_contains (h : m.Act S m') (hm : m.Orderly S.strict) (hc : m.heap.contains t = true) (ht : m'.Sealed t) :
    m.Sealed t := by
  rcases ht with rfl | ⟨name, ht⟩ | ht
  · exact Or.inl h.registry
  · exact .of_registered (h.registered_of_contains hm hc ht)
  · exact .of_badge (h.badge_of_contains hm hc ht)

/-- A table of the binding layer keeps its badge. -/
theorem badged (h : m.Act S m') (hm : m.Orderly S.strict) (hname : name ∈ Registry.reserved) (ht : m.Registered name t)
    {T T' : Table} (hT : m.heap.object? t = some (.table T)) (hT' : m'.heap.object? t = some (.table T')) :
    m'.Badged name T' := by
  obtain ⟨T'', hT'', hsame⟩ := h.own_metatable hm hname ht hT
  cases hT'.symm.trans hT''
  obtain ⟨hnone, hsome⟩ := hm.badged name hname t T ht hT
  refine ⟨fun hmode => hsame.trans (hnone hmode), fun mode hmode => ?_⟩
  obtain ⟨mt, M, hmt, hM, hmodeName, hne, hn⟩ := hsome mode hmode
  have hbadge : m.Badge mt := ⟨name, hname, t, T, ht, hT, hmt⟩
  refine ⟨mt, M, hsame.trans hmt, h.object?_badge hm hbadge hM, hmodeName, h.registry.symm ▸ hne, fun n hr => hn n ?_⟩
  exact h.registered_of_contains hm (Heap.contains_of_object? hM) hr

/-! ## Userdata -/

/-- A handle was there, with the shadow it has, and has had its address if that is not null; or it is new. -/
theorem handle_cases (h : m.Act S m') {r : Ref} {u' : Userdata} {a : Address}
    (hu' : m'.heap.object? r = some (.userdata u')) (hpay : u'.payload = .handle a) :
    (∃ u b, m.heap.object? r = some (.userdata u) ∧ u.payload = .handle b ∧ u'.environment = u.environment ∧
      u'.finalized = u.finalized ∧ (b = a ∨ a = Address.null ∧ S.forgets b)) ∨
    ¬m.heap.contains r = true ∧ m.Born S m' r (.userdata u') := by
  rcases h.old_or_new hu' with ⟨p, hp, hb⟩ | hnew
  · cases hb with
    | same => exact Or.inl ⟨u', a, hp, hpay, rfl, rfl, Or.inl rfl⟩
    | other _ hn => exact absurd hpay (hn a)
    | dressed => exact Or.inl ⟨_, a, hp, hpay, rfl, rfl, Or.inl rfl⟩
    | forgotten hb hu =>
      cases hpay
      exact Or.inl ⟨_, _, hp, hu, rfl, rfl, Or.inr ⟨rfl, hb⟩⟩
  · exact Or.inr hnew

/-- A handle stays one, for the same address unless that is forgotten. -/
theorem isHandle (h : m.Act S m') {r : Ref} {a : Address} {f : Bool} (hr : m.IsHandle r a f) :
    m'.IsHandle r a f ∨ S.forgets a ∧ m'.IsHandle r Address.null f ∧
      ∀ p T, m'.Registered Registry.pointers p → m'.heap.object? p = some (.table T) → ∀ e ∈ T.entries, e.2 ≠ .userdata r := by
  obtain ⟨u, hu, hpay, hfin⟩ := hr
  obtain ⟨o, ho, hb⟩ := h.old r _ hu
  cases hb with
  | same => exact Or.inl ⟨u, ho, hpay, hfin⟩
  | other hn => exact absurd hpay (hn a)
  | dressed => exact Or.inl ⟨_, ho, hpay, hfin⟩
  | forgotten hb hu' hgone =>
    rw [hpay] at hu'
    cases hu'
    exact Or.inr ⟨hb, ⟨_, ho, rfl, hfin⟩, hgone⟩

/-! ## What acts keep -/

theorem orderly (h : m.Act S m') (hm : m.Orderly S.strict) : m'.Orderly S.strict where
  unshared := h.unshared hm.unshared
  entry R' hR' n := by
    obtain ⟨R, hR, -⟩ := hm.unshared.registry
    rw [h.registry] at hR'
    rcases h.registry_cases hm hR with hsame | ⟨n', s, hf, hset⟩ | ⟨i, -, hset⟩
    · cases hR'.symm.trans hsame
      exact hm.entry _ hR n
    · cases hR'.symm.trans hset
      rw [Table.field, Table.get_set]
      split
      · rename_i e
        cases e
        rw [if_neg hf.name_ne]
        exact Or.inr ⟨s, rfl⟩
      · exact hm.entry R hR n
    · cases hR'.symm.trans hset
      rw [Table.field, Table.get_set]
      split
      · rename_i e
        cases e
        rw [if_pos rfl]
        exact Or.inr ⟨i, rfl⟩
      · exact hm.entry R hR n
  badged n hn p T' hp hT' := by
    rcases h.registered_of hm hp with hp | hf
    · obtain ⟨-, T, hT⟩ := hm.unshared.registered n p hp
      exact h.badged hm hn hp hT hT'
    · obtain ⟨T, hT, -, hown⟩ := hf.table
      cases hT'.symm.trans hT
      exact (hown hn).2.1
  globals hb := by
    obtain ⟨-, -, G, hG⟩ := hm.unshared.globals
    rw [h.globals] at hb
    exact hm.globals (h.badge_of_contains hm (Heap.contains_of_object? hG) hb)
  environment r u' e hu' he hs := by
    have hold : ∀ u, m.heap.object? r = some (.userdata u) → u.environment = some e → False := by
      intro u hu he
      obtain ⟨⟨E, hE⟩, -⟩ := hm.unshared.environment r u e hu he
      exact hm.environment r u e hu he (h.sealed_of_contains hm (Heap.contains_of_object? hE) hs)
    rcases h.old_or_new hu' with ⟨p, hp, hb⟩ | ⟨-, hb⟩
    · cases hb with
      | same => exact hold u' hp he
      | other _ _ henv =>
        rcases henv e he with he | ⟨hc, hns⟩
        · exact hold _ hp he
        · exact hns (h.sealed_of_contains hm hc hs)
      | dressed => exact hold _ hp he
      | forgotten => exact hold _ hp he
    · cases hb with
      | userdata => cases he
      | handle _ _ hns =>
        cases he
        exact hns hs
  classes n hn t T' ht hT' := by
    rcases h.registered_of hm ht with ht | hf
    · obtain ⟨hne, T, hT⟩ := hm.unshared.registered n t ht
      obtain ⟨o, ho, hb⟩ := h.old t _ hT
      cases hT'.symm.trans ho
      cases hb with
      | same => exact hm.classes n hn t _ ht hT
      | loose hs => exact absurd (Sealed.of_registered ht) hs
      | classed _ _ hends => exact hends
      | own hn' ht' => exact absurd (hm.name_eq ht ht' ▸ hn') hn
      | named e => exact absurd e hne
      | counted _ e => exact absurd e hne
    · obtain ⟨T, hT, hclass, -⟩ := hf.table
      cases hT'.symm.trans hT
      exact (hclass hn).1
  classOf hstrict r u' a mt hu' hpay hmt := by
    have hold : ∀ u b, m.heap.object? r = some (.userdata u) → u.payload = .handle b → u.metatable = some mt →
        ∃ n ∉ Registry.reserved, m'.Registered n mt := by
      intro u b hu hpay hmt
      obtain ⟨n, hn, hr⟩ := hm.classOf hstrict r u b mt hu hpay hmt
      exact ⟨n, hn, h.registered hm hr⟩
    rcases h.old_or_new hu' with ⟨p, hp, hb⟩ | ⟨-, hb⟩
    · cases hb with
      | same => exact hold u' a hp hpay hmt
      | other _ hn => exact absurd hpay (hn a)
      | dressed hr hname =>
        cases hmt
        exact ⟨_, hname hstrict, h.registered hm hr⟩
      | forgotten _ hu => exact hold _ _ hp hu hmt
    · cases hb with
      | userdata => cases hmt
      | handle => cases hmt

theorem stocked (h : m.Act S m') (hm : m.Orderly S.strict) (hs : m.Stocked) : m'.Stocked where
  cells c C' hc hC' e he := by
    rcases h.registered_of hm hc with hc | hf
    · obtain ⟨-, C, hC⟩ := hm.unshared.registered _ c hc
      rcases h.own_cases hm (by decide) hc hC with hsame | ⟨k, v, hsuits, hset⟩
      · cases hC'.symm.trans hsame
        exact hs.cells c _ hc hC e he
      · cases hC'.symm.trans hset
        generalize hname : Registry.cells = n at hsuits
        cases hsuits with
        | cell i r =>
          rcases Table.mem_entries_set he with ⟨rfl, -⟩ | ⟨he, -⟩
          · exact ⟨i, rfl⟩
          · exact hs.cells c C hc hC e he
        | handle | nothing | enumeration => exact absurd hname (by decide)
    · obtain ⟨C, hC, -, hown⟩ := hf.table
      cases hC'.symm.trans hC
      rw [(hown (by decide)).1] at he
      cases he
  enumerations d D' hd hD' e he := by
    have hold : ∀ D, m.Registered Registry.enumerations d → m.heap.object? d = some (.table D) → e ∈ D.entries →
        ∃ t T, e.2 = .table t ∧ m'.heap.object? t = some (.table T) := by
      intro D hd hD he
      obtain ⟨t, T, het, hT⟩ := hs.enumerations d D hd hD e he
      obtain ⟨T', hT'⟩ := h.exists_table hT
      exact ⟨t, T', het, hT'⟩
    rcases h.registered_of hm hd with hd | hf
    · obtain ⟨-, D, hD⟩ := hm.unshared.registered _ d hd
      rcases h.own_cases hm (by decide) hd hD with hsame | ⟨k, v, hsuits, hset⟩
      · cases hD'.symm.trans hsame
        exact hold _ hd hD he
      · cases hD'.symm.trans hset
        generalize hname : Registry.enumerations = n at hsuits
        cases hsuits with
        | enumeration k hE =>
          rcases Table.mem_entries_set he with ⟨rfl, -⟩ | ⟨he, -⟩
          · exact ⟨_, _, rfl, hE⟩
          · exact hold D hd hD he
        | handle | nothing | cell => exact absurd hname (by decide)
    · obtain ⟨D, hD, -, hown⟩ := hf.table
      cases hD'.symm.trans hD
      rw [(hown (by decide)).1] at he
      cases he

/-! ### The list of handles -/

/-- What the pointer table has under an address it had there, or the address may be listed. -/
theorem lists_of (h : m.Act S m') (hm : m.Orderly S.strict) {a : Address} {r : Ref} (hr : m'.Lists a r) :
    m.Lists a r ∨ S.lists a := by
  obtain ⟨p, T', hp, hT', hfind⟩ := hr
  rcases h.registered_of hm hp with hp | hf
  · obtain ⟨-, T, hT⟩ := hm.unshared.registered _ p hp
    rcases h.own_cases hm (by decide) hp hT with hsame | ⟨k, v, hsuits, hset⟩
    · cases hT'.symm.trans hsame
      exact Or.inl ⟨p, _, hp, hT, hfind⟩
    · cases hT'.symm.trans hset
      rw [Table.find?_set] at hfind
      generalize hname : Registry.pointers = n at hsuits
      cases hsuits with
      | handle ha =>
        split at hfind
        · rename_i e
          cases e
          exact Or.inr ha
        · exact Or.inl ⟨p, T, hp, hT, hfind⟩
      | nothing =>
        split at hfind
        · cases hfind
        · exact Or.inl ⟨p, T, hp, hT, hfind⟩
      | cell | enumeration => exact absurd hname (by decide)
  · obtain ⟨T, hT, -, hown⟩ := hf.table
    cases hT'.symm.trans hT
    rw [Table.find?, (hown (by decide)).1] at hfind
    cases hfind

/-- A handle stays listed while it stays a handle for its address, unless that is null. -/
theorem lists (h : m.Act S m') (hm : m.Orderly S.strict) {a : Address} (ha : a ≠ Address.null) {r : Ref} (hr : m.Lists a r)
    (hkept : m'.IsHandle r a false) : m'.Lists a r := by
  obtain ⟨p, T, hp, hT, hfind⟩ := hr
  rcases h.own_cases hm (by decide) hp hT with hsame | ⟨k, v, hsuits, hset⟩
  · exact ⟨p, T, h.registered hm hp, hsame, hfind⟩
  · refine ⟨p, _, h.registered hm hp, hset, ?_⟩
    rw [Table.find?_set]
    generalize hname : Registry.pointers = n at hsuits
    cases hsuits with
    | handle _ hnone =>
      rw [if_neg]
      · exact hfind
      · intro e
        cases e
        rw [hfind] at hnone
        cases hnone
    | nothing _ hgone =>
      rw [if_neg]
      · exact hfind
      · intro e
        cases e
        exact hgone ha r hfind hkept
    | cell | enumeration => exact absurd hname (by decide)

theorem rostered (h : m.Act S m') (hm : m.Orderly S.strict) (hr : m.Rostered) : m'.Rostered where
  listing p T' hp hT' e he := by
    -- an entry that was there is of a handle that still is one, because what is forgotten is no longer listed
    have hold : ∀ T, m.Registered Registry.pointers p → m.heap.object? p = some (.table T) → e ∈ T.entries →
        ∃ a r, e = (.address a, .userdata r) ∧ m'.IsHandle r a false := by
      intro T hp₀ hT hmem
      obtain ⟨a, r, rfl, hra⟩ := hr.listing p T hp₀ hT e hmem
      rcases h.isHandle hra with hra' | ⟨-, -, hgone⟩
      · exact ⟨a, r, rfl, hra'⟩
      · exact absurd rfl (hgone p T' hp hT' _ he)
    rcases h.registered_of hm hp with hp₀ | hf
    · obtain ⟨-, T, hT⟩ := hm.unshared.registered _ p hp₀
      rcases h.own_cases hm (by decide) hp₀ hT with hsame | ⟨k, v, hsuits, hset⟩
      · cases hT'.symm.trans hsame
        exact hold _ hp₀ hT he
      · cases hT'.symm.trans hset
        generalize hname : Registry.pointers = n at hsuits
        cases hsuits with
        | handle _ _ hnew =>
          rcases Table.mem_entries_set he with ⟨rfl, -⟩ | ⟨hmem, -⟩
          · exact ⟨_, _, rfl, hnew⟩
          · exact hold T hp₀ hT hmem
        | nothing =>
          rcases Table.mem_entries_set he with ⟨-, hne⟩ | ⟨hmem, -⟩
          · exact absurd rfl hne
          · exact hold T hp₀ hT hmem
        | cell | enumeration => exact absurd hname (by decide)
    · obtain ⟨T, hT, -, hown⟩ := hf.table
      cases hT'.symm.trans hT
      rw [(hown (by decide)).1] at he
      cases he
  listed r a hra ha := by
    obtain ⟨u', hu', hpay, hfin⟩ := id hra
    rcases h.handle_cases hu' hpay with ⟨u, b, hu, hb, -, hf, hba⟩ | ⟨-, hborn⟩
    · rcases hba with rfl | ⟨hnull, -⟩
      · exact h.lists hm ha (hr.listed r b ⟨u, hu, hb, hf ▸ hfin⟩ ha) hra
      · exact absurd hnull ha
    · cases hborn with
      | userdata hp => exact absurd hpay (hp a)
      | handle _ _ _ hlisted =>
        cases hpay
        exact hlisted
  shadow r u' a hu' hpay := by
    rw [h.globals]
    rcases h.handle_cases hu' hpay with ⟨u, b, hu, hb, henv, -, -⟩ | ⟨-, hborn⟩
    · rw [henv]
      exact hr.shadow r u b hu hb
    · cases hborn with
      | userdata hp => exact absurd hpay (hp a)
      | @handle _ e _ he _ _ =>
        refine ⟨e, rfl, ?_⟩
        rintro rfl
        obtain ⟨-, -, G, hG⟩ := hm.unshared.globals
        exact he (Heap.contains_of_object? hG)

/-- An act leaves the machine as the binding layer keeps it. -/
theorem managed (h : m.Act S m') (hm : m.Managed S.strict) : m'.Managed S.strict :=
  ⟨h.orderly hm.orderly, h.stocked hm.orderly hm.stocked, h.rostered hm.orderly hm.rostered⟩

/-! ## What acts leave as it is -/

/-- A table that is spared is what it was. -/
theorem object?_spared (h : m.Act S m') (ht : S.spared t) (hs : ¬m.Sealed t) (hne : t ≠ m.globals) {T : Table}
    (hT : m.heap.object? t = some (.table T)) : m'.heap.object? t = some (.table T) := by
  obtain ⟨o, ho, hb⟩ := h.old t _ hT
  cases hb with
  | same => exact ho
  | loose _ hspared => exact absurd (hspared ht) hne
  | classed _ hr => exact absurd (Sealed.of_registered hr) hs
  | own _ hr => exact absurd (Sealed.of_registered hr) hs
  | named e => exact absurd (Or.inl e) hs
  | counted _ e => exact absurd (Or.inl e) hs

/-- A new handle for an address that may not be listed is not made. -/
theorem isHandle_of (h : m.Act S m') {r : Ref} {a : Address} {f : Bool} (ha : a ≠ Address.null) (hr : m'.IsHandle r a f) :
    m.IsHandle r a f ∨ S.lists a := by
  obtain ⟨u', hu', hpay, hfin⟩ := hr
  rcases h.handle_cases hu' hpay with ⟨u, b, hu, hb, -, hf, hba⟩ | ⟨-, hborn⟩
  · rcases hba with rfl | ⟨hnull, -⟩
    · exact Or.inl ⟨u, hu, hb, hf ▸ hfin⟩
    · exact absurd hnull ha
  · cases hborn with
    | userdata hp => exact absurd hpay (hp a)
    | handle hlists =>
      cases hpay
      exact Or.inr hlists

/-- A handle keeps its shadow. -/
theorem environment_handle (h : m.Act S m') {r : Ref} {u : Userdata} {a : Address} (hu : m.heap.object? r = some (.userdata u))
    (hpay : u.payload = .handle a) :
    ∃ u', m'.heap.object? r = some (.userdata u') ∧ u'.environment = u.environment := by
  obtain ⟨o, ho, hb⟩ := h.old r _ hu
  cases hb with
  | same => exact ⟨u, ho, rfl⟩
  | other hn => exact absurd hpay (hn a)
  | dressed => exact ⟨_, ho, rfl⟩
  | forgotten => exact ⟨_, ho, rfl⟩

end Act

end Machine

end ScriptHost

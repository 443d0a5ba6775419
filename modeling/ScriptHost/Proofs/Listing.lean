import ScriptHost.Proofs.Interned

/-!
# Changes of the listing

The changes of the tables of the binding layer that keep the listing (`Machine.Interned`): a new table gets a name in the registry
(`Registers.interned`), a new handle is listed (`Relists.list`), the handle of an address is no longer listed and stands for
nothing (`Relists.unlist`), and a collection, which takes from the list what it takes up or frees (`Interned.swept`).
-/

namespace ScriptHost

variable {χ σ : Type}

theorem Table.endsWrites_of_field {t t' : Table} (ht : t.EndsWrites)
    (h : t'.field Registry.writeName = t.field Registry.writeName ∨ t'.field Registry.writeName = .nil) : t'.EndsWrites := by
  intro r
  rcases h with h | h
  · rw [h]
    exact ht r
  · rw [h]
    exact ⟨nofun, nofun⟩

/-- The table of a class before it is installed: it knows its name, and nothing else. -/
def Table.blank (name : String) : Table := Table.empty.set (.string "__name") (.string name)

namespace Machine

variable {m m' : Machine χ σ}

/-! ## A new name -/

/-- The second machine has a new table in the registry, under a name that had none. Nothing else that was there is different. -/
structure Registers (m m' : Machine χ σ) (name : String) (t : Ref) (T : Table) : Prop where
  wellFormed : m'.heap.WellFormed
  registry : m'.registry = m.registry
  globals : m'.globals = m.globals
  unused : ∀ s, ¬m.Registered name s
  added : ∃ R, m.heap.object? m.registry = some (.table R) ∧
    m'.heap.object? m.registry = some (.table (R.set (.string name) (.table t)))
  fresh : ¬m.heap.contains t = true
  table : m'.heap.object? t = some (.table T)
  kept : ∀ s o, s ≠ m.registry → m.heap.object? s = some o → m'.heap.object? s = some o
  userdata : ∀ s u, m'.heap.object? s = some (.userdata u) → m.heap.object? s = some (.userdata u)

/-- A new pointer table is empty, and a new metatable says that its values are weak. -/
def NewPointers (m m' : Machine χ σ) (t : Ref) (T : Table) : Prop :=
  T.entries = [] ∧ ∃ mt M, T.metatable = some mt ∧ ¬m.heap.contains mt = true ∧ mt ≠ t ∧
    m'.heap.object? mt = some (.table M) ∧ M.field "__mode" = .string "v"

namespace Registers

variable {name : String} {t : Ref} {T : Table}

theorem registered_iff (h : m.Registers m' name t T) (n : String) (s : Ref) :
    m'.Registered n s ↔ (n = name ∧ s = t) ∨ (n ≠ name ∧ m.Registered n s) := by
  obtain ⟨R, hR, hR'⟩ := h.added
  unfold Registered
  simp only [h.registry, hR', hR, Option.some.injEq, Object.table.injEq, exists_eq_left']
  unfold Table.field
  rw [Table.get_set]
  by_cases hn : n = name
  · simp [hn, eq_comm]
  · simp [hn]

theorem registered (h : m.Registers m' name t T) {n : String} {s : Ref} (hs : m.Registered n s) : m'.Registered n s := by
  rw [h.registered_iff]
  refine Or.inr ⟨?_, hs⟩
  rintro rfl
  exact h.unused s hs

/-- Of what was there nothing else has got a name. -/
theorem registered_of (h : m.Registers m' name t T) {n : String} {s : Ref} (hs : m.heap.contains s = true)
    (hn : m'.Registered n s) : m.Registered n s := by
  rcases (h.registered_iff n s).1 hn with ⟨-, rfl⟩ | ⟨-, hn⟩
  · exact absurd hs h.fresh
  · exact hn

/-- The pointer table stays what it is. -/
theorem pointers_object? (h : m.Registers m' name t T) (hm : m.Interned) {p : Ref} {T' : Table}
    (hp : m.Registered Registry.pointers p) (hT' : m.heap.object? p = some (.table T')) :
    m'.heap.object? p = some (.table T') :=
  h.kept p _ (hm.registered _ p hp).1 hT'

/-- Of what was there nothing else is guarded. -/
theorem guarded_of (h : m.Registers m' name t T) (hm : m.Interned)
    (hpointers : name = Registry.pointers → m.NewPointers m' t T) {s : Ref} (hs : m.heap.contains s = true)
    (hg : m'.Guarded s) : m.Guarded s := by
  rcases hg with hg | ⟨n, hg⟩ | ⟨p, T', hp, hT', hmt⟩
  · exact Or.inl (hg.trans h.registry)
  · exact Or.inr (Or.inl ⟨n, h.registered_of hs hg⟩)
  · rcases (h.registered_iff _ p).1 hp with ⟨hn, rfl⟩ | ⟨-, hp⟩
    · obtain ⟨-, mt, M, hmt', hfresh, -⟩ := hpointers hn.symm
      rw [h.table] at hT'
      cases hT'
      rw [hmt] at hmt'
      cases hmt'
      exact absurd hs hfresh
    · obtain ⟨-, T₀, -, -, hT₀, -⟩ := hm.pointers p hp
      rw [h.pointers_object? hm hp hT₀] at hT'
      cases hT'
      exact Or.inr (Or.inr ⟨p, T', hp, hT₀, hmt⟩)

theorem plain (h : m.Registers m' name t T) (hm : m.Interned)
    (hpointers : name = Registry.pointers → m.NewPointers m' t T) {s : Ref} (hs : m.Plain s) : m'.Plain s := by
  obtain ⟨⟨S, hS⟩, hg⟩ := hs
  refine ⟨⟨S, h.kept s _ ?_ hS⟩, mt (h.guarded_of hm hpointers (Heap.contains_of_object? hS)) hg⟩
  rintro rfl
  exact hg (Or.inl rfl)

theorem isHandle (h : m.Registers m' name t T) {r : Ref} {a : Address} {f : Bool} (hr : m.IsHandle r a f) :
    m'.IsHandle r a f := by
  obtain ⟨u, hu, hpay, hfin⟩ := hr
  obtain ⟨R, hR, -⟩ := h.added
  exact ⟨u, h.kept r _ (Heap.ne_of_table_of_userdata hR hu).symm hu, hpay, hfin⟩

/-- The pointer table after that, whether it is the new table or was there before. -/
theorem pointers (h : m.Registers m' name t T) (hm : m.Interned)
    (hpointers : name = Registry.pointers → m.NewPointers m' t T) {p : Ref} (hp : m'.Registered Registry.pointers p) :
    (∀ n, m'.Registered n p → n = Registry.pointers) ∧
    ∃ T mt M, m'.heap.object? p = some (.table T) ∧ T.metatable = some mt ∧ m'.heap.object? mt = some (.table M) ∧
      M.field "__mode" = .string "v" ∧ mt ≠ m'.registry ∧ (∀ n, ¬m'.Registered n mt) ∧
      ∀ e ∈ T.entries, ∃ a r, e = (.address a, .userdata r) ∧ m'.IsHandle r a false := by
  have hlive : ∀ n s, m.Registered n s → m.heap.contains s = true := by
    intro n s hs
    exact hm.contains_of_guarded (Or.inr (Or.inl ⟨n, hs⟩))
  rw [h.registry]
  rcases (h.registered_iff _ p).1 hp with ⟨hn, rfl⟩ | ⟨hn, hp⟩
  · obtain ⟨hempty, mt, M, hmt, hfresh, hne, hM, hmode⟩ := hpointers hn.symm
    refine ⟨?_, T, mt, M, h.table, hmt, hM, hmode, ?_, ?_, by simp [hempty]⟩
    · intro n hs
      rcases (h.registered_iff n p).1 hs with ⟨hn', -⟩ | ⟨-, hs⟩
      · exact hn'.trans hn.symm
      · exact absurd (hlive n p hs) h.fresh
    · rintro rfl
      obtain ⟨R, hR, -⟩ := h.added
      exact hfresh (Heap.contains_of_object? hR)
    · intro n hs
      rcases (h.registered_iff n mt).1 hs with ⟨-, e⟩ | ⟨-, hs⟩
      · exact hne e
      · exact hfresh (hlive n mt hs)
  · obtain ⟨hname, T₀, mt, M, hT₀, hmt, hM, hmode, hmtr, hmtn, hentries⟩ := hm.pointers p hp
    refine ⟨?_, T₀, mt, M, h.pointers_object? hm hp hT₀, hmt, h.kept mt _ hmtr hM, hmode, hmtr, ?_, ?_⟩
    · intro n hs
      exact hname n (h.registered_of (hlive _ p hp) hs)
    · intro n hs
      exact hmtn n (h.registered_of (Heap.contains_of_object? hM) hs)
    · intro e he
      obtain ⟨a, r, rfl, hr⟩ := hentries e he
      exact ⟨a, r, rfl, h.isHandle hr⟩

/-- A new name keeps the listing. -/
theorem interned (h : m.Registers m' name t T) (hm : m.Interned) (hends : T.EndsWrites)
    (hpointers : name = Registry.pointers → m.NewPointers m' t T) :
    m'.Interned ∧ m.Evolves m' ∧ m'.Registered name t := by
  obtain ⟨R, hR, hR'⟩ := h.added
  refine ⟨⟨h.wellFormed, ?_, ?_, ?_, fun p hp => h.pointers hm hpointers hp, ?_, ?_, ?_⟩,
    ⟨h.registry, h.globals, fun _ _ => h.registered, fun _ => h.plain hm hpointers⟩,
    (h.registered_iff _ _).2 (Or.inl ⟨rfl, rfl⟩)⟩
  · obtain ⟨R₀, hR₀, hmt⟩ := hm.registry
    rw [hR] at hR₀
    cases hR₀
    exact ⟨_, by rw [h.registry, hR'], by simp [hmt]⟩
  · rw [h.globals]
    exact h.plain hm hpointers hm.globals
  · intro n s hs
    rw [h.registry]
    rcases (h.registered_iff n s).1 hs with ⟨-, rfl⟩ | ⟨-, hs⟩
    · exact ⟨(ne_of_not_contains h.fresh hR).symm, T, h.table, hends⟩
    · obtain ⟨hsr, S, hS, hSends⟩ := hm.registered n s hs
      exact ⟨hsr, S, h.kept s _ hsr hS, hSends⟩
  · rintro r a ⟨u, hu, hpay, hfin⟩ ha
    obtain ⟨p, T₀, hp, hT₀, hfind⟩ := hm.listed r a ⟨u, h.userdata r u hu, hpay, hfin⟩ ha
    exact ⟨p, T₀, h.registered hp, h.pointers_object? hm hp hT₀, hfind⟩
  · intro r u e hu he
    exact h.plain hm hpointers (hm.environment r u e (h.userdata r u hu) he)
  · intro r u a mt hu hpay hmt
    obtain ⟨n, hs⟩ := hm.classOf r u a mt (h.userdata r u hu) hpay hmt
    exact ⟨n, h.registered hs⟩

end Registers

/-! ## Another list -/

/-- The second machine has another list in the pointer table, and no other table is different. -/
structure Relists (m m' : Machine χ σ) (p : Ref) (T T' : Table) : Prop where
  wellFormed : m'.heap.WellFormed
  registry : m'.registry = m.registry
  globals : m'.globals = m.globals
  pointers : m.Registered Registry.pointers p
  before : m.heap.object? p = some (.table T)
  after : m'.heap.object? p = some (.table T')
  metatable : T'.metatable = T.metatable
  tables : ∀ s S, s ≠ p → m.heap.object? s = some (.table S) → m'.heap.object? s = some (.table S)

namespace Relists

variable {p : Ref} {T T' : Table}

theorem registry_object? (h : m.Relists m' p T T') (hm : m.Interned) :
    m'.heap.object? m'.registry = m.heap.object? m.registry := by
  obtain ⟨R, hR, -⟩ := hm.registry
  rw [h.registry, hR]
  exact h.tables _ R (hm.registered _ p h.pointers).1.symm hR

theorem registered_iff (h : m.Relists m' p T T') (hm : m.Interned) (n : String) (s : Ref) :
    m'.Registered n s ↔ m.Registered n s :=
  registered_congr (h.registry_object? hm) n s

theorem guarded_iff (h : m.Relists m' p T T') (hm : m.Interned) (s : Ref) : m'.Guarded s ↔ m.Guarded s := by
  refine hm.guarded_congr h.registry (h.registered_iff hm) ?_ s
  intro q S hq hS
  obtain rfl := hq.eq h.pointers
  rw [h.before] at hS
  cases hS
  exact ⟨T', h.after, h.metatable⟩

theorem plain (h : m.Relists m' p T T') (hm : m.Interned) {s : Ref} (hs : m.Plain s) : m'.Plain s := by
  obtain ⟨⟨S, hS⟩, hg⟩ := hs
  refine ⟨⟨S, h.tables s S ?_ hS⟩, mt (h.guarded_iff hm s).1 hg⟩
  rintro rfl
  exact hg (Or.inr (Or.inl ⟨_, h.pointers⟩))

/-- A list of addresses has nothing under `__newindex`. -/
theorem endsWrites (hentries : ∀ e ∈ T'.entries, ∃ a r, e = (.address a, .userdata r) ∧ m'.IsHandle r a false) :
    T'.EndsWrites := by
  have hnil : T'.field Registry.writeName = .nil := by
    unfold Table.field Table.get
    cases hf : T'.find? (.string Registry.writeName) with
    | none => rfl
    | some v =>
      obtain ⟨a, r, he, -⟩ := hentries _ (Table.mem_of_find? hf)
      cases he
  intro r
  simp [hnil]

/-- Another list keeps the listing if it is the list of the handles there are then. -/
theorem interned (h : m.Relists m' p T T') (hm : m.Interned)
    (hentries : ∀ e ∈ T'.entries, ∃ a r, e = (.address a, .userdata r) ∧ m'.IsHandle r a false)
    (hlisted : ∀ r a, m'.IsHandle r a false → a ≠ Address.null → T'.find? (.address a) = some (.userdata r))
    (henv : ∀ r u e, m'.heap.object? r = some (.userdata u) → u.environment = some e → m'.Plain e)
    (hclass : ∀ r u a mt, m'.heap.object? r = some (.userdata u) → u.payload = .handle a → u.metatable = some mt →
      ∃ name, m.Registered name mt) : m'.Interned ∧ m.Evolves m' := by
  have hnames := h.registered_iff hm
  refine ⟨⟨h.wellFormed, ?_, ?_, ?_, ?_, ?_, henv, ?_⟩,
    ⟨h.registry, h.globals, fun n t => (hnames n t).2, fun _ => h.plain hm⟩⟩
  · rw [h.registry_object? hm]
    exact hm.registry
  · rw [h.globals]
    exact h.plain hm hm.globals
  · intro n t ht
    rw [h.registry]
    obtain ⟨hne, S, hS, hSends⟩ := hm.registered n t ((hnames n t).1 ht)
    by_cases htp : t = p
    · exact ⟨hne, T', htp ▸ h.after, endsWrites hentries⟩
    · exact ⟨hne, S, h.tables t S htp hS, hSends⟩
  · intro q hq
    obtain rfl := ((hnames _ q).1 hq).eq h.pointers
    obtain ⟨hname, T₀, mt, M, hT₀, hmt, hM, hmode, hmtr, hmtn, -⟩ := hm.pointers q h.pointers
    rw [h.before] at hT₀
    cases hT₀
    have hmtq : mt ≠ q := by
      rintro rfl
      exact hmtn _ h.pointers
    simp only [hnames, h.registry]
    exact ⟨hname, T', mt, M, h.after, h.metatable.trans hmt, h.tables mt M hmtq hM, hmode, hmtr, hmtn, hentries⟩
  · intro r a hr ha
    exact ⟨p, T', (hnames _ p).2 h.pointers, h.after, hlisted r a hr ha⟩
  · intro r u a mt hu hpay hmt
    obtain ⟨n, hn⟩ := hclass r u a mt hu hpay hmt
    exact ⟨n, (hnames n mt).2 hn⟩

end Relists

/-! ### Handles and their entries -/

section

variable {p : Ref} {T : Table}

/-- An entry of the pointer table lists a handle that no collection has taken up. -/
theorem Interned.isHandle_of_mem (hm : m.Interned) (hp : m.Registered Registry.pointers p)
    (hT : m.heap.object? p = some (.table T)) {e : Key × Value} (he : e ∈ T.entries) :
    ∃ a r, e = (.address a, .userdata r) ∧ m.IsHandle r a false := by
  obtain ⟨-, T₀, -, -, hT₀, -, -, -, -, -, hentries⟩ := hm.pointers p hp
  rw [hT] at hT₀
  cases hT₀
  exact hentries e he

/-- What the pointer table has under an address is a handle for it that no collection has taken up, or nothing. -/
theorem Interned.isHandle_of_find? (hm : m.Interned) (hp : m.Registered Registry.pointers p)
    (hT : m.heap.object? p = some (.table T)) {a : Address} {v : Value} (hv : T.find? (.address a) = some v) :
    ∃ r, v = .userdata r ∧ m.IsHandle r a false := by
  obtain ⟨b, r, he, hr⟩ := hm.isHandle_of_mem hp hT (Table.mem_of_find? hv)
  cases he
  exact ⟨r, rfl, hr⟩

theorem Interned.find?_of_isHandle (hm : m.Interned) (hp : m.Registered Registry.pointers p)
    (hT : m.heap.object? p = some (.table T)) {r : Ref} {a : Address} (hr : m.IsHandle r a false)
    (ha : a ≠ Address.null) : T.find? (.address a) = some (.userdata r) := by
  obtain ⟨q, T₀, hq, hT₀, hfind⟩ := hm.listed r a hr ha
  obtain rfl := hq.eq hp
  rw [hT] at hT₀
  cases hT₀
  exact hfind

/-- A new handle with a new shadow, listed under an address that had none. -/
theorem Relists.list {r e : Ref} {a : Address} (h : m.Relists m' p T (T.set (.address a) (.userdata r))) (hm : m.Interned)
    (hnone : T.find? (.address a) = none) (hr : m'.heap.object? r = some (.userdata ⟨.handle a, none, some e, false⟩))
    (hfresh : ¬m.heap.contains e = true) (he : m'.heap.object? e = some (.table .empty))
    (hold : ∀ s u, m.heap.object? s = some (.userdata u) → m'.heap.object? s = some (.userdata u))
    (hnew : ∀ s u, s ≠ r → m'.heap.object? s = some (.userdata u) → m.heap.object? s = some (.userdata u)) :
    m'.Interned ∧ m.Evolves m' := by
  refine h.interned hm ?_ ?_ ?_ ?_
  · intro x hx
    have hx' : x = (.address a, .userdata r) ∨ x ∈ T.entries := by
      simp only [Table.set, Value.isNil, Bool.false_eq_true, ↓reduceIte, List.mem_cons, Table.erase,
        List.mem_filter] at hx
      exact hx.imp_right And.left
    rcases hx' with rfl | hx'
    · exact ⟨a, r, rfl, _, hr, rfl, rfl⟩
    · obtain ⟨b, s, rfl, u, hu, hpay, hfin⟩ := hm.isHandle_of_mem h.pointers h.before hx'
      exact ⟨b, s, rfl, u, hold s u hu, hpay, hfin⟩
  · intro s b hs hb
    rw [Table.find?_set]
    by_cases hsr : s = r
    · subst hsr
      obtain ⟨rfl, -⟩ := hs.eq ⟨_, hr, rfl, rfl⟩
      simp [Value.isNil]
    · obtain ⟨u, hu, hpay, hfin⟩ := hs
      have hfind := hm.find?_of_isHandle h.pointers h.before ⟨u, hnew s u hsr hu, hpay, hfin⟩ hb
      have hba : b ≠ a := by
        rintro rfl
        rw [hnone] at hfind
        cases hfind
      simpa [hba] using hfind
  · intro s u x hu hx
    by_cases hsr : s = r
    · subst hsr
      rw [hr] at hu
      cases hu
      cases hx
      refine ⟨⟨_, he⟩, ?_⟩
      rw [h.guarded_iff hm]
      intro hg
      exact hfresh (hm.contains_of_guarded hg)
    · exact h.plain hm (hm.environment s u x (hnew s u hsr hu) hx)
  · intro s u b mt hu hb hmt
    by_cases hsr : s = r
    · subst hsr
      rw [hr] at hu
      cases hu
      cases hmt
    · exact hm.classOf s u b mt (hnew s u hsr hu) hb hmt

/-- The handle of an address stands for nothing from now on, and is no longer listed. -/
theorem Relists.unlist {r : Ref} {u : Userdata} {a : Address} (h : m.Relists m' p T (T.erase (.address a)))
    (hm : m.Interned) (hfind : T.find? (.address a) = some (.userdata r)) (hu : m.heap.object? r = some (.userdata u))
    (hr : m'.heap.object? r = some (.userdata { u with payload := .handle Address.null }))
    (hsame : ∀ s v, s ≠ r → (m'.heap.object? s = some (.userdata v) ↔ m.heap.object? s = some (.userdata v))) :
    m'.Interned ∧ m.Evolves m' := by
  have hra : m.IsHandle r a false := by
    obtain ⟨s, hs, hsa⟩ := hm.isHandle_of_find? h.pointers h.before hfind
    cases hs
    exact hsa
  refine h.interned hm ?_ ?_ ?_ ?_
  · intro x hx
    obtain ⟨hx, hxa⟩ := List.mem_filter.1 hx
    obtain ⟨b, s, rfl, hs⟩ := hm.isHandle_of_mem h.pointers h.before hx
    have hsr : s ≠ r := by
      rintro rfl
      obtain ⟨rfl, -⟩ := hs.eq hra
      simp at hxa
    obtain ⟨v, hv, hpay, hfin⟩ := hs
    exact ⟨b, s, rfl, v, (hsame s v hsr).2 hv, hpay, hfin⟩
  · intro s b hs hb
    have hsr : s ≠ r := by
      rintro rfl
      obtain ⟨rfl, -⟩ := hs.eq ⟨_, hr, rfl, rfl⟩
      exact hb rfl
    obtain ⟨v, hv, hpay, hfin⟩ := hs
    have hfind' := hm.find?_of_isHandle h.pointers h.before ⟨v, (hsame s v hsr).1 hv, hpay, hfin⟩ hb
    have hba : b ≠ a := by
      rintro rfl
      rw [hfind] at hfind'
      cases hfind'
      exact hsr rfl
    simpa [Table.find?_erase, hba] using hfind'
  · intro s v x hv hx
    by_cases hsr : s = r
    · subst hsr
      rw [hr] at hv
      cases hv
      exact h.plain hm (hm.environment s u x hu hx)
    · exact h.plain hm (hm.environment s v x ((hsame s v hsr).1 hv) hx)
  · intro s v b mt hv hb hmt
    by_cases hsr : s = r
    · subst hsr
      rw [hr] at hv
      cases hv
      obtain ⟨u₀, hu₀, hpay₀, -⟩ := hra
      rw [hu] at hu₀
      cases hu₀
      exact hm.classOf s u a mt hu hpay₀ hmt
    · exact hm.classOf s v b mt ((hsame s v hsr).1 hv) hb hmt

end

/-! ## A collection -/

theorem survives_registry {R : Table} (hR : m.heap.object? m.registry = some (.table R)) : m.Survives m.registry :=
  .root (Or.inl (.root (Or.inl rfl) (Heap.contains_of_object? hR))) (Heap.contains_of_object? hR)

/-- The registry survives with all of its entries. -/
theorem swept_registry_of_strong {R : Table} (hR : m.heap.object? m.registry = some (.table R)) (hmt : R.metatable = none) :
    m.Survives m.registry ∧ m.swept.heap.object? m.swept.registry = m.heap.object? m.registry := by
  refine ⟨survives_registry hR, ?_⟩
  rw [registry_swept, swept_table (survives_registry hR) hR, remaining_of_metatable_none hmt, hR]

/-- What the registry has under a name survives, if it is there and the registry holds its values strongly. -/
theorem survives_of_held {R : Table} (hR : m.heap.object? m.registry = some (.table R)) (hstrong : ¬m.heap.ModeSays R 'v')
    {name : String} {t : Ref} (ht : m.Registered name t) (hc : m.heap.contains t = true) : m.Survives t := by
  have hfind := Table.find?_of_get ((registered_iff hR).1 ht) (by simp)
  exact (survives_registry hR).held (.value hR hstrong (Table.mem_of_find? hfind) rfl) hc

theorem survives_of_registered {R : Table} (hR : m.heap.object? m.registry = some (.table R)) (hmt : R.metatable = none)
    {name : String} {t : Ref} (ht : m.Registered name t) (hc : m.heap.contains t = true) : m.Survives t :=
  survives_of_held hR (Heap.not_modeSays_of_metatable_none hmt 'v') ht hc

/-- The registry keeps its tables, and the pointer table keeps its metatable. -/
theorem Interned.survives_of_guarded (hm : m.Interned) {t : Ref} (ht : m.Guarded t) : m.Survives t := by
  have hc := hm.contains_of_guarded ht
  obtain ⟨R, hR, hmt⟩ := hm.registry
  rcases ht with rfl | ⟨n, h⟩ | ⟨p, T, hp, hT, hmt'⟩
  · exact (swept_registry_of_strong hR hmt).1
  · exact survives_of_registered hR hmt h hc
  · exact (survives_of_registered hR hmt hp (Heap.contains_of_object? hT)).held (.metatable hT hmt') hc

section

variable {p r : Ref} {T : Table} {a : Address}

/-- A table that holds its values weakly loses the userdata that do not survive or are taken up, and no others. -/
theorem loses_userdata_iff (hweak : m.heap.ModeSays T 'v') {k : Key} (hk : k.ref? = none) {u : Userdata}
    (hu : m.heap.object? r = some (.userdata u)) (hfin : u.finalized = false) :
    m.Loses T (k, .userdata r) ↔ ¬(m.Survives r ∧ ¬m.Doomed r) := by
  have htaken : m.TakenUp r ↔ m.Doomed r := by
    constructor
    · rintro ⟨u₀, hu₀, h⟩
      rw [hu] at hu₀
      cases hu₀
      simpa [hfin] using h
    · intro h
      exact ⟨u, hu, Or.inr h⟩
  constructor
  · rintro (⟨-, s, hs, -⟩ | ⟨-, s, hs, h⟩)
    · cases hk.symm.trans hs
    · cases hs
      rw [htaken] at h
      rintro ⟨hsurvives, hn⟩
      exact h.elim (fun h => h hsurvives) hn
  · intro h
    refine Or.inr ⟨hweak, r, rfl, ?_⟩
    rw [htaken]
    by_cases hs : m.Survives r
    · exact Or.inr (Classical.not_not.1 fun hd => h ⟨hs, hd⟩)
    · exact Or.inl hs

theorem loses_handle_iff (hweak : m.heap.ModeSays T 'v') (hr : m.IsHandle r a false) :
    m.Loses T (.address a, .userdata r) ↔ ¬(m.Survives r ∧ ¬m.Doomed r) := by
  obtain ⟨u, hu, -, hfin⟩ := hr
  exact loses_userdata_iff hweak rfl hu hfin

/-- The pointer table loses the handles that do not survive or are taken up, and no others. -/
theorem Interned.loses_handle_iff (hm : m.Interned) (hp : m.Registered Registry.pointers p)
    (hT : m.heap.object? p = some (.table T)) (hfind : T.find? (.address a) = some (.userdata r)) :
    m.Loses T (.address a, .userdata r) ↔ ¬(m.Survives r ∧ ¬m.Doomed r) := by
  obtain ⟨-, T₀, mt, M, hT₀, hmt, hM, hmode, -⟩ := hm.pointers p hp
  rw [hT] at hT₀
  cases hT₀
  obtain ⟨r₀, hr₀, hr⟩ := hm.isHandle_of_find? hp hT hfind
  cases hr₀
  exact Machine.loses_handle_iff ⟨mt, M, "v", hmt, hM, hmode, by decide⟩ hr

/-- The pointer table after a collection lists the handles that survive and are not taken up. -/
theorem Interned.mem_remaining_iff (hm : m.Interned) (hp : m.Registered Registry.pointers p)
    (hT : m.heap.object? p = some (.table T)) {e : Key × Value} :
    e ∈ m.remaining T ↔ e ∈ T.entries ∧ ∃ a r, e = (.address a, .userdata r) ∧ m.Survives r ∧ ¬m.Doomed r := by
  rw [Machine.mem_remaining_iff]
  refine and_congr_right fun he => ?_
  obtain ⟨a, r, rfl, -⟩ := hm.isHandle_of_mem hp hT he
  rw [hm.loses_handle_iff hp hT ((hm.wellFormed.unique _ _ hT).mem_entries_iff.1 he), Classical.not_not]
  constructor
  · intro h
    exact ⟨a, r, rfl, h⟩
  · rintro ⟨b, s, hbs, h⟩
    cases hbs
    exact h

/-- The handles after a collection that no collection has taken up. -/
theorem Interned.isHandle_swept_iff : m.swept.IsHandle r a false ↔ m.IsHandle r a false ∧ m.Survives r ∧ ¬m.Doomed r := by
  constructor
  · rintro ⟨u', hu', hpay, hfin⟩
    obtain ⟨hr, u, hu, rfl⟩ := exists_of_swept_userdata hu'
    simp only [Bool.or_eq_false_iff, decide_eq_false_iff_not, mem_doomed_iff] at hfin
    exact ⟨⟨u, hu, hpay, hfin.1⟩, hr, hfin.2⟩
  · rintro ⟨⟨u, hu, hpay, hfin⟩, hr, hn⟩
    exact ⟨_, swept_userdata hr hu, hpay, by simp [hfin, mem_doomed_iff, hn]⟩

end

/-! ### What a collection leaves of the tables of the binding layer -/

theorem Interned.swept_registry (hm : m.Interned) : m.swept.heap.object? m.swept.registry = m.heap.object? m.registry := by
  obtain ⟨R, hR, hmt⟩ := hm.registry
  exact (swept_registry_of_strong hR hmt).2

theorem Interned.swept_registered_iff (hm : m.Interned) (n : String) (t : Ref) :
    m.swept.Registered n t ↔ m.Registered n t :=
  registered_congr hm.swept_registry n t

theorem Interned.swept_guarded_iff (hm : m.Interned) (t : Ref) : m.swept.Guarded t ↔ m.Guarded t := by
  refine hm.guarded_congr (registry_swept m) hm.swept_registered_iff ?_ t
  intro p T hp hT
  exact ⟨_, swept_table (hm.survives_of_guarded (Or.inr (Or.inl ⟨_, hp⟩))) hT, rfl⟩

theorem Interned.swept_plain (hm : m.Interned) {t : Ref} (ht : m.Plain t) (hs : m.Survives t) : m.swept.Plain t := by
  obtain ⟨⟨T, hT⟩, hg⟩ := ht
  exact ⟨⟨_, swept_table hs hT⟩, mt (hm.swept_guarded_iff t).1 hg⟩

/-- A table that holds its values strongly keeps what it has under texts. -/
theorem field_remaining_of_strong {T : Table} (hT : T.Unique) (hstrong : ¬m.heap.ModeSays T 'v') (name : String) :
    Table.field { T with entries := m.remaining T } name = T.field name := by
  unfold Table.field Table.get
  cases hfind : T.find? (.string name) with
  | none =>
    have hkept := hT.find?_filter (fun e => !m.flagged.losesEntry m.survivors (m.flagged.weakMode T) e) (.string name)
    rw [hfind] at hkept
    rw [remaining, hkept]
    rfl
  | some v =>
    rw [(find?_remaining hT hfind).2]
    rintro (⟨-, s, hs, -⟩ | ⟨hmode, -⟩)
    · cases hs
    · exact hstrong hmode

/-- A text is no weak reference, so a collection leaves it. -/
theorem field_remaining_string {T : Table} (hT : T.Unique) {name text : String} (h : T.field name = .string text) :
    Table.field { T with entries := m.remaining T } name = .string text := by
  have hfind := Table.find?_of_get h (by simp)
  have hn : ¬m.Loses T (.string name, .string text) := by
    rintro (⟨-, s, hs, -⟩ | ⟨-, s, hs, -⟩) <;> cases hs
  have hkept := (find?_remaining (m := m) hT hfind).2 hn
  simp only [Table.field, Table.get, hkept, Option.getD_some]

/-- A collection leaves the pointer table with the handles it neither frees nor takes up, and weak. -/
theorem Interned.swept_pointers (hm : m.Interned) {p : Ref} (hp : m.swept.Registered Registry.pointers p) :
    (∀ n, m.swept.Registered n p → n = Registry.pointers) ∧
    ∃ T mt M, m.swept.heap.object? p = some (.table T) ∧ T.metatable = some mt ∧
      m.swept.heap.object? mt = some (.table M) ∧ M.field "__mode" = .string "v" ∧ mt ≠ m.swept.registry ∧
      (∀ n, ¬m.swept.Registered n mt) ∧
      ∀ e ∈ T.entries, ∃ a r, e = (.address a, .userdata r) ∧ m.swept.IsHandle r a false := by
  have hp' := (hm.swept_registered_iff _ p).1 hp
  obtain ⟨hname, T, mt, M, hT, hmt, hM, hmode, hmtr, hmtn, hentries⟩ := hm.pointers p hp'
  have hps := hm.survives_of_guarded (Or.inr (Or.inl ⟨_, hp'⟩))
  have hmts := hm.survives_of_guarded (Or.inr (Or.inr ⟨p, T, hp', hT, hmt⟩))
  simp only [hm.swept_registered_iff, registry_swept]
  have hmode' := field_remaining_string (m := m) (hm.wellFormed.unique _ _ hM) hmode
  refine ⟨hname, _, mt, _, swept_table hps hT, hmt, swept_table hmts hM, hmode', hmtr, hmtn, ?_⟩
  intro e he
  obtain ⟨he, a, r, rfl, hr⟩ := (hm.mem_remaining_iff hp' hT).1 he
  obtain ⟨b, s, hbs, hs⟩ := hentries _ he
  cases hbs
  exact ⟨a, r, rfl, Interned.isHandle_swept_iff.2 ⟨hs, hr⟩⟩

/-- A collection takes from the list what it takes up or frees, and nothing else. -/
theorem Interned.swept (hm : m.Interned) : m.swept.Interned := by
  have hnames := hm.swept_registered_iff
  refine ⟨wellFormed_swept hm.wellFormed, ?_, ?_, ?_, fun p hp => hm.swept_pointers hp, ?_, ?_, ?_⟩
  · rw [hm.swept_registry]
    exact hm.registry
  · obtain ⟨⟨G, hG⟩, -⟩ := hm.globals
    have hc := Heap.contains_of_object? hG
    rw [globals_swept]
    exact hm.swept_plain hm.globals (.root (Or.inl (.root (Or.inr (Or.inl rfl)) hc)) hc)
  · intro name t ht
    have ht' := (hnames name t).1 ht
    obtain ⟨hne, T, hT, hends⟩ := hm.registered name t ht'
    rw [registry_swept]
    refine ⟨hne, _, swept_table (hm.survives_of_guarded (Or.inr (Or.inl ⟨name, ht'⟩))) hT, ?_⟩
    exact Table.endsWrites_of_field hends (field_remaining (hm.wellFormed.unique _ _ hT) _)
  · intro r a hr ha
    obtain ⟨hr, hkept⟩ := Interned.isHandle_swept_iff.1 hr
    obtain ⟨p, T, hp, hT, hfind⟩ := hm.listed r a hr ha
    refine ⟨p, _, (hnames _ p).2 hp, swept_table (hm.survives_of_guarded (Or.inr (Or.inl ⟨_, hp⟩))) hT, ?_⟩
    refine (find?_remaining (hm.wellFormed.unique _ _ hT) hfind).2 ?_
    rw [hm.loses_handle_iff hp hT hfind, Classical.not_not]
    exact hkept
  · intro r u' e hu' he
    obtain ⟨hr, u, hu, rfl⟩ := exists_of_swept_userdata hu'
    have hplain := hm.environment r u e hu he
    obtain ⟨⟨S, hS⟩, -⟩ := id hplain
    exact hm.swept_plain hplain (hr.held (.environment hu he) (Heap.contains_of_object? hS))
  · intro r u' a mt hu' hpay hmt
    obtain ⟨hr, u, hu, rfl⟩ := exists_of_swept_userdata hu'
    obtain ⟨n, hn⟩ := hm.classOf r u a mt hu hpay hmt
    exact ⟨n, (hnames n mt).2 hn⟩

end Machine

end ScriptHost

import ScriptHost.Proofs.Tidy

/-!
# Making and forgetting handles

The operations of the binding layer that change its own tables, each by what it comes to on an interned machine: the table of a
class and the pointer table are made (`metatableNamed_spec`, `pointers_spec`), a handle is made and listed
(`ensureHandle_spec`), a handle is forgotten (`tidy_unregister`). From these wrapping and installing are tidy.
-/

namespace ScriptHost

variable {χ σ α β : Type}

namespace Machine

/-! ## The effect of making a handle and of forgetting one -/

/-- The second machine has a new handle for the address, with a new shadow, and a table has the handle under the address. Apart from
that it is the first machine. -/
structure Enlists (m m' : Machine χ σ) (p r e : Ref) (T : Table) (a : Address) : Prop where
  wellFormed : m'.heap.WellFormed
  registry : m'.registry = m.registry
  globals : m'.globals = m.globals
  before : m.heap.object? p = some (.table T)
  fresh : ¬m.heap.contains r = true
  fresh_shadow : ¬m.heap.contains e = true
  ne : r ≠ e
  object : ∀ s, m'.heap.object? s = if s = p then some (.table (T.set (.address a) (.userdata r)))
    else if s = r then some (.userdata ⟨.handle a, none, some e, false⟩) else if s = e then some (.table .empty)
    else m.heap.object? s

/-- In the second machine a handle stands for nothing, and a table does not have it under the address any more. Apart from that it
is the first machine. -/
structure Forgets (m m' : Machine χ σ) (p r : Ref) (T : Table) (u : Userdata) (a : Address) : Prop where
  wellFormed : m'.heap.WellFormed
  registry : m'.registry = m.registry
  globals : m'.globals = m.globals
  before : m.heap.object? p = some (.table T)
  handle : m.heap.object? r = some (.userdata u)
  payload : u.payload = .handle a
  object : ∀ s, m'.heap.object? s = if s = p then some (.table (T.set (.address a) .nil))
    else if s = r then some (.userdata { u with payload := .handle Address.null }) else m.heap.object? s

namespace Enlists

variable {m m' : Machine χ σ} {p r e s : Ref} {T : Table} {a : Address}

theorem handle_ne (h : m.Enlists m' p r e T a) : r ≠ p := (ne_of_not_contains h.fresh h.before).symm

theorem shadow_ne (h : m.Enlists m' p r e T a) : e ≠ p := (ne_of_not_contains h.fresh_shadow h.before).symm

theorem listed (h : m.Enlists m' p r e T a) :
    m'.heap.object? p = some (.table (T.set (.address a) (.userdata r))) := by
  rw [h.object, if_pos rfl]

theorem handle (h : m.Enlists m' p r e T a) : m'.heap.object? r = some (.userdata ⟨.handle a, none, some e, false⟩) := by
  rw [h.object, if_neg h.handle_ne, if_pos rfl]

theorem shadow (h : m.Enlists m' p r e T a) : m'.heap.object? e = some (.table .empty) := by
  rw [h.object, if_neg h.shadow_ne, if_neg h.ne.symm, if_pos rfl]

/-- Apart from the table that lists the handle, what was there is what it was. -/
theorem kept (h : m.Enlists m' p r e T a) (hs : s ≠ p) {o : Object χ} (ho : m.heap.object? s = some o) :
    m'.heap.object? s = some o := by
  rw [h.object, if_neg hs, if_neg (ne_of_not_contains h.fresh ho), if_neg (ne_of_not_contains h.fresh_shadow ho), ho]

/-- No other userdata is made. -/
theorem userdata_of (h : m.Enlists m' p r e T a) (s : Ref) (u : Userdata) (hs : s ≠ r)
    (hu : m'.heap.object? s = some (.userdata u)) : m.heap.object? s = some (.userdata u) := by
  rw [h.object, if_neg hs] at hu
  split at hu
  · cases hu
  · split at hu
    · cases hu
    · exact hu

end Enlists

namespace Forgets

variable {m m' : Machine χ σ} {p r s : Ref} {T : Table} {u : Userdata} {a : Address}

theorem handle_ne (h : m.Forgets m' p r T u a) : r ≠ p := (Heap.ne_of_table_of_userdata h.before h.handle).symm

theorem unlisted (h : m.Forgets m' p r T u a) : m'.heap.object? p = some (.table (T.set (.address a) .nil)) := by
  rw [h.object, if_pos rfl]

theorem forgotten (h : m.Forgets m' p r T u a) :
    m'.heap.object? r = some (.userdata { u with payload := .handle Address.null }) := by
  rw [h.object, if_neg h.handle_ne, if_pos rfl]

theorem other (h : m.Forgets m' p r T u a) (hp : s ≠ p) (hr : s ≠ r) : m'.heap.object? s = m.heap.object? s := by
  rw [h.object, if_neg hp, if_neg hr]

end Forgets

end Machine

namespace Action

variable {m : Machine χ σ}

/-! ## Tables in the registry -/

/-- A table that only knows its name leads no write anywhere. -/
theorem endsWrites_blank (name : String) : (Table.blank name).EndsWrites := by
  intro r
  have hnil : (Table.blank name).field Registry.writeName = .nil := by
    rw [Table.blank, Table.field, Table.get_set, if_neg (by decide)]
    rfl
  simp [hnil]

/-- It says `true` of nothing. -/
theorem get_blank_ne_true (name : String) (k : Key) : (Table.blank name).get k ≠ .boolean true := by
  rw [Table.blank, Table.get_set]
  split <;> nofun

/-- The table under a name is found, or a new one that knows its name is registered under it. -/
theorem exists_metatableNamed (hw : m.heap.WellFormed) {R : Table} (hR : m.heap.object? m.registry = some (.table R))
    (name : String) :
    ∃ t b m', metatableNamed name m = (.ok (t, b), m') ∧
      (m' = m ∧ m.Registered name t ∨ m.Registers m' name t (.blank name)) := by
  have hfield := Machine.registryField_of_table hR name
  by_cases hfound : ∃ t, R.field name = .table t
  · obtain ⟨t, ht⟩ := hfound
    refine ⟨t, false, m, ?_, Or.inl ⟨rfl, R, hR, ht⟩⟩
    rw [metatableNamed, bind_of_ok (query_of_ok hfield), ht]
    rfl
  have hunused : ∀ s, ¬m.Registered name s := by
    intro s hs
    exact hfound ⟨s, (Machine.registered_iff hR).1 hs⟩
  have hmake : metatableNamed name m = (newTable >>= fun mt => setField mt "__name" (.string name) >>= fun _ =>
      setRegistry name (.table mt) >>= fun _ => pure (mt, true) : Action χ σ (Ref × Bool)) m := by
    rw [metatableNamed, bind_of_ok (query_of_ok hfield)]
    cases hv : R.field name with
    | table t => exact absurd ⟨t, hv⟩ hfound
    | _ => rfl
  -- the new table is made, gets its name, and is put into the registry
  obtain ⟨mt, m₁, hnew, hfresh, h₁⟩ := exists_newTable hw
  obtain ⟨m₂, hnamed, h₂⟩ := exists_setField h₁.wellFormed h₁.self "__name" (.string name)
  have hkept : ∀ s o, m.heap.object? s = some o → m₂.heap.object? s = some o := by
    intro s o ho
    have hs := Machine.ne_of_not_contains hfresh ho
    rw [h₂.other hs, h₁.other hs, ho]
  have hregistry : m₂.registry = m.registry := h₂.registry.trans h₁.registry
  obtain ⟨m₃, hadded, h₃⟩ := exists_setRegistry h₂.wellFormed (hregistry ▸ hkept _ _ hR) name (.table mt)
  rw [hregistry] at h₃
  have hmt := (Machine.ne_of_not_contains hfresh hR).symm
  refine ⟨mt, true, m₃, ?_, Or.inr ⟨h₃.wellFormed, h₃.registry.trans hregistry, h₃.globals.trans (h₂.globals.trans h₁.globals),
    hunused, ⟨R, hR, h₃.self⟩, hfresh, (h₃.other hmt).trans h₂.self, fun s o hs ho => (h₃.other hs).trans (hkept s o ho),
    fun s u hu => h₁.userdata_of (h₂.userdata_of (h₃.userdata_of hu))⟩⟩
  rw [hmake, bind_of_ok hnew, bind_of_ok hnamed, bind_of_ok hadded]
  rfl

/-- The table under a name is found or made; the name of the pointer table is only asked for once that table is there. -/
theorem metatableNamed_spec (hm : m.Interned) (name : String) (hname : name = Registry.pointers → m.HasPointers) :
    ∃ t b m', metatableNamed name m = (.ok (t, b), m') ∧ m'.Interned ∧ m.Evolves m' ∧ m'.Registered name t := by
  obtain ⟨R, hR, -⟩ := hm.registry
  obtain ⟨t, b, m', h, ⟨rfl, hr⟩ | hregisters⟩ := exists_metatableNamed hm.wellFormed hR name
  · exact ⟨t, b, m', h, hm, .refl m', hr⟩
  · refine ⟨t, b, m', h, hregisters.interned hm (endsWrites_blank name) ?_⟩
    · intro e
      obtain ⟨p, hp⟩ := hname e
      exact absurd (e ▸ hp) (hregisters.unused p)

/-- A new weak table, with a metatable that says so. -/
theorem newWeakTable_spec (hw : m.heap.WellFormed) (mode : String) :
    ∃ t mt m', Registry.newWeakTable mode m = (.ok t, m') ∧ m'.heap.WellFormed ∧ m'.registry = m.registry ∧
      m'.globals = m.globals ∧ ¬m.heap.contains t = true ∧ ¬m.heap.contains mt = true ∧ mt ≠ t ∧
      m'.heap.object? t = some (.table { Table.empty with metatable := some mt }) ∧
      m'.heap.object? mt = some (.table (Table.empty.set (.string Registry.modeName) (.string mode))) ∧
      (∀ s o, m.heap.object? s = some o → m'.heap.object? s = some o) ∧
      ∀ s u, m'.heap.object? s = some (.userdata u) → m.heap.object? s = some (.userdata u) := by
  obtain ⟨t, m₁, hnew, hfresh, h₁⟩ := exists_newTable hw
  obtain ⟨mt, m₂, hnew', hfresh', h₂⟩ := exists_newTable h₁.wellFormed
  have hmt : t ≠ mt := Machine.ne_of_not_contains hfresh' h₁.self
  obtain ⟨m₃, hmode, h₃⟩ := exists_setField h₂.wellFormed h₂.self Registry.modeName (.string mode)
  have ht : m₃.heap.object? t = some (.table .empty) := by rw [h₃.other hmt, h₂.other hmt, h₁.self]
  obtain ⟨m₄, hset, h₄⟩ := exists_setMetatable h₃.wellFormed ht h₃.self
  refine ⟨t, mt, m₄, ?_, h₄.wellFormed, ?_, ?_, hfresh, ?_, hmt.symm, h₄.self, (h₄.other hmt.symm).trans h₃.self, ?_, ?_⟩
  · rw [Registry.newWeakTable, bind_of_ok hnew, bind_of_ok hnew', bind_of_ok hmode]
    exact bind_of_ok hset
  · rw [h₄.registry, h₃.registry, h₂.registry, h₁.registry]
  · rw [h₄.globals, h₃.globals, h₂.globals, h₁.globals]
  · intro hc
    obtain ⟨o, ho⟩ := Heap.contains_iff.1 hc
    exact hfresh' (Heap.contains_of_object? ((h₁.other hmt.symm).trans ho))
  · intro s o ho
    have hs : s ≠ t := Machine.ne_of_not_contains hfresh ho
    have hs' : s ≠ mt := Machine.ne_of_not_contains hfresh' ((h₁.other hs).trans ho)
    rw [h₄.other hs, h₃.other hs', h₂.other hs', h₁.other hs, ho]
  · intro s u hu
    exact h₁.userdata_of (h₂.userdata_of (h₃.userdata_of (h₄.userdata_of hu)))

/-- The table under a name of the binding layer is found, or a new one is registered under it, weak as the mode says. -/
theorem exists_registryTable (hw : m.heap.WellFormed) {R : Table} (hR : m.heap.object? m.registry = some (.table R))
    (name : String) (mode : Option String) :
    ∃ t m', Registry.table name mode m = (.ok t, m') ∧ (m' = m ∧ m.Registered name t ∨ ∃ T, m.Registers m' name t T ∧
      T.entries = [] ∧ (mode = none → T.metatable = none) ∧
      ∀ text, mode = some text → ∃ mt M, T.metatable = some mt ∧ ¬m.heap.contains mt = true ∧ mt ≠ t ∧
        m'.heap.object? mt = some (.table M) ∧ M.field Registry.modeName = .string text) := by
  have hfield := Machine.registryField_of_table hR name
  by_cases hfound : ∃ t, R.field name = .table t
  · obtain ⟨t, ht⟩ := hfound
    refine ⟨t, m, ?_, Or.inl ⟨rfl, R, hR, ht⟩⟩
    rw [Registry.table, bind_of_ok (query_of_ok hfield), ht]
    rfl
  have hunused : ∀ s, ¬m.Registered name s := by
    intro s hs
    exact hfound ⟨s, (Machine.registered_iff hR).1 hs⟩
  have hmake : Registry.table name mode m = ((mode.map Registry.newWeakTable).getD newTable >>= fun t =>
      setRegistry name (.table t) >>= fun _ => pure t : Action χ σ Ref) m := by
    rw [Registry.table, bind_of_ok (query_of_ok hfield)]
    cases hv : R.field name with
    | table t => exact absurd ⟨t, hv⟩ hfound
    | _ => rfl
  cases mode with
  | none =>
    obtain ⟨t, m₁, hnew, hfresh, h₁⟩ := exists_newTable hw
    have hkept : ∀ s o, m.heap.object? s = some o → m₁.heap.object? s = some o :=
      fun s o ho => (h₁.other (Machine.ne_of_not_contains hfresh ho)).trans ho
    obtain ⟨m₂, hadded, h₂⟩ := exists_setRegistry h₁.wellFormed (h₁.registry ▸ hkept _ _ hR) name (.table t)
    rw [h₁.registry] at h₂
    have htr := (Machine.ne_of_not_contains hfresh hR).symm
    refine ⟨t, m₂, ?_, Or.inr ⟨.empty, ⟨h₂.wellFormed, h₂.registry.trans h₁.registry, h₂.globals.trans h₁.globals, hunused,
      ⟨R, hR, h₂.self⟩, hfresh, (h₂.other htr).trans h₁.self, fun s o hs ho => (h₂.other hs).trans (hkept s o ho),
      fun s u hu => h₁.userdata_of (h₂.userdata_of hu)⟩, rfl, fun _ => rfl, nofun⟩⟩
    rw [hmake]
    exact (bind_of_ok hnew).trans (bind_of_ok hadded)
  | some text =>
    obtain ⟨t, mt, m₁, hnew, hw₁, hregistry, hglobals, hfresh, hfresh', hmt, ht, hM, hkept, huserdata⟩ :=
      newWeakTable_spec hw text
    obtain ⟨m₂, hadded, h₂⟩ := exists_setRegistry hw₁ (hregistry ▸ hkept _ _ hR) name (.table t)
    rw [hregistry] at h₂
    have htr := (Machine.ne_of_not_contains hfresh hR).symm
    have hmtr := (Machine.ne_of_not_contains hfresh' hR).symm
    have hregisters : m.Registers m₂ name t { Table.empty with metatable := some mt } :=
      ⟨h₂.wellFormed, h₂.registry.trans hregistry, h₂.globals.trans hglobals, hunused, ⟨R, hR, h₂.self⟩, hfresh,
        (h₂.other htr).trans ht, fun s o hs ho => (h₂.other hs).trans (hkept s o ho),
        fun s u hu => huserdata s u (h₂.userdata_of hu)⟩
    refine ⟨t, m₂, ?_, Or.inr ⟨_, hregisters, rfl, nofun, ?_⟩⟩
    · rw [hmake]
      exact (bind_of_ok hnew).trans (bind_of_ok hadded)
    · intro text' e
      cases e
      refine ⟨mt, _, rfl, hfresh', hmt, (h₂.other hmtr).trans hM, ?_⟩
      rw [Table.field, Table.get_set, if_pos rfl]

/-- The pointer table is found, or made empty and weak. No userdata is touched. -/
theorem pointers_spec (hm : m.Interned) :
    ∃ p m', Registry.table Registry.pointers (some "v") m = (.ok p, m') ∧ m'.Interned ∧ m.Evolves m' ∧
      m'.Registered Registry.pointers p ∧
      ∀ s u, m.heap.object? s = some (.userdata u) → m'.heap.object? s = some (.userdata u) := by
  obtain ⟨R, hR, -⟩ := hm.registry
  obtain ⟨t, m', h, ⟨rfl, hr⟩ | ⟨T, hregisters, hentries, -, hweak⟩⟩ :=
    exists_registryTable hm.wellFormed hR Registry.pointers (some "v")
  · exact ⟨t, m', h, hm, .refl m', hr, fun _ _ hu => hu⟩
  · have hmetatable := hweak "v" rfl
    have hends : T.EndsWrites := by
      intro r
      have hnil : T.field Registry.writeName = .nil := by
        rw [Table.field, Table.get, Table.find?, hentries]
        rfl
      simp [hnil]
    obtain ⟨hi, he, hr⟩ := hregisters.interned hm hends fun _ => ⟨hentries, hmetatable⟩
    exact ⟨t, m', h, hi, he, hr, fun s u hu => hregisters.kept s _ (Heap.ne_of_table_of_userdata hR hu).symm hu⟩

/-! ## Handles -/

/-- A handle with a shadow is made and put into a table under its address, and nothing else happens. -/
theorem exists_listHandle (hw : m.heap.WellFormed) {p : Ref} {T : Table} (hT : m.heap.object? p = some (.table T))
    (a : Address) :
    ∃ r e m', (newUserdata (.handle a) >>= fun handle => newTable >>= fun shadow =>
        setEnvironment handle (some shadow) >>= fun _ => rawSet p (.address a) (.userdata handle) >>= fun _ =>
        pure handle : Action χ σ Ref) m = (.ok r, m') ∧ m.Enlists m' p r e T a := by
  obtain ⟨r, m₁, hnew, hfresh, h₁⟩ := exists_newUserdata hw (.handle a)
  obtain ⟨e, m₂, hnew', hfresh', h₂⟩ := exists_newTable h₁.wellFormed
  have hre : r ≠ e := Machine.ne_of_not_contains hfresh' h₁.self
  obtain ⟨m₃, hshadow, h₃⟩ := exists_setEnvironment h₂.wellFormed ((h₂.other hre).trans h₁.self) h₂.self
  have hpr : p ≠ r := Machine.ne_of_not_contains hfresh hT
  have hpe : p ≠ e := Machine.ne_of_not_contains hfresh' ((h₁.other hpr).trans hT)
  have hT₃ : m₃.heap.object? p = some (.table T) := by rw [h₃.other hpr, h₂.other hpe, h₁.other hpr, hT]
  obtain ⟨m₄, hlist, h₄⟩ := exists_setAddress h₃.wellFormed hT₃ a (.userdata r)
  have hfresh'' : ¬m.heap.contains e = true := by
    intro hc
    obtain ⟨o, ho⟩ := Heap.contains_iff.1 hc
    exact hfresh' (Heap.contains_of_object? ((h₁.other hre.symm).trans ho))
  refine ⟨r, e, m₄, ?_, h₄.wellFormed, ?_, ?_, hT, hfresh, hfresh'', hre, fun s => ?_⟩
  · rw [bind_of_ok hnew, bind_of_ok hnew', bind_of_ok hshadow, bind_of_ok hlist]
    rfl
  · rw [h₄.registry, h₃.registry, h₂.registry, h₁.registry]
  · rw [h₄.globals, h₃.globals, h₂.globals, h₁.globals]
  · rw [h₄.object, h₃.object, h₂.object, h₁.object]
    by_cases hsr : s = r
    · simp [hsr, Userdata.ofPayload]
    · simp [hsr]

/-- A handle with a shadow is made and listed under an address that has none. -/
theorem makeHandle_spec (hm : m.Interned) {p : Ref} {T : Table} {a : Address}
    (hp : m.Registered Registry.pointers p) (hT : m.heap.object? p = some (.table T))
    (hnone : T.find? (.address a) = none) :
    ∃ r m', (newUserdata (.handle a) >>= fun handle => newTable >>= fun shadow =>
        setEnvironment handle (some shadow) >>= fun _ => rawSet p (.address a) (.userdata handle) >>= fun _ =>
        pure handle : Action χ σ Ref) m = (.ok r, m') ∧ m'.Interned ∧ m.Evolves m' ∧ m'.IsHandle r a false ∧
      ∀ s b f, m.IsHandle s b f → m'.IsHandle s b f := by
  obtain ⟨r, e, m', hmade, h⟩ := exists_listHandle hm.wellFormed hT a
  have hrelists : m.Relists m' p T (T.set (.address a) (.userdata r)) :=
    ⟨h.wellFormed, h.registry, h.globals, hp, hT, h.listed, by simp, fun s S hs hS => h.kept hs hS⟩
  have hold : ∀ s u, m.heap.object? s = some (.userdata u) → m'.heap.object? s = some (.userdata u) :=
    fun s u hu => h.kept (Heap.ne_of_table_of_userdata hT hu).symm hu
  obtain ⟨hi, hev⟩ := hrelists.list hm hnone h.handle h.fresh_shadow h.shadow hold h.userdata_of
  refine ⟨r, m', hmade, hi, hev, ⟨_, h.handle, rfl, rfl⟩, ?_⟩
  rintro s b f ⟨u, hu, hpay, hfin⟩
  exact ⟨u, hold s u hu, hpay, hfin⟩

/-- The handle of an address is found or made. No collection has taken it up, and the other handles are what they were. -/
theorem ensureHandle_spec (hm : m.Interned) (a : Address) :
    ∃ r m', ensureHandle a m = (.ok r, m') ∧ m'.Interned ∧ m.Evolves m' ∧ m'.HasPointers ∧ m'.IsHandle r a false ∧
      ∀ s b f, m.IsHandle s b f → m'.IsHandle s b f := by
  obtain ⟨p, m₀, hpointers, hm₀, he₀, hp, hsame⟩ := pointers_spec hm
  obtain ⟨-, T, -, -, hT, -⟩ := hm₀.pointers p hp
  have hkeep : ∀ s b f, m.IsHandle s b f → m₀.IsHandle s b f := by
    rintro s b f ⟨u, hu, hpay, hfin⟩
    exact ⟨u, hsame s u hu, hpay, hfin⟩
  have hget := Machine.rawGet_of_table hT a
  cases hfind : T.find? (.address a) with
  | some v =>
    obtain ⟨r, rfl, hr⟩ := hm₀.isHandle_of_find? hp hT hfind
    refine ⟨r, m₀, ?_, hm₀, he₀, ⟨p, hp⟩, hr, hkeep⟩
    rw [ensureHandle, bind_of_ok hpointers, bind_of_ok (query_of_ok hget), Table.get, hfind]
    rfl
  | none =>
    obtain ⟨r, m', hmade, hm', he', hr, hkeep'⟩ := makeHandle_spec hm₀ hp hT hfind
    refine ⟨r, m', ?_, hm', he₀.trans he', ⟨p, he'.registered _ p hp⟩, hr, fun s b f h => hkeep' s b f (hkeep s b f h)⟩
    rw [ensureHandle, bind_of_ok hpointers, bind_of_ok (query_of_ok hget), Table.get, hfind]
    exact hmade

/-- The table under a name is the one that is found. -/
theorem registered_of_find? (hm : m.Interned) {name : String} {t : Ref} (ht : Registry.find? m name = some t) :
    m.Registered name t := by
  obtain ⟨R, hR, -⟩ := hm.registry
  exact (Machine.find?_eq_some_iff hR).1 ht

/-- A handle is forgotten and its entry taken out of a table, and nothing else happens. -/
theorem exists_forgetHandle (hw : m.heap.WellFormed) {p r : Ref} {T : Table} {u : Userdata} {a : Address}
    (hT : m.heap.object? p = some (.table T)) (hu : m.heap.object? r = some (.userdata u)) (hpay : u.payload = .handle a) :
    ∃ m', (onHeap (fun h => h.changeUserdata r Userdata.forgetAddress) >>= fun _ =>
        rawSet p (.address a) .nil : Action χ σ Unit) m = (.ok (), m') ∧ m.Forgets m' p r T u a := by
  obtain ⟨m₁, hforget, h₁⟩ := exists_changeUserdata hw hu Userdata.forgetAddress
  have hpr : p ≠ r := Heap.ne_of_table_of_userdata hT hu
  obtain ⟨m₂, herase, h₂⟩ := exists_setAddress h₁.wellFormed ((h₁.other hpr).trans hT) a .nil
  refine ⟨m₂, ?_, h₂.wellFormed, h₂.registry.trans h₁.registry, h₂.globals.trans h₁.globals, hT, hu, hpay, fun s => ?_⟩
  · rw [bind_of_ok hforget]
    exact herase
  · rw [h₂.object, h₁.object, Userdata.forgetAddress, hpay]

/-- The handle listed for an address is forgotten. -/
theorem forgetHandle_spec (hm : m.Interned) {p r : Ref} {T : Table} {a : Address} (hp : m.Registered Registry.pointers p)
    (hT : m.heap.object? p = some (.table T)) (hfind : T.find? (.address a) = some (.userdata r)) :
    ∃ m', (onHeap (fun h => h.changeUserdata r Userdata.forgetAddress) >>= fun _ =>
        rawSet p (.address a) .nil : Action χ σ Unit) m = (.ok (), m') ∧ m'.Interned ∧ m.Evolves m' := by
  obtain ⟨s, hs, u, hu, hpay, -⟩ := hm.isHandle_of_find? hp hT hfind
  cases hs
  obtain ⟨m', hdone, h⟩ := exists_forgetHandle hm.wellFormed hT hu hpay
  have htables : ∀ s S, s ≠ p → m.heap.object? s = some (.table S) → m'.heap.object? s = some (.table S) :=
    fun s S hs hS => (h.other hs (Heap.ne_of_table_of_userdata hS hu)).trans hS
  have hrelists : m.Relists m' p T (T.erase (.address a)) :=
    ⟨h.wellFormed, h.registry, h.globals, hp, hT, h.unlisted, rfl, htables⟩
  have hsame : ∀ s v, s ≠ r →
      (m'.heap.object? s = some (.userdata v) ↔ m.heap.object? s = some (.userdata v)) := by
    intro s v hsr
    by_cases hsp : s = p
    · subst hsp
      simp [h.unlisted, hT]
    · rw [h.other hsp hsr]
  exact ⟨m', hdone, hrelists.unlist hm hfind hu h.forgotten hsame⟩

theorem tidy_unregister {K : Machine χ σ → Prop} (a : Address) : Tidy K (unregister a : Action χ σ Unit) := by
  intro m hm _
  rw [unregister, bind_of_ok (look_eq m)]
  cases hp : Registry.find? m Registry.pointers with
  | none => exact ⟨hm, .refl m⟩
  | some p =>
    have hregistered := registered_of_find? hm hp
    obtain ⟨-, T, -, -, hT, -⟩ := hm.pointers p hregistered
    simp only
    rw [bind_of_ok (query_of_ok (Machine.rawGet_of_table hT a))]
    cases hv : T.get (.address a) with
    | userdata r =>
      obtain ⟨m', h, hm', he⟩ := forgetHandle_spec hm hregistered hT (Table.find?_of_get hv (by simp))
      simp only [h]
      exact ⟨hm', he⟩
    | _ => exact ⟨hm, .refl m⟩

/-! ## Wrapping and installing -/

/-- An object of a class: its handle gets the table of the class. -/
theorem tidy_wrap {K : Machine χ σ → Prop} (a : Address) (name : String) : Tidy K (wrap a name : Action χ σ Value) := by
  unfold wrap
  split
  · exact tidy_pure _
  · intro m hm _
    obtain ⟨r, m₁, hensure, hm₁, he₁, hpointers, -, -⟩ := ensureHandle_spec hm a
    obtain ⟨t, b, m₂, hnamed, hm₂, he₂, hr⟩ := metatableNamed_spec hm₁ name fun _ => hpointers
    rw [bind_of_ok hensure, bind_of_ok hnamed]
    have hclass : Tidy (fun m : Machine χ σ => m.Registered name t)
        (setMetatable (.userdata r) (some t) >>= fun _ => pure (.userdata r) : Action χ σ Value) := by
      refine Tidy.answer ?_ _
      refine tidy_setMetatable_userdata r (some t) fun m hr _ => Or.inr fun t' ht' => ?_
      cases ht'
      exact ⟨name, hr⟩
    obtain ⟨hm₃, he₃⟩ := hclass m₂ hm₂ hr
    exact ⟨hm₃, (he₁.trans he₂).trans he₃⟩

theorem tidy_installMethods (cls : Ref) (name : String) (methods : List (String × χ)) :
    Tidy (Machine.IsClass cls) (ClassDescriptor.installMethods cls name methods : Action χ σ _) := by
  induction methods with
  | nil => exact tidy_pure _
  | cons e rest ih =>
    refine (tidy_newFunction _ _ _).bind (Machine.lasting_isClass cls) fun f => ?_
    refine (tidy_setField_class (v := .function f) cls _ (by simp) fun _ h => h).bind (Machine.lasting_isClass cls) fun _ => ?_
    exact ih.answer _

theorem tidy_publish (t : Ref) (methods : List (String × Ref)) :
    Tidy (fun m : Machine χ σ => m.Plain t) (ClassDescriptor.publish t methods) := by
  induction methods with
  | nil => exact tidy_pure _
  | cons e rest ih =>
    exact (tidy_setField_plain t _ _ fun _ h _ => h.2).bind (Machine.lasting_plain t) fun _ => ih

theorem tidy_setGlobal {K : Machine χ σ → Prop} (name : String) (v : Value) :
    Tidy K (setGlobal name v : Action χ σ Unit) := by
  refine tidy_look.bind_of (Q := fun m m' => m.globals = m'.globals) (fun m a _ _ ha => ?_) fun m => ?_
  · cases ha
    rfl
  · exact tidy_setField_plain _ _ _ fun m' h hm' => h ▸ hm'.globals.2

/-- One class, under a name that is not that of the pointer table. -/
theorem tidy_install {K : Machine χ σ → Prop} (d : ClassDescriptor χ) (hname : d.name ≠ Registry.pointers) :
    Tidy K (d.install : Action χ σ Unit) := by
  intro m hm _
  obtain ⟨cls, b, m₁, hnamed, hm₁, he₁, hr⟩ := metatableNamed_spec hm d.name fun e => absurd e hname
  unfold ClassDescriptor.install
  rw [bind_of_ok hnamed]
  have hK := Machine.lasting_isClass (χ := χ) (σ := σ) cls
  have hfunction : ∀ (name : String) (f : Ref), Tidy (Machine.IsClass cls)
      (setField cls name (.function f) : Action χ σ Unit) := fun name f =>
    tidy_setField_class cls name (by simp) fun _ h => h
  have hrest : Tidy (Machine.IsClass cls) (do
      let methods ← ClassDescriptor.installMethods cls d.name d.methods.entries
      setField cls d.name (.boolean true)
      let bases ← query (fun m => (m.baseTables d.bases).mapError (.configuration d.name))
      let reader ← Attribute.newReader d.name cls bases
      let writer ← newFunction (d.name ++ "." ++ Registry.writeName) .writeAttribute []
      let finalizer ← newFunction (d.name ++ "." ++ Registry.finalizeName) .finalizeHandle []
      setField cls Registry.readName (.function reader)
      setField cls Registry.writeName (.function writer)
      setField cls Registry.finalizeName (.function finalizer)
      setMetatable (.table cls) (some cls)
      let space ← newTable
      ClassDescriptor.publish space methods
      setGlobal (ClassDescriptor.namespaceName d.name) (.table space) : Action χ σ Unit) := by
    refine (tidy_installMethods cls _ _).bind hK fun methods => ?_
    refine (tidy_setField_class (v := .boolean true) cls _ (by simp) fun _ h => h).bind hK fun _ => ?_
    refine (tidy_query _).bind hK fun bases => (tidy_newFunction _ _ _).bind hK fun reader => ?_
    refine (tidy_newFunction _ _ _).bind hK fun writer => (tidy_newFunction _ _ _).bind hK fun finalizer => ?_
    refine (hfunction _ _).bind hK fun _ => (hfunction _ _).bind hK fun _ => (hfunction _ _).bind hK fun _ => ?_
    refine (tidy_setMetatable_table cls _ fun _ h _ _ => h).bind hK fun _ => ?_
    refine tidy_newTable.bind_of (Q := fun t m => m.Plain t) (fun m t hm _ ht => plain_newTable hm ht) fun space => ?_
    exact (tidy_publish space methods).bind (Machine.lasting_plain space) fun _ => tidy_setGlobal _ _
  obtain ⟨hm₂, he₂⟩ := hrest m₁ hm₁ ⟨d.name, hname, hr⟩
  exact ⟨hm₂, he₁.trans he₂⟩

/-- Classes that pass the check do not have a name of the binding layer. -/
theorem not_reserved_of_checkClasses {listed : List String} {classes : List (ClassDescriptor χ)}
    (h : m.checkClasses listed classes = .ok ()) : ∀ d ∈ classes, d.name ∉ Registry.reserved := by
  induction classes generalizing listed with
  | nil => simp
  | cons d rest ih =>
    unfold Machine.checkClasses at h
    cases hd : m.checkClass listed d with
    | error cause => simp [hd] at h
    | ok _ =>
      rw [hd] at h
      intro d' hd'
      rcases List.mem_cons.1 hd' with rfl | hd'
      · intro hmem
        unfold Machine.checkClass at hd
        split at hd
        · cases hd
        · simp [hmem] at hd
      · exact ih h d' hd'

/-- Classes one after another, under names that are not that of the pointer table. -/
theorem tidy_installEach {K : Machine χ σ → Prop} (classes : List (ClassDescriptor χ))
    (hnames : ∀ d ∈ classes, d.name ≠ Registry.pointers) :
    Tidy K (ClassDescriptor.installEach classes : Action χ σ Unit) := by
  induction classes generalizing K with
  | nil => exact tidy_pure _
  | cons d rest ih =>
    refine (tidy_install d (hnames d (by simp))).bind_of (Q := fun _ _ => True) (fun _ _ _ _ _ => trivial) fun _ => ?_
    exact ih fun d' hd' => hnames d' (List.mem_cons_of_mem _ hd')

theorem tidy_installAll {K : Machine χ σ → Prop} (classes : List (ClassDescriptor χ)) :
    Tidy K (ClassDescriptor.installAll classes : Action χ σ Unit) := by
  refine (tidy_query _).bind_of (Q := fun _ _ => ∀ d ∈ classes, d.name ≠ Registry.pointers)
    (fun m _ _ _ h d hd e => not_reserved_of_checkClasses h d hd (e ▸ by decide)) fun _ => ?_
  exact fun m hm hnames => tidy_installEach (K := fun _ => True) classes hnames m hm trivial

end Action

end ScriptHost

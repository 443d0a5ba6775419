import ScriptHost.Proofs.Edits

/-!
# The tables of the binding layer, all of them

The binding layer keeps four entries in the registry: the pointer table, the reference cells with the number of the next one, and
the enumerations. Native code may do what it likes as long as it leaves to the binding layer what is the binding layer's
(`Machine.Sealed`): the registry, the tables in it, and the metatables that make tables of the binding layer weak. On every machine
of such a run the tables are as they were made (`Machine.Orderly`), hold what they are meant for (`Machine.Stocked`), and the
pointer table lists the handles that no collection has taken up, each with a shadow (`Machine.Rostered`).
-/

namespace ScriptHost

variable {χ σ : Type}

/-- What a table under a name of the binding layer holds weakly, if anything. -/
def Registry.modeOf (name : String) : Option String :=
  if name = pointers then some "v" else if name = cells then some "kv" else none

theorem Registry.modeOf_pointers : modeOf pointers = some "v" := by decide

theorem Registry.modeOf_cells : modeOf cells = some "kv" := by decide

theorem Registry.modeOf_enumerations : modeOf enumerations = none := by decide

namespace Machine

/-- The metatable of a table under a name of the binding layer. -/
def Badge (m : Machine χ σ) (t : Ref) : Prop :=
  ∃ name ∈ Registry.reserved, ∃ p T, m.Registered name p ∧ m.heap.object? p = some (.table T) ∧ T.metatable = some t

/-- What native code leaves to the binding layer: the registry, the tables in it, and what says that they are weak. -/
def Sealed (m : Machine χ σ) (t : Ref) : Prop := t = m.registry ∨ (∃ name, m.Registered name t) ∨ m.Badge t

/-- A table of the binding layer as it is made: weak as its name says, by a metatable of its own, or without a metatable. -/
def Badged (m : Machine χ σ) (name : String) (T : Table) : Prop :=
  (Registry.modeOf name = none → T.metatable = none) ∧
    ∀ mode, Registry.modeOf name = some mode → ∃ mt M, T.metatable = some mt ∧ m.heap.object? mt = some (.table M) ∧
      M.field Registry.modeName = .string mode ∧ mt ≠ m.registry ∧ ∀ n, ¬m.Registered n mt

/-- The entries of the binding layer are as they were made, no chain of writes that begins at an object of a class and no
environment leads to one of them, and where it is strict handles have classes that are classes. -/
structure Orderly (strict : Prop) (m : Machine χ σ) : Prop where
  unshared : m.Unshared False
  entry : ∀ R, m.heap.object? m.registry = some (.table R) → ∀ name, R.field name = .nil ∨
    if name = Registry.nextCell then ∃ i, R.field name = .integer i else ∃ t, R.field name = .table t
  badged : ∀ name ∈ Registry.reserved, ∀ p T, m.Registered name p → m.heap.object? p = some (.table T) → m.Badged name T
  globals : ¬m.Badge m.globals
  environment : ∀ r u e, m.heap.object? r = some (.userdata u) → u.environment = some e → ¬m.Sealed e
  classes : ∀ name ∉ Registry.reserved, ∀ t T, m.Registered name t → m.heap.object? t = some (.table T) → T.EndsWrites
  classOf : strict → ∀ r u a mt, m.heap.object? r = some (.userdata u) → u.payload = .handle a → u.metatable = some mt →
    ∃ name ∉ Registry.reserved, m.Registered name mt

/-- The cells are listed under integers, and the enumerations are tables. -/
structure Stocked (m : Machine χ σ) : Prop where
  cells : ∀ c C, m.Registered Registry.cells c → m.heap.object? c = some (.table C) →
    ∀ e ∈ C.entries, ∃ i, e.1 = .integer i
  enumerations : ∀ d D, m.Registered Registry.enumerations d → m.heap.object? d = some (.table D) →
    ∀ e ∈ D.entries, ∃ t T, e.2 = .table t ∧ m.heap.object? t = some (.table T)

/-- The pointer table has the handle under the address. -/
def Lists (m : Machine χ σ) (a : Address) (r : Ref) : Prop :=
  ∃ p T, m.Registered Registry.pointers p ∧ m.heap.object? p = some (.table T) ∧ T.find? (.address a) = some (.userdata r)

/-- The pointer table lists handles that no collection has taken up, and every such handle for an address other than null. A
handle has a shadow, which is not the globals. -/
structure Rostered (m : Machine χ σ) : Prop where
  listing : ∀ p T, m.Registered Registry.pointers p → m.heap.object? p = some (.table T) →
    ∀ e ∈ T.entries, ∃ a r, e = (.address a, .userdata r) ∧ m.IsHandle r a false
  listed : ∀ r a, m.IsHandle r a false → a ≠ Address.null → m.Lists a r
  shadow : ∀ r u a, m.heap.object? r = some (.userdata u) → u.payload = .handle a →
    ∃ e, u.environment = some e ∧ e ≠ m.globals

/-- The machine as the binding layer keeps it. -/
structure Managed (strict : Prop) (m : Machine χ σ) : Prop where
  orderly : m.Orderly strict
  stocked : m.Stocked
  rostered : m.Rostered

variable {strict : Prop} {m m' : Machine χ σ} {t : Ref} {name : String}

/-! ## What it is about -/

theorem Orderly.wellFormed (hm : m.Orderly strict) : m.heap.WellFormed := hm.unshared.wellFormed

theorem Sealed.of_registered (h : m.Registered name t) : m.Sealed t := Or.inr (Or.inl ⟨name, h⟩)

theorem Sealed.of_badge (h : m.Badge t) : m.Sealed t := Or.inr (Or.inr h)

/-- A table of the binding layer has a name of its own. -/
theorem Orderly.name_eq (hm : m.Orderly strict) {name' : String} (h : m.Registered name t) (h' : m.Registered name' t) :
    name = name' :=
  hm.unshared.single name name' t h h'

/-- The number of the next cell is no table. -/
theorem Orderly.not_registered_nextCell (hm : m.Orderly strict) : ¬m.Registered Registry.nextCell t := by
  rintro ⟨R, hR, ht⟩
  rcases hm.entry R hR Registry.nextCell with h | h
  · rw [ht] at h
    cases h
  · rw [if_pos rfl] at h
    obtain ⟨i, hi⟩ := h
    rw [ht] at hi
    cases hi

/-- A badge says what is weak, and is no table in the registry. -/
theorem Orderly.of_badge (hm : m.Orderly strict) (h : m.Badge t) :
    (∃ T, m.heap.object? t = some (.table T)) ∧ t ≠ m.registry ∧ ∀ n, ¬m.Registered n t := by
  obtain ⟨name, hname, p, T, hp, hT, hmt⟩ := h
  obtain ⟨hnone, hsome⟩ := hm.badged name hname p T hp hT
  cases hmode : Registry.modeOf name with
  | none =>
    rw [hnone hmode] at hmt
    cases hmt
  | some mode =>
    obtain ⟨mt, M, hmt', hM, -, hne, hn⟩ := hsome mode hmode
    rw [hmt] at hmt'
    cases hmt'
    exact ⟨⟨M, hM⟩, hne, hn⟩

theorem Orderly.exists_of_sealed (hm : m.Orderly strict) (h : m.Sealed t) : ∃ T, m.heap.object? t = some (.table T) := by
  rcases h with rfl | ⟨name, h⟩ | h
  · obtain ⟨R, hR, -⟩ := hm.unshared.registry
    exact ⟨R, hR⟩
  · exact (hm.unshared.registered name t h).2
  · exact (hm.of_badge h).1

/-- The globals are not sealed. -/
theorem Orderly.not_sealed_globals (hm : m.Orderly strict) : ¬m.Sealed m.globals := by
  rintro (h | ⟨name, h⟩ | h)
  · exact hm.unshared.globals.1 h
  · exact hm.unshared.globals.2.1 name h
  · exact hm.globals h

/-- What the registry has under a name is there. -/
theorem Orderly.find?_eq_some_iff (hm : m.Orderly strict) : Registry.find? m name = some t ↔ m.Registered name t :=
  hm.unshared.find?_eq_some_iff

/-- What the pointer table has under an address is a handle that no collection has taken up, or nothing. -/
theorem Managed.find?_pointers (hm : m.Managed strict) {p : Ref} {T : Table} {a : Address}
    (hp : m.Registered Registry.pointers p) (hT : m.heap.object? p = some (.table T)) {v : Value}
    (hv : T.find? (.address a) = some v) : ∃ r, v = .userdata r ∧ m.IsHandle r a false := by
  obtain ⟨b, r, he, hr⟩ := hm.rostered.listing p T hp hT _ (Table.mem_of_find? hv)
  cases he
  exact ⟨r, rfl, hr⟩

/-- What is listed is a handle for its address that no collection has taken up. -/
theorem Managed.isHandle_of_lists (hm : m.Managed strict) {a : Address} {r : Ref} (h : m.Lists a r) : m.IsHandle r a false := by
  obtain ⟨p, T, hp, hT, hfind⟩ := h
  obtain ⟨s, hs, hr⟩ := hm.find?_pointers hp hT hfind
  cases hs
  exact hr

/-! ## New machines, and changes beside the heap -/

/-- All of it is a matter of the heap. -/
theorem Managed.of_heap_eq (hm : m.Managed strict) (hheap : m'.heap = m.heap) (hregistry : m'.registry = m.registry)
    (hglobals : m'.globals = m.globals) : m'.Managed strict := by
  have hnames : ∀ name t, m'.Registered name t ↔ m.Registered name t := fun name t =>
    registered_congr (by rw [hheap, hregistry]) name t
  have hbadge : ∀ t, m'.Badge t ↔ m.Badge t := fun t => by simp only [Badge, hnames, hheap]
  have hsealed : ∀ t, m'.Sealed t ↔ m.Sealed t := fun t => by simp only [Sealed, hregistry, hnames, hbadge]
  have hbadged : ∀ name T, m'.Badged name T ↔ m.Badged name T := fun name T => by
    simp only [Badged, hheap, hregistry, hnames]
  have hhandle : ∀ r a f, m'.IsHandle r a f ↔ m.IsHandle r a f := fun r a f => by simp only [IsHandle, hheap]
  have hlists : ∀ a r, m'.Lists a r ↔ m.Lists a r := fun a r => by simp only [Lists, hnames, hheap]
  obtain ⟨⟨hunshared, hentry, hbadges, hnot, henvironment, hclasses, hclassOf⟩, ⟨hcells, henumerations⟩, hlisting, hlisted,
    hshadow⟩ := hm
  refine ⟨⟨hunshared.of_heap_eq hheap hregistry hglobals, ?_, ?_, ?_, ?_, ?_, ?_⟩, ⟨?_, ?_⟩, ?_, ?_, ?_⟩
  · simpa only [hheap, hregistry] using hentry
  · simpa only [hheap, hnames, hbadged] using hbadges
  · simpa only [hglobals, hbadge] using hnot
  · simpa only [hheap, hsealed] using henvironment
  · simpa only [hheap, hnames] using hclasses
  · simpa only [hheap, hnames] using hclassOf
  · simpa only [hheap, hnames] using hcells
  · simpa only [hheap, hnames] using henumerations
  · simpa only [hheap, hnames, hhandle] using hlisting
  · simpa only [hlists, hhandle] using hlisted
  · simpa only [hheap, hglobals] using hshadow

/-- On a new machine the binding layer has no tables yet. -/
theorem managed_start (limits : Limits) (host : σ) : (start limits host : Machine χ σ).Managed strict := by
  have hnone := not_registered_start (χ := χ) limits host
  have huserdata : ∀ r u, (start limits host : Machine χ σ).heap.object? r ≠ some (.userdata u) :=
    fun r u hu => nomatch eq_empty_of_start hu
  have hbadge : ∀ t, ¬(start limits host : Machine χ σ).Badge t := fun t ⟨name, _, p, _, h, _⟩ => hnone name p h
  refine ⟨⟨unshared_start limits host, fun R hR name => Or.inl ?_, fun name _ p _ h => (hnone name p h).elim, hbadge _,
    fun r u _ hu => (huserdata r u hu).elim, fun name _ t _ h => (hnone name t h).elim,
    fun _ r u _ _ hu => (huserdata r u hu).elim⟩, ⟨fun c _ h => (hnone _ c h).elim, fun d _ h => (hnone _ d h).elim⟩,
    fun p _ h => (hnone _ p h).elim, fun r _ ⟨u, hu, _⟩ => (huserdata r u hu).elim, fun r u _ hu => (huserdata r u hu).elim⟩
  cases (rfl : (start limits host : Machine χ σ).heap.object? ⟨0, 0⟩ = some (.table .empty)).symm.trans hR
  rfl

end Machine

end ScriptHost

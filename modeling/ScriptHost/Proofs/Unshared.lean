import Mathlib.Logic.Relation
import ScriptHost.Proofs.Discipline
import ScriptHost.Proofs.Handles

/-!
# Names of their own

No two names of the registry have one table (`Machine.Unshared`). Changes of the machine that leave the registry to the operations
of the binding layer keep that (`Machine.Edit`), and so does a collection. The tables of classes may in addition be closed to
native code: an edit of the machine then writes none of them.
-/

namespace ScriptHost

variable {χ σ : Type}

namespace Machine

/-- The table of a class, where native code may not write the tables of classes. -/
def Closed (closed : Prop) (m : Machine χ σ) (t : Ref) : Prop :=
  closed ∧ ∃ name, name ∉ Registry.reserved ∧ m.Registered name t

/-- Native code may write what is there: neither the registry nor a closed table. -/
def Writable (closed : Prop) (m : Machine χ σ) (t : Ref) : Prop := t ≠ m.registry ∧ ¬m.Closed closed t

/-- A table that native code may write. -/
def Open (closed : Prop) (m : Machine χ σ) (t : Ref) : Prop :=
  (∃ T, m.heap.object? t = some (.table T)) ∧ m.Writable closed t

/-- The registry and the globals are tables, each name of the registry has a table of its own, and no environment is a table
that native code may not write. -/
structure Unshared (closed : Prop) (m : Machine χ σ) : Prop where
  wellFormed : m.heap.WellFormed
  registry : ∃ R, m.heap.object? m.registry = some (.table R) ∧ R.metatable = none
  globals : m.globals ≠ m.registry ∧ (∀ name, ¬m.Registered name m.globals) ∧
    ∃ G, m.heap.object? m.globals = some (.table G)
  registered : ∀ name t, m.Registered name t → t ≠ m.registry ∧ ∃ T, m.heap.object? t = some (.table T)
  single : ∀ name name' t, m.Registered name t → m.Registered name' t → name = name'
  environment : ∀ r u e, m.heap.object? r = some (.userdata u) → u.environment = some e → m.Open closed e

variable {closed : Prop} {m m' : Machine χ σ} {t : Ref}

theorem Unshared.contains_of_registered (hm : m.Unshared closed) {name : String} (h : m.Registered name t) :
    m.heap.contains t = true := by
  obtain ⟨-, T, hT⟩ := hm.registered name t h
  exact Heap.contains_of_object? hT

/-- A table of the binding layer itself is no table of a class. -/
theorem Unshared.open_of_reserved (hm : m.Unshared closed) {name : String} (hname : name ∈ Registry.reserved)
    (h : m.Registered name t) : m.Open closed t := by
  obtain ⟨hne, hT⟩ := hm.registered name t h
  refine ⟨hT, hne, ?_⟩
  rintro ⟨-, name', hname', h'⟩
  exact hname' (hm.single name name' t h h' ▸ hname)

theorem Unshared.find?_eq_some_iff (hm : m.Unshared closed) {name : String} :
    Registry.find? m name = some t ↔ m.Registered name t := by
  obtain ⟨R, hR, -⟩ := hm.registry
  exact Machine.find?_eq_some_iff hR

/-- A new machine has no names. -/
theorem not_registered_start (limits : Limits) (host : σ) (name : String) (t : Ref) :
    ¬(start limits host : Machine χ σ).Registered name t := by
  rintro ⟨R, hR, ht⟩
  cases (rfl : (start limits host : Machine χ σ).heap.object? ⟨0, 0⟩ = some (.table .empty)).symm.trans hR
  cases ht

theorem unshared_start (limits : Limits) (host : σ) : (start limits host : Machine χ σ).Unshared closed := by
  have hm := (interned_start limits host : (start limits host : Machine χ σ).Interned)
  have hnone := not_registered_start (χ := χ) limits host
  refine ⟨hm.wellFormed, hm.registry, ⟨fun e => Nat.one_ne_zero (congrArg Ref.slot e), fun name => hnone name _, hm.globals.1⟩,
    fun name t h => (hnone name t h).elim, fun name _ t h => (hnone name t h).elim, fun r u e hu he => ?_⟩
  obtain ⟨hT, hg⟩ := hm.environment r u e hu he
  exact ⟨hT, fun h => hg (Or.inl h), fun ⟨_, name, _, h⟩ => hnone name e h⟩

/-- It is a matter of the heap. -/
theorem Unshared.of_heap_eq (hm : m.Unshared closed) (hheap : m'.heap = m.heap) (hregistry : m'.registry = m.registry)
    (hglobals : m'.globals = m.globals) : m'.Unshared closed := by
  have hnames : ∀ name t, m'.Registered name t ↔ m.Registered name t := fun name t =>
    registered_congr (by rw [hheap, hregistry]) name t
  have hopen : ∀ t, m'.Open closed t ↔ m.Open closed t := by
    intro t
    simp only [Open, Writable, Closed, hheap, hregistry, hnames]
  refine ⟨hheap ▸ hm.wellFormed, ?_, ?_, ?_, ?_, ?_⟩
  · simpa only [hheap, hregistry] using hm.registry
  · simpa only [hheap, hregistry, hglobals, hnames] using hm.globals
  · simpa only [hheap, hregistry, hnames] using hm.registered
  · simpa only [hnames] using hm.single
  · simpa only [hheap, hopen] using hm.environment

/-! ## Edits -/

/-- One change of the machine that leaves the registry and the closed tables alone, except that a new table may get a name, which
is blank if it is that of a class, and that an entry of the registry may become something other than a table, if it is no table of
a class. -/
inductive Edit (closed : Prop) (m m' : Machine χ σ) : Prop where
  | still (heap : m'.heap = m.heap) (registry : m'.registry = m.registry) (globals : m'.globals = m.globals)
  | new {r : Ref} {o : Object χ} (h : m.Written m' r o) (fresh : ¬m.heap.contains r = true) (other : r ≠ m.registry)
      (bare : ∀ u, o = .userdata u → u.environment = none)
  | table {t : Ref} {T : Table} (h : m.Written m' t (.table T)) (ht : m.Open closed t)
  | userdata {r : Ref} {u u' : Userdata} (h : m.Written m' r (.userdata u')) (hu : m.heap.object? r = some (.userdata u))
      (other : r ≠ m.registry) (environment : ∀ e, u'.environment = some e → u.environment = some e ∨ m.Open closed e)
  | entry {R : Table} {k : Key} {v : Value} (h : m.Written m' m.registry (.table (R.set k v)))
      (hR : m.heap.object? m.registry = some (.table R)) (value : ∀ t, v ≠ .table t)
      (key : ∀ name t, k = .string name → m.Registered name t → name ∈ Registry.reserved)
  | named {name : String} {t : Ref} {T : Table} (h : m.Registers m' name t T)
      (blank : name ∉ Registry.reserved → T = .blank name)

namespace Edit

variable {name : String}

theorem registry (h : m.Edit closed m') : m'.registry = m.registry := by
  cases h with
  | still _ hr _ => exact hr
  | new h => exact h.registry
  | table h => exact h.registry
  | userdata h => exact h.registry
  | entry h => exact h.registry
  | named h => exact h.registry

theorem globals (h : m.Edit closed m') : m'.globals = m.globals := by
  cases h with
  | still _ _ hg => exact hg
  | new h => exact h.globals
  | table h => exact h.globals
  | userdata h => exact h.globals
  | entry h => exact h.globals
  | named h => exact h.globals

theorem wellFormed (h : m.Edit closed m') (hw : m.heap.WellFormed) : m'.heap.WellFormed := by
  cases h with
  | still hh _ _ => exact hh ▸ hw
  | new h => exact h.wellFormed
  | table h => exact h.wellFormed
  | userdata h => exact h.wellFormed
  | entry h => exact h.wellFormed
  | named h => exact h.wellFormed

/-- What an edit may change: a table that is open, the registry, or a userdata. -/
theorem object?_eq (h : m.Edit closed m') {o : Object χ} (ho : m.heap.object? t = some o) (hne : t ≠ m.registry)
    (ht : ∀ T, o = .table T → ¬m.Open closed t) (hu : ∀ u, o ≠ .userdata u) : m'.heap.object? t = some o := by
  cases h with
  | still hh _ _ => rw [hh, ho]
  | new h fresh => rw [h.other (ne_of_not_contains fresh ho), ho]
  | @table s _ h hs =>
    rw [h.other ?_, ho]
    rintro rfl
    obtain ⟨⟨S, hS⟩, -⟩ := id hs
    exact ht S (Option.some.inj (ho.symm.trans hS)) hs
  | @userdata r u _ h hr =>
    rw [h.other ?_, ho]
    rintro rfl
    exact hu u (Option.some.inj (ho.symm.trans hr))
  | entry h => rw [h.other hne, ho]
  | named h => exact h.kept t o hne ho

theorem exists_table (h : m.Edit closed m') {T : Table} (hT : m.heap.object? t = some (.table T)) :
    ∃ T', m'.heap.object? t = some (.table T') := by
  by_cases hne : t = m.registry
  · subst hne
    cases h with
    | still hh _ _ => exact ⟨T, by rw [hh, hT]⟩
    | new h _ other => exact ⟨T, by rw [h.other other.symm, hT]⟩
    | table h ht => exact ⟨T, by rw [h.other ht.2.1.symm, hT]⟩
    | userdata h _ other => exact ⟨T, by rw [h.other other.symm, hT]⟩
    | entry h => exact ⟨_, h.self⟩
    | named h =>
      obtain ⟨R, -, hR⟩ := h.added
      exact ⟨_, hR⟩
  · by_cases ht : m.Open closed t
    · cases h with
      | still hh _ _ => exact ⟨T, by rw [hh, hT]⟩
      | new h fresh => exact ⟨T, by rw [h.other (ne_of_not_contains fresh hT), hT]⟩
      | @table s S h _ =>
        by_cases hs : t = s
        · exact ⟨S, hs ▸ h.self⟩
        · exact ⟨T, by rw [h.other hs, hT]⟩
      | userdata h hu => exact ⟨T, by rw [h.other (Heap.ne_of_table_of_userdata hT hu), hT]⟩
      | entry h => exact ⟨T, by rw [h.other hne, hT]⟩
      | named h => exact ⟨T, h.kept t _ hne hT⟩
    · exact ⟨T, h.object?_eq hT hne (fun _ _ => ht) nofun⟩

/-- What an edit does to the names: a table that was not there has got one, and is blank if that is the name of a class. -/
theorem registered_of (h : m.Edit closed m') (ht : m'.Registered name t) :
    m.Registered name t ∨ ¬m.heap.contains t = true ∧ (∀ n, m'.Registered n t → m.Registered n t ∨ n = name) ∧
      ∃ T, m'.heap.object? t = some (.table T) ∧ (name ∉ Registry.reserved → T = .blank name) := by
  have hsame : m'.heap.object? m'.registry = m.heap.object? m.registry → m.Registered name t :=
    fun e => (registered_congr e name t).1 ht
  cases h with
  | still hh hr _ => exact Or.inl (hsame (by rw [hh, hr]))
  | new h _ other => exact Or.inl (hsame (by rw [h.registry, h.other other.symm]))
  | table h hs => exact Or.inl (hsame (by rw [h.registry, h.other hs.2.1.symm]))
  | userdata h _ other => exact Or.inl (hsame (by rw [h.registry, h.other other.symm]))
  | @entry R k v h hR value =>
    have hR' : m'.heap.object? m'.registry = some (.table (R.set k v)) := h.registry ▸ h.self
    rw [Machine.registered_iff hR', Table.field, Table.get_set] at ht
    split at ht
    · exact absurd ht (value t)
    · exact Or.inl ⟨R, hR, ht⟩
  | @named n s S h blank =>
    rcases (h.registered_iff name t).1 ht with ⟨rfl, rfl⟩ | ⟨-, ht⟩
    · refine Or.inr ⟨h.fresh, fun n' h' => ?_, S, h.table, blank⟩
      exact ((h.registered_iff n' t).1 h').elim (fun e => Or.inr e.1) fun e => Or.inl e.2
    · exact Or.inl ht

/-- The tables of classes keep their names. -/
theorem registered (h : m.Edit closed m') (hname : name ∉ Registry.reserved) (ht : m.Registered name t) :
    m'.Registered name t := by
  have hsame : m'.heap.object? m'.registry = m.heap.object? m.registry → m'.Registered name t :=
    fun e => (registered_congr e name t).2 ht
  cases h with
  | still hh hr _ => exact hsame (by rw [hh, hr])
  | new h _ other => exact hsame (by rw [h.registry, h.other other.symm])
  | table h hs => exact hsame (by rw [h.registry, h.other hs.2.1.symm])
  | userdata h _ other => exact hsame (by rw [h.registry, h.other other.symm])
  | @entry R k v h hR _ key =>
    have hR' : m'.heap.object? m'.registry = some (.table (R.set k v)) := h.registry ▸ h.self
    rw [Machine.registered_iff hR', Table.field, Table.get_set, if_neg]
    · exact (Machine.registered_iff hR).1 ht
    · exact fun e => hname (key name t e.symm ht)
  | named h _ => exact h.registered ht

/-- An open table stays open. -/
theorem «open» (h : m.Edit closed m') (ht : m.Open closed t) : m'.Open closed t := by
  obtain ⟨⟨T, hT⟩, hne, hc⟩ := ht
  refine ⟨h.exists_table hT, h.registry.symm ▸ hne, ?_⟩
  rintro ⟨hclosed, name, hname, hr⟩
  rcases h.registered_of hr with hr | ⟨hfresh, -⟩
  · exact hc ⟨hclosed, name, hname, hr⟩
  · exact hfresh (Heap.contains_of_object? hT)

/-- What was there is there. -/
theorem contains (h : m.Edit closed m') (ht : m.heap.contains t = true) : m'.heap.contains t = true := by
  obtain ⟨o, ho⟩ := Heap.contains_iff.1 ht
  cases h with
  | still hh _ _ => rwa [hh]
  | new h fresh => exact Heap.contains_of_object? ((h.other (ne_of_not_contains fresh ho)).trans ho)
  | named h _ =>
    by_cases hne : t = m.registry
    · subst hne
      obtain ⟨R, -, hR⟩ := h.added
      exact Heap.contains_of_object? hR
    · exact Heap.contains_of_object? (h.kept t o hne ho)
  | table h | userdata h | entry h =>
    unfold Heap.contains
    rw [h.object]
    split
    · rfl
    · exact ht

/-- The environments after an edit are those before it, or open tables. -/
theorem environment (h : m.Edit closed m') {r e : Ref} {u : Userdata} (hu : m'.heap.object? r = some (.userdata u))
    (he : u.environment = some e) :
    m.Open closed e ∨ ∃ u', m.heap.object? r = some (.userdata u') ∧ u'.environment = some e := by
  cases h with
  | still hh _ _ => exact Or.inr ⟨u, by rw [← hh, hu], he⟩
  | @new s o h fresh other bare =>
    rw [h.object] at hu
    split at hu
    · rw [bare u (Option.some.inj hu)] at he
      cases he
    · exact Or.inr ⟨u, hu, he⟩
  | table h _ => exact Or.inr ⟨u, h.userdata_of hu, he⟩
  | @userdata s w w' h hw _ environment =>
    rw [h.object] at hu
    split at hu
    · subst s
      cases hu
      exact (environment e he).symm.imp_right fun he => ⟨w, hw, he⟩
    · exact Or.inr ⟨u, hu, he⟩
  | entry h => exact Or.inr ⟨u, h.userdata_of hu, he⟩
  | named h _ => exact Or.inr ⟨u, h.userdata r u hu, he⟩

/-- The registry has no metatable before and after. -/
theorem registry_metatable (h : m.Edit closed m') (hR : ∃ R, m.heap.object? m.registry = some (.table R) ∧ R.metatable = none) :
    ∃ R, m'.heap.object? m'.registry = some (.table R) ∧ R.metatable = none := by
  rw [h.registry]
  obtain ⟨R, hR, hmt⟩ := hR
  cases h with
  | still hh _ _ => exact ⟨R, by rw [hh, hR], hmt⟩
  | new h _ other => exact ⟨R, by rw [h.other other.symm, hR], hmt⟩
  | table h hs => exact ⟨R, by rw [h.other hs.2.1.symm, hR], hmt⟩
  | userdata h _ other => exact ⟨R, by rw [h.other other.symm, hR], hmt⟩
  | @entry R' k v h hR' =>
    cases hR.symm.trans hR'
    exact ⟨_, h.self, by rw [Table.metatable_set, hmt]⟩
  | named h _ =>
    obtain ⟨R', hR', hR''⟩ := h.added
    cases hR.symm.trans hR'
    exact ⟨_, hR'', by rw [Table.metatable_set, hmt]⟩

/-- Edits leave each name with a table of its own. -/
theorem unshared (h : m.Edit closed m') (hm : m.Unshared closed) : m'.Unshared closed where
  wellFormed := h.wellFormed hm.wellFormed
  registry := h.registry_metatable hm.registry
  globals := by
    obtain ⟨hne, hnone, G, hG⟩ := hm.globals
    rw [h.globals, h.registry]
    refine ⟨hne, fun name hr => ?_, h.exists_table hG⟩
    rcases h.registered_of hr with hr | ⟨hfresh, -⟩
    · exact hnone name hr
    · exact hfresh (Heap.contains_of_object? hG)
  registered name t ht := by
    rw [h.registry]
    rcases h.registered_of ht with ht | ⟨hfresh, -, T, hT, -⟩
    · obtain ⟨hne, T, hT⟩ := hm.registered name t ht
      exact ⟨hne, h.exists_table hT⟩
    · obtain ⟨R, hR, -⟩ := hm.registry
      exact ⟨(ne_of_not_contains hfresh hR).symm, T, hT⟩
  single name name' t ht ht' := by
    rcases h.registered_of ht with hold | ⟨hfresh, hnames, -⟩
    · rcases h.registered_of ht' with hold' | ⟨hfresh, -⟩
      · exact hm.single name name' t hold hold'
      · exact absurd (hm.contains_of_registered hold) hfresh
    · rcases hnames name' ht' with hold' | e
      · exact absurd (hm.contains_of_registered hold') hfresh
      · exact e.symm
  environment r u e hu he := by
    rcases h.environment hu he with ho | ⟨u', hu', he'⟩
    · exact h.open ho
    · exact h.open (hm.environment r u' e hu' he')

end Edit

/-! ## A collection -/

theorem Unshared.swept_registered_iff (hm : m.Unshared closed) (name : String) (t : Ref) :
    m.swept.Registered name t ↔ m.Registered name t := by
  obtain ⟨R, hR, hmt⟩ := hm.registry
  exact registered_congr (swept_registry_of_strong hR hmt).2 name t

theorem Unshared.survives (hm : m.Unshared closed) {name : String} (ht : m.Registered name t) : m.Survives t := by
  obtain ⟨R, hR, hmt⟩ := hm.registry
  exact survives_of_registered hR hmt ht (hm.contains_of_registered ht)

/-- A collection leaves each name with its table. -/
theorem Unshared.swept (hm : m.Unshared closed) : m.swept.Unshared closed := by
  have hnames := hm.swept_registered_iff
  obtain ⟨R, hR, hmt⟩ := hm.registry
  have hopen : ∀ t, m.Open closed t → m.Survives t → m.swept.Open closed t := by
    rintro t ⟨⟨T, hT⟩, hw⟩ hs
    refine ⟨⟨_, swept_table hs hT⟩, ?_⟩
    simpa only [Writable, Closed, registry_swept, hnames] using hw
  refine ⟨wellFormed_swept hm.wellFormed, ?_, ?_, ?_, ?_, ?_⟩
  · rw [(swept_registry_of_strong hR hmt).2]
    exact hm.registry
  · obtain ⟨hne, hnone, G, hG⟩ := hm.globals
    have hc := Heap.contains_of_object? hG
    rw [globals_swept, registry_swept]
    refine ⟨hne, fun name h => hnone name ((hnames name _).1 h), _, swept_table ?_ hG⟩
    exact .root (Or.inl (.root (Or.inr (Or.inl rfl)) hc)) hc
  · intro name t ht
    have ht' := (hnames name t).1 ht
    obtain ⟨hne, T, hT⟩ := hm.registered name t ht'
    rw [registry_swept]
    exact ⟨hne, _, swept_table (hm.survives ht') hT⟩
  · intro name name' t ht ht'
    exact hm.single name name' t ((hnames name t).1 ht) ((hnames name' t).1 ht')
  · intro r u' e hu' he
    obtain ⟨hr, u, hu, rfl⟩ := exists_of_swept_userdata hu'
    have ho := hm.environment r u e hu he
    obtain ⟨⟨E, hE⟩, -⟩ := id ho
    exact hopen e ho (hr.held (.environment hu he) (Heap.contains_of_object? hE))

end Machine

end ScriptHost

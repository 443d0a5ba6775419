import ScriptHost.Proofs.Asking
import ScriptHost.Proofs.Counting

/-!
# The entries of the binding layer

The binding layer has four entries in the registry: the pointer table, the table of cells, the number of the next cell and the table
of enumerations. As the binding layer makes them they are well formed (`Machine.Furnished`), and they stay so whatever classes,
enumerations and cells are called. There is one exception. Installing classes refuses the names of the binding layer, but wrapping
an address does not, and where the entry under such a name is not there yet, or is the number, it makes an empty class of it
(`entries_well_formed`).
-/

namespace ScriptHost

variable {χ σ : Type}

namespace Machine

/-- The registry has nothing under a name, or a table of a kind. -/
def EntryIs (m : Machine χ σ) (name : String) (D : Table → Prop) : Prop :=
  m.registryField name = .ok .nil ∨
    ∃ t T, m.registryField name = .ok (.table t) ∧ m.heap.object? t = some (.table T) ∧ D T

/-- The table has a metatable that says what is weak. -/
def ModeIs (m : Machine χ σ) (T : Table) (mode : String) : Prop :=
  ∃ mt M, T.metatable = some mt ∧ m.heap.object? mt = some (.table M) ∧ M.field Registry.modeName = .string mode

/-- The entries of the binding layer are absent or well formed. -/
structure Furnished (m : Machine χ σ) : Prop where
  pointers : m.EntryIs Registry.pointers fun T => m.ModeIs T "v" ∧ ∀ e ∈ T.entries, ∃ a, e.1 = .address a
  cells : m.EntryIs Registry.cells fun T => m.ModeIs T "kv" ∧ ∀ e ∈ T.entries, ∃ i, e.1 = .integer i
  /-- The number is larger than those the cells are listed under. -/
  nextCell : m.registryField Registry.nextCell = .ok .nil ∨ ∃ next, m.registryField Registry.nextCell = .ok (.integer next) ∧
    ∀ c C, m.registryField Registry.cells = .ok (.table c) → m.heap.object? c = some (.table C) →
      ∀ e ∈ C.entries, ∀ i, e.1 = .integer i → i < next
  enumerations : m.EntryIs Registry.enumerations fun T => ∀ e ∈ T.entries, ∃ t, e.2 = .table t

variable {m m' : Machine χ σ} {strict : Prop} {name : String} {t : Ref} {n : Nat}

theorem Orderly.registryField_eq_table_iff (hm : m.Orderly strict) :
    m.registryField name = .ok (.table t) ↔ m.Registered name t := by
  obtain ⟨R, hR, -⟩ := hm.unshared.registry
  rw [registryField_of_table hR, registered_iff hR, Except.ok.injEq]

/-- An entry other than the number is absent or a table. -/
theorem Orderly.entryIs (hm : m.Orderly strict) (hne : name ≠ Registry.nextCell) {D : Table → Prop}
    (hD : ∀ t T, m.Registered name t → m.heap.object? t = some (.table T) → D T) : m.EntryIs name D := by
  obtain ⟨R, hR, -⟩ := hm.unshared.registry
  rcases hm.entry R hR name with hnil | hentry
  · exact Or.inl (by rw [registryField_of_table hR, hnil])
  · rw [if_neg hne] at hentry
    obtain ⟨t, ht⟩ := hentry
    have hr : m.Registered name t := ⟨R, hR, ht⟩
    obtain ⟨-, T, hT⟩ := hm.unshared.registered name t hr
    exact Or.inr ⟨t, T, hm.registryField_eq_table_iff.2 hr, hT, hD t T hr hT⟩

theorem Badged.modeIs {T : Table} (h : m.Badged name T) {mode : String} (hmode : Registry.modeOf name = some mode) :
    m.ModeIs T mode := by
  obtain ⟨mt, M, hmt, hM, hsays, -⟩ := h.2 mode hmode
  exact ⟨mt, M, hmt, hM, hsays⟩

theorem CountsTo.registryField_eq (hcount : m.CountsTo n) (hm : m.Orderly strict) :
    m.registryField Registry.nextCell = .ok (if n = 0 then .nil else .integer (Int64.ofNat (n + 1))) := by
  obtain ⟨R, hR, -⟩ := hm.unshared.registry
  rw [registryField_of_table hR, hcount R hR]

/-- Where more cells have been counted, the number of the next one is not less. -/
theorem CountsTo.next_le {k : Nat} (hcount : m.CountsTo k) (hm : m.Orderly strict) (hcount' : m'.CountsTo n)
    (hm' : m'.Orderly strict) (hle : k ≤ n) (hn : n < Cell.places) {i : Int64}
    (hi : m.registryField Registry.nextCell = .ok (.integer i)) :
    ∃ j, m'.registryField Registry.nextCell = .ok (.integer j) ∧ i ≤ j := by
  rw [hcount.registryField_eq hm] at hi
  rw [hcount'.registryField_eq hm']
  by_cases hzero : k = 0
  · rw [if_pos hzero] at hi
    cases hi
  · rw [if_neg hzero] at hi
    cases hi
    refine ⟨_, by rw [if_neg (by omega)], ?_⟩
    rw [Int64.le_iff_toInt_le, Cell.toInt_place (by omega), Cell.toInt_place hn]
    omega

/-- The entries are well formed where the tables are as the binding layer keeps them and the cells are counted. -/
theorem Managed.furnished (hm : m.Managed strict) (hcount : m.CountsTo n) (hcells : m.CellsUpTo n) (hn : n < Cell.places) :
    m.Furnished where
  pointers := hm.orderly.entryIs (by decide) fun p T hp hT => by
    refine ⟨(hm.orderly.badged _ (by decide) p T hp hT).modeIs Registry.modeOf_pointers, fun e he => ?_⟩
    obtain ⟨a, r, rfl, -⟩ := hm.rostered.listing p T hp hT e he
    exact ⟨a, rfl⟩
  cells := hm.orderly.entryIs (by decide) fun c T hc hT =>
    ⟨(hm.orderly.badged _ (by decide) c T hc hT).modeIs Registry.modeOf_cells, hm.stocked.cells c T hc hT⟩
  nextCell := by
    rw [hcount.registryField_eq hm.orderly]
    by_cases hzero : n = 0
    · exact Or.inl (by rw [if_pos hzero])
    · refine Or.inr ⟨_, by rw [if_neg hzero], fun c C hc hC e he i hi => ?_⟩
      rw [Int64.lt_iff_toInt_lt, Cell.toInt_place (by omega)]
      have hle := hcells c C (hm.orderly.registryField_eq_table_iff.1 hc) hC e he i hi
      omega
  enumerations := hm.orderly.entryIs (by decide) fun d T hd hT e he => by
    obtain ⟨t, -, ht, -⟩ := hm.stocked.enumerations d T hd hT e he
    exact ⟨t, ht⟩

/-! ## Wrapping -/

/-- An empty class under a name of the binding layer, apart from that of the pointer table, is not what the binding layer keeps
there. -/
theorem Furnished.not_blank (h : m.Furnished) (hname : name ∈ Registry.reserved) (hne : name ≠ Registry.pointers)
    (ht : m.registryField name = .ok (.table t)) : m.heap.object? t ≠ some (.table (.blank name)) := by
  intro hblank
  have hentry : ∀ {D : Table → Prop}, m.EntryIs name D → D (.blank name) := by
    rintro D (hnil | ⟨s, T, hs, hT, hD⟩)
    · cases ht.symm.trans hnil
    · cases ht.symm.trans hs
      cases hblank.symm.trans hT
      exact hD
  simp only [Registry.reserved, List.mem_cons, List.not_mem_nil, or_false] at hname
  rcases hname with rfl | rfl | rfl | rfl
  · exact hne rfl
  · obtain ⟨s, hs⟩ := hentry h.enumerations (.string "__name", .string Registry.enumerations) (by decide)
    cases hs
  · obtain ⟨⟨mt, M, hmt, -⟩, -⟩ := hentry h.cells
    cases hmt
  · rcases h.nextCell with hnil | ⟨next, hnext, -⟩
    · cases ht.symm.trans hnil
    · cases ht.symm.trans hnext

/-- Where the entry under a name of the binding layer is no table, wrapping an address puts an empty class there. -/
theorem Managed.wrap_not_furnished (hm : m.Managed strict) {a : Address} (ha : a ≠ Address.null)
    (hname : name ∈ Registry.reserved) (hne : name ≠ Registry.pointers) (hnone : ∀ t, ¬m.Registered name t) :
    ¬(Action.wrap a name m).2.Furnished := by
  obtain ⟨r, t, m₁, m₂, m₃, u, h, hnames, -, -, hmade, hu, hwritten⟩ := hm.exists_wrap ha name
  have hnone₁ : ¬m₁.Registered name t := fun ht => (hnames name t ht).elim (hnone t) hne
  rcases hmade with ⟨-, ht⟩ | hregisters
  · exact absurd ht hnone₁
  rw [h]
  obtain ⟨R, hR, hR₂⟩ := hregisters.added
  have hR₃ : m₃.heap.object? m₃.registry = some (.table (R.set (.string name) (.table t))) := by
    rw [hwritten.registry, hregisters.registry, hwritten.other (Heap.ne_of_table_of_userdata hR₂ hu), hR₂]
  have hblank : m₃.heap.object? t = some (.table (.blank name)) := by
    rw [hwritten.other (Heap.ne_of_table_of_userdata hregisters.table hu), hregisters.table]
  intro hf
  refine hf.not_blank hname hne ?_ hblank
  rw [registryField_of_table hR₃, Table.field, Table.get_set, if_pos rfl]

/-- A wrapping under a name that is not one of the binding layer, or is that of the pointer table or of a table that is there. -/
theorem Orderly.minds_wrap (hm : m.Orderly False) {a : Address}
    (h : a = Address.null ∨ name ∉ Registry.reserved ∨ name = Registry.pointers ∨
      ∃ t, m.registryField name = .ok (.table t)) : m.Minds (.wide False) (.wrap a name) := by
  rcases h with ha | hname | hpointers | ⟨t, ht⟩
  · exact Or.inl ha
  · exact Or.inr ⟨trivial, Or.inl hname⟩
  · exact Or.inr ⟨trivial, Or.inr ⟨id, Or.inl hpointers⟩⟩
  · exact Or.inr ⟨trivial, Or.inr ⟨id, Or.inr ⟨t, hm.registryField_eq_table_iff.1 ht⟩⟩⟩

end Machine

/-! ## Runs -/

open Machine in
/-- Take any course from a new machine on, with fewer cells made in it than there are places, in which no address is wrapped under
a name of the binding layer, unless that is the name of the pointer table or there is a table under it already. At its end the
entries of the binding layer are well formed, and the number of the next cell is not less than at any time before. From there one
more wrapping keeps the entries well formed if it is of the same kind, and only then. -/
theorem entries_well_formed {limits : Limits} {host : σ} {es : List (Event χ σ)}
    (h : Course (Minds (.wide False)) (.start limits host) es) (hn : (start limits host).stagings es < Cell.places) :
    ((start limits host).follow es).Furnished ∧
    (∀ es₁ es₂ i, es = es₁ ++ es₂ → ((start limits host).follow es₁).registryField Registry.nextCell = .ok (.integer i) →
      ∃ j, ((start limits host).follow es).registryField Registry.nextCell = .ok (.integer j) ∧ i ≤ j) ∧
    ∀ a name, (Action.wrap a name ((start limits host).follow es)).2.Furnished ↔
      a = Address.null ∨ name ∉ Registry.reserved ∨ name = Registry.pointers ∨
        ∃ t, ((start limits host).follow es).registryField name = .ok (.table t) := by
  obtain ⟨hm, hcount, hcells⟩ := h.counted_start hn
  refine ⟨hm.furnished hcount hcells hn, fun es₁ es₂ i hes hi => ?_, fun a name => ⟨fun hf => ?_, fun hkind => ?_⟩⟩
  · subst hes
    have hle : (start limits host).stagings es₁ ≤ (start limits host).stagings (es₁ ++ es₂) := by
      rw [stagings_append]
      exact Nat.le_add_right _ _
    obtain ⟨hm₁, hcount₁, -⟩ := (course_append.1 h).1.counted_start (Nat.lt_of_le_of_lt hle hn)
    exact hcount₁.next_le hm₁.orderly hcount hm.orderly hle hn hi
  · refine Classical.byContradiction fun hkind => ?_
    simp only [not_or, Classical.not_not, not_exists] at hkind
    obtain ⟨ha, hname, hne, hnone⟩ := hkind
    exact hm.wrap_not_furnished ha hname hne (fun t ht => hnone t (hm.orderly.registryField_eq_table_iff.2 ht)) hf
  · -- such a wrapping is one more event of the course, and makes no cell
    have hsnoc := h.snoc (e := .ask (.wrap a name)) ⟨trivial, hm.orderly.minds_wrap hkind⟩
    have hsame : (start limits host).stagings (es ++ [.ask (.wrap a name)]) = (start limits host).stagings es := by
      rw [stagings_append]
      rfl
    obtain ⟨hm', hcount', hcells'⟩ := hsnoc.counted_start (hsame ▸ hn)
    rw [follow_append] at hm' hcount' hcells'
    exact hm'.furnished hcount' hcells' (hsame ▸ hn)

/-- A cell is made, an address is wrapped, and a collection comes. -/
def stageAndWrap : List (Event Unit Unit) := [.ask (.stage .unit), .ask (.wrap 0x10 "Widget"), .sweep]

/-- After that the entries are well formed. Wrapping an address under the name of the number is what they do not survive. -/
theorem entries_stageAndWrap :
    ((Machine.start .standard ()).follow stageAndWrap).Furnished ∧
      (Action.wrap 0x20 Registry.cells ((Machine.start .standard ()).follow stageAndWrap)).2.Furnished ∧
      ¬(Action.wrap 0x20 Registry.nextCell ((Machine.start .standard ()).follow stageAndWrap)).2.Furnished := by
  have hcollecting : ((Machine.start .standard ()).follow (stageAndWrap.take 2)).collecting = false := by decide +kernel
  have hcourse : Course (Machine.Minds (.wide False)) (.start .standard ()) stageAndWrap :=
    ⟨⟨trivial, trivial, nofun⟩, ⟨trivial, Or.inr ⟨trivial, Or.inl (by decide)⟩⟩, hcollecting, trivial⟩
  obtain ⟨hfurnished, -, hwrap⟩ := entries_well_formed hcourse (by decide +kernel)
  refine ⟨hfurnished, (hwrap 0x20 _).2 (Or.inr (Or.inr (Or.inr ⟨⟨2, 0⟩, eq_ok_of_toOption (by decide +kernel)⟩))), fun hf => ?_⟩
  rcases (hwrap 0x20 _).1 hf with hnull | hname | hpointers | ⟨t, ht⟩
  · exact absurd hnull (by decide)
  · exact absurd (by decide) hname
  · exact absurd hpointers (by decide)
  · have hnumber : ((Machine.start .standard ()).follow stageAndWrap).registryField Registry.nextCell = .ok (.integer 2) :=
      eq_ok_of_toOption (by decide +kernel)
    cases ht.symm.trans hnumber

/-- That the entries are well formed whatever names addresses are wrapped under is false: the number of the next cell may become a
class. -/
theorem entries_under_any_name_false :
    ¬∀ es : List (Event Unit Unit),
      Course (fun m r => m.Minds (.wide False) r ∨ ∃ a name, r = .wrap a name) (.start .standard ()) es →
      (Machine.start .standard ()).stagings es < Cell.places → ((Machine.start .standard ()).follow es).Furnished := by
  intro hall
  let es : List (Event Unit Unit) := [.ask (.stage .unit), .ask (.wrap 0x10 Registry.nextCell)]
  have hf := hall es ⟨⟨trivial, Or.inl ⟨trivial, nofun⟩⟩, ⟨trivial, Or.inr ⟨_, _, rfl⟩⟩, trivial⟩ (by decide +kernel)
  have hclass : ((Machine.start .standard ()).follow es).registryField Registry.nextCell = .ok (.table ⟨9, 0⟩) :=
    eq_ok_of_toOption (by decide +kernel)
  rcases hf.nextCell with hnil | ⟨next, hnext, -⟩
  · cases hnil.symm.trans hclass
  · cases hnext.symm.trans hclass

end ScriptHost

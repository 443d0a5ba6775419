import ScriptHost.Proofs.CellBook

/-!
# Keeping the book of cells

What one event does to the table of cells. An event that spares the cells and stages none leaves it (`Books.unstaged`), a staging
puts a new cell into it under the next number (`Books.exists_stage`), and a collection takes out those cells that it frees, if none
has a finalizer and the registry is not weak (`Books.swept`).
-/

namespace ScriptHost

variable {χ σ : Type}

namespace Machine

variable {m m' : Machine χ σ} {b : CellBook} {e : Event χ σ} {c mt r : Ref} {C : Table} {L : List (Nat × Ref)}

/-! ## Events that stage nothing -/

/-- An event leaves the heap well-formed, and the registry and the globals where they are. -/
theorem wellFormed_after (hw : m.heap.WellFormed) (he : ∀ q, e = .ask q → q.IsSilent) :
    (m.after e).heap.WellFormed ∧ (m.after e).registry = m.registry ∧ (m.after e).globals = m.globals := by
  have hsteps : ∀ {m' : Machine χ σ}, m.Steps m' → m'.heap.WellFormed ∧ m'.registry = m.registry ∧ m'.globals = m.globals :=
    fun h => ⟨h.keep (fun _ _ hw hs => hs.wellFormed hw) hw, congrArg Frame.registry h.frame_eq, congrArg Frame.globals h.frame_eq⟩
  cases e with
  | ask q => exact hsteps (Request.perform_steps _ (he q rfl) m)
  | store t key v => exact hsteps (Action.quiet_rawSet t key v m)
  | write call => exact hsteps (Action.quiet_writeAttribute call m)
  | sweep => exact ⟨wellFormed_swept hw, registry_swept m, globals_swept m⟩
  | enter | leave | queue | finish => exact ⟨hw, rfl, rfl⟩

/-- The guard of one payload. -/
def payloadGuard (m : Machine χ σ) (r : Ref) : Guard where
  tables _ := False
  free _ _ := False
  payloads s := s = r
  registry := m.registry
  globals := m.globals
  foreign _ := True
  opens _ _ h := h.elim

/-- A cell that a payload is put into keeps being one. -/
theorem IsCell.setPayload (h : m.IsCell r) (p : Payload) : (Action.setPayload r p m).2.IsCell r := by
  obtain ⟨u, hu, hflag, hplain⟩ := h
  rw [Action.setPayload, Action.bind_of_ok (Action.query_of_ok (Heap.userdata_eq_ok_iff.2 hu))]
  split
  · rename_i hsame
    have hchange := Action.onHeap_of_ok (m := m) (f := fun h => h.changeUserdata r fun u => { u with payload := p })
      (Heap.changeUserdata_eq_ok_iff.2 ⟨u, hu, rfl⟩)
    rw [Action.bind_of_ok hchange]
    refine ⟨{ u with payload := p }, ?_, hflag, fun a ha => ?_⟩
    · exact (Heap.object?_put (Heap.contains_of_object? hu) _ r).trans (if_pos rfl)
    · cases ha
      cases hpay : u.payload with
      | handle a' => exact hplain a' hpay
      | _ =>
        rw [hpay] at hsame
        cases hsame
  · exact ⟨u, hu, hflag, hplain⟩

/-- Every event but a collection leaves a cell, with its payload unless that is what the event changes. -/
theorem IsCell.after (h : m.IsCell r) (hw : m.heap.WellFormed) (hR : ∃ R, m.heap.object? m.registry = some (.table R))
    (he : ∀ q, e = .ask q → q.IsSilent) (hsweep : e ≠ .sweep) :
    (m.after e).IsCell r ∧ (¬e.Repays r → ∀ u, m.heap.object? r = some (.userdata u) →
      ∃ u', (m.after e).heap.object? r = some (.userdata u') ∧ u'.payload = u.payload) := by
  by_cases hpays : e.Repays r
  · refine ⟨?_, fun hnot => absurd hpays hnot⟩
    cases e with
    | ask q =>
      cases q with
      | setPayload s p =>
        obtain rfl : s = r := hpays
        exact h.setPayload p
      | _ => exact hpays.elim
    | _ => exact hpays.elim
  obtain ⟨u, hu, hflag, hplain⟩ := h
  have hsecured : m.Secured (m.payloadGuard r) := by
    refine ⟨hw, ⟨rfl, hR⟩, rfl, fun t ht => ?_, fun _ _ _ _ ht => ht, fun s u' a hs hu' => ?_⟩
    · obtain rfl : t = r := ht.resolve_left id
      exact Heap.contains_of_object? hu
    · obtain rfl : s = r := hs
      cases hu.symm.trans hu'
      exact hplain a
  have hupholds : m.Upholds (m.payloadGuard r) (m.after e) := by
    refine hsecured.upholds_after he hsweep ⟨trivial, fun _ _ => trivial, fun _ => ⟨trivial, fun h => h.elim⟩, fun _ _ h => h.elim,
      fun _ _ _ _ h => h.elim, fun _ h => h.elim, fun s hs => ?_, fun _ _ _ _ _ => ⟨trivial, fun h => h.elim⟩⟩
    obtain rfl : s = r := hs
    exact hpays
  obtain ⟨u', hu', hflag', hpay⟩ := hupholds.userdata hu
  have hpay : u'.payload = u.payload := hpay rfl
  refine ⟨⟨u', hu', hflag'.trans hflag, fun a => hpay ▸ hplain a⟩, fun _ v hv => ⟨u', hu', ?_⟩⟩
  cases hu.symm.trans hv
  exact hpay

/-- The guard of what the book is kept in: the table of cells with its metatable, and the entries of the registry for cells. -/
def cellGuard (m : Machine χ σ) : Guard where
  tables t := t = m.registry ∨ m.CellTable t
  free t k := t = m.registry ∧ k ≠ .string Registry.cells ∧ k ≠ .string Registry.nextCell
  payloads _ := False
  registry := m.registry
  globals := m.globals
  foreign name := name ≠ Registry.cells ∧ name ≠ Registry.nextCell
  opens _ h _ := ⟨rfl, fun e => h.1 (Key.string.inj e), fun e => h.2 (Key.string.inj e)⟩

/-- What is a table of cells, or its metatable. -/
theorem Books.exists_of_cellTable (hm : m.Books b) {t : Ref} (ht : m.CellTable t) :
    ∃ c mt C, m.Registered Registry.cells c ∧ m.StoresCells c mt C b.living ∧ (t = c ∨ t = mt) := by
  obtain ⟨c, hc, ht⟩ := ht
  obtain ⟨mt, C, hstore⟩ := hm.store c hc
  refine ⟨c, mt, C, hc, hstore, ht.imp_right fun ⟨C', hC', hmt⟩ => ?_⟩
  cases hstore.table.symm.trans hC'
  exact Option.some.inj (hmt.symm.trans hstore.metatable)

theorem Books.secured (hm : m.Books b) (hs : m.SparesCells e) : m.Secured m.cellGuard where
  wellFormed := hm.wellFormed
  registry := ⟨rfl, hm.registry⟩
  globals := rfl
  there t ht := by
    rcases ht with (rfl | ht) | ht
    · obtain ⟨R, hR⟩ := hm.registry
      exact Heap.contains_of_object? hR
    · obtain ⟨c, mt, C, -, hstore, rfl | rfl⟩ := hm.exists_of_cellTable ht
      · exact Heap.contains_of_object? hstore.table
      · obtain ⟨M, hM, -⟩ := hstore.weak
        exact Heap.contains_of_object? hM
    · exact ht.elim
  foreign name t hname hr ht := hname.1 (hs.alone name t hr ht)
  payload _ _ _ h := h.elim

/-- What spares the cells and stages none is permitted, apart from giving the registry a metatable. -/
theorem Books.permits (hm : m.Books b) (hs : m.SparesCells e) (hstages : ¬e.Stages) (hclass : ¬e.Reclasses m.registry) :
    m.cellGuard.Permits m e where
  pointers := by simp [cellGuard, Registry.pointers, Registry.cells, Registry.nextCell]
  enumerations _ _ := by simp [cellGuard, Registry.enumerations, Registry.cells, Registry.nextCell]
  stages h := absurd h hstages
  names name h := m.cellGuard.opens name (hs.names name h)
  writes t key v k ht hwrite hk := by
    rcases ht with rfl | ht
    · obtain ⟨hcells, hcounter⟩ := hs.entries key v hwrite
      exact ⟨rfl, fun e => hcells (Key.eq_string_of_ofValue (e ▸ hk)), fun e => hcounter (Key.eq_string_of_ofValue (e ▸ hk))⟩
    · rw [(hs.table t ht).1] at hwrite
      cases hwrite
  classes t ht := by
    rcases ht with rfl | ht
    · exact hclass
    · exact (hs.table t ht).2
  payloads _ h := h.elim
  installs classes _ hc d hd := by
    have hname := Action.not_reserved_of_checkClasses hc d hd
    refine ⟨⟨fun e => hname (e ▸ by decide), fun e => hname (e ▸ by decide)⟩, fun ht => ?_⟩
    rcases ht with hglobals | ht
    · exact absurd hglobals hm.globals.1
    · obtain ⟨c, mt, C, -, hstore, rfl | rfl⟩ := hm.exists_of_cellTable ht
      · exact absurd rfl hstore.apart.2.1
      · exact absurd rfl hstore.apart.2.2.2.1

/-- Where what the book is kept in is upheld and the cells stay, the book is kept. -/
theorem Books.upheld (hm : m.Books b) (h : m.Upholds m.cellGuard m') (hw : m'.heap.WellFormed)
    (hregistry : m'.registry = m.registry) (hglobals : m'.globals = m.globals) (hcells : ∀ e ∈ b.living, m'.IsCell e.2) :
    m'.Books b := by
  obtain ⟨R, hR⟩ := hm.registry
  obtain ⟨R', hR', hsame⟩ := h.table (G := m.cellGuard) (Or.inl rfl) hR
  have hfield : ∀ name, name = Registry.cells ∨ name = Registry.nextCell → R'.field name = R.field name := by
    rintro name hname
    refine hsame.get fun ⟨_, hne, hne'⟩ => ?_
    rcases hname with rfl | rfl
    · exact hne rfl
    · exact hne' rfl
  rw [← hregistry] at hR'
  have hnames : ∀ c, m'.Registered Registry.cells c ↔ m.Registered Registry.cells c := fun c => by
    rw [registered_iff hR', registered_iff hR, hfield _ (Or.inl rfl)]
  refine ⟨hw, ⟨R', hR'⟩, ?_, fun R'' hR'' => ?_, fun c hc => ?_, fun hne => ?_, fun e he => ?_⟩
  · rw [hregistry, hglobals]
    exact ⟨hm.globals.1, h.contains hm.globals.2⟩
  · cases hR'.symm.trans hR''
    rw [hfield _ (Or.inr rfl)]
    exact hm.counted R hR
  · have hc := (hnames c).1 hc
    obtain ⟨mt, C, hstore⟩ := hm.store c hc
    obtain ⟨M, hM, hmode⟩ := hstore.weak
    have hfree : ∀ t, t ≠ m.registry → ∀ k, ¬m.cellGuard.free t k := fun _ hne _ hfree => hne hfree.1
    obtain ⟨C', hC', hsameC⟩ := h.table (G := m.cellGuard) (Or.inr ⟨c, hc, Or.inl rfl⟩) hstore.table
    obtain ⟨M', hM', hsameM⟩ := h.table (G := m.cellGuard) (Or.inr ⟨c, hc, Or.inr ⟨C, hstore.table, hstore.metatable⟩⟩) hM
    have hperm := hsameC.perm (hfree c hstore.apart.1) (hm.wellFormed.unique _ _ hstore.table) (hw.unique _ _ hC')
    refine ⟨mt, C', hC', hperm.trans hstore.entries, hsameC.1.trans hstore.metatable, ⟨M', hM', ?_⟩, ?_⟩
    · exact (hsameM.get (hfree mt hstore.apart.2.2.1 _)).trans hmode
    · rw [hregistry, hglobals]
      exact hstore.apart
  · obtain ⟨c, hc⟩ := hm.listed hne
    exact ⟨c, (hnames c).2 hc⟩
  · exact ⟨(hm.living e he).1, hcells e he⟩

/-- Where the objects a store consists of are the same, it is one. -/
theorem StoresCells.of_kept (h : m.StoresCells c mt C L) (hregistry : m'.registry = m.registry) (hglobals : m'.globals = m.globals)
    (hkept : ∀ s o, s ≠ m.registry → m.heap.object? s = some o → m'.heap.object? s = some o) : m'.StoresCells c mt C L := by
  obtain ⟨M, hM, hmode⟩ := h.weak
  refine ⟨hkept c _ h.apart.1 h.table, h.entries, h.metatable, ⟨M, hkept mt _ h.apart.2.2.1 hM, hmode⟩, ?_⟩
  rw [hregistry, hglobals]
  exact h.apart

/-- The registry may get another metatable. -/
theorem Books.reclassed (hm : m.Books b) (mt : Option Ref) : (Action.setMetatable (.table m.registry) mt m).2.Books b := by
  obtain ⟨R, hR⟩ := hm.registry
  rcases setMetatable_cases hm.wellFormed hR mt with hsame | hwritten
  · rwa [hsame]
  generalize (Action.setMetatable (.table m.registry) mt m).2 = m' at hwritten
  have hR' : m'.heap.object? m'.registry = some (.table { R with metatable := mt }) := by
    rw [hwritten.registry]
    exact hwritten.self
  have hnames : ∀ c, m'.Registered Registry.cells c ↔ m.Registered Registry.cells c := fun c => by
    rw [registered_iff hR', registered_iff hR]
    exact Iff.rfl
  have hkept : ∀ s o, s ≠ m.registry → m.heap.object? s = some o → m'.heap.object? s = some o := fun s o hs ho =>
    (hwritten.other hs).trans ho
  refine ⟨hwritten.wellFormed, ⟨_, hR'⟩, ?_, fun R' h => ?_, fun c hc => ?_, fun hne => ?_, fun e he => ?_⟩
  · obtain ⟨hne, hthere⟩ := hm.globals
    obtain ⟨o, ho⟩ := Heap.contains_iff.1 hthere
    rw [hwritten.registry, hwritten.globals]
    exact ⟨hne, Heap.contains_of_object? (hkept _ o hne ho)⟩
  · cases hR'.symm.trans h
    exact hm.counted R hR
  · obtain ⟨mt', C, hstore⟩ := hm.store c ((hnames c).1 hc)
    exact ⟨mt', C, hstore.of_kept hwritten.registry hwritten.globals hkept⟩
  · obtain ⟨c, hc⟩ := hm.listed hne
    exact ⟨c, (hnames c).2 hc⟩
  · obtain ⟨hle, u, hu, hrest⟩ := hm.living e he
    exact ⟨hle, u, hkept _ _ (Heap.ne_of_table_of_userdata hR hu).symm hu, hrest⟩

/-- An event that spares the cells and neither stages nor collects leaves the book. -/
theorem Books.unstaged (hm : m.Books b) (he : ∀ q, e = .ask q → q.IsSilent) (hs : m.SparesCells e) (hsweep : e ≠ .sweep)
    (hnone : e.staged? m = none) : (m.after e).Books b := by
  by_cases hclass : e.Reclasses m.registry
  · cases e with
    | ask q =>
      cases q with
      | setMetatable v mt =>
        cases v with
        | table s =>
          obtain rfl : s = m.registry := hclass
          exact hm.reclassed mt
        | _ => exact hclass.elim
      | _ => exact hclass.elim
    | _ => exact hclass.elim
  rcases Event.after_of_not_staged hnone with hstages | hsame
  · obtain ⟨hw, hregistry, hglobals⟩ := wellFormed_after hm.wellFormed he
    refine hm.upheld ((hm.secured hs).upholds_after he hsweep (hm.permits hs hstages hclass)) hw hregistry hglobals fun c hc => ?_
    exact ((hm.living c hc).2.after hm.wellFormed hm.registry he hsweep).1
  · rwa [hsame]

/-! ## Stagings -/

/-- The table of cells is found or made, and the book is kept. -/
theorem Books.exists_table (hm : m.Books b) :
    ∃ c m', Registry.table Registry.cells (some "kv") m = (.ok c, m') ∧ m'.Books b ∧ m'.Registered Registry.cells c ∧
      ∀ s, m.heap.contains s = true → m'.heap.contains s = true := by
  obtain ⟨R, hR⟩ := hm.registry
  obtain ⟨c, m', htable, ⟨rfl, hc⟩ | ⟨T, hreg, hempty, -, hmade⟩⟩ :=
    Action.exists_registryTable hm.wellFormed hR Registry.cells (some "kv")
  · exact ⟨c, m', htable, hm, hc, fun _ h => h⟩
  obtain ⟨mt, M, hTmt, hfresh, hne, hM, hmode⟩ := hmade "kv" rfl
  obtain ⟨R₀, hR₀, hR'⟩ := hreg.added
  cases hR.symm.trans hR₀
  rw [← hreg.registry] at hR'
  have hnil : b.living = [] := by
    refine Classical.byContradiction fun hne => ?_
    obtain ⟨s, hs⟩ := hm.listed hne
    exact hreg.unused s hs
  have hcr : m'.Registered Registry.cells c := (registered_iff hR').2 (by rw [Table.field, Table.get_set, if_pos rfl])
  have hnot : ∀ {s o}, ¬m.heap.contains s = true → m.heap.object? m.registry = some o → s ≠ m.registry := fun hs ho =>
    (ne_of_not_contains hs ho).symm
  have hglobals : ∀ {s}, ¬m.heap.contains s = true → s ≠ m.globals := by
    rintro s hs rfl
    exact hs hm.globals.2
  refine ⟨c, m', htable, ⟨hreg.wellFormed, ⟨_, hR'⟩, ?_, fun R' h' => ?_, fun c' hc' => ?_, fun _ => ⟨c, hcr⟩,
    fun e he => ?_⟩, hcr, fun s hs => ?_⟩
  · rw [hreg.registry, hreg.globals]
    obtain ⟨o, ho⟩ := Heap.contains_iff.1 hm.globals.2
    exact ⟨hm.globals.1, Heap.contains_of_object? (hreg.kept _ o hm.globals.1 ho)⟩
  · cases hR'.symm.trans h'
    rw [Table.field, Table.get_set, if_neg (by decide)]
    exact hm.counted R hR
  · obtain rfl : c' = c := by
      rw [registered_iff hR', Table.field, Table.get_set, if_pos rfl] at hc'
      exact (Value.table.inj hc').symm
    refine ⟨mt, T, hreg.table, ?_, hTmt, ⟨M, hM, hmode⟩, ?_⟩
    · rw [hempty, hnil]
      rfl
    · rw [hreg.registry, hreg.globals]
      exact ⟨hnot hreg.fresh hR, hglobals hreg.fresh, hnot hfresh hR, hglobals hfresh, hne⟩
  · rw [hnil] at he
    cases he
  · obtain ⟨o, ho⟩ := Heap.contains_iff.1 hs
    by_cases hsr : s = m.registry
    · rw [hsr, ← hreg.registry]
      exact Heap.contains_of_object? hR'
    · exact Heap.contains_of_object? (hreg.kept s o hsr ho)

/-- A number that is larger than those of all cells is put into the table of cells, with a cell. -/
theorem StoresCells.stored {n : Nat} (h : m.StoresCells c mt C L) (hL : ∀ e ∈ L, e.1 < n) (hn : n ≤ Cell.places)
    (hset : m.Written m' c (.table (C.set (.integer (Int64.ofNat n)) (.userdata r)))) :
    m'.StoresCells c mt (C.set (.integer (Int64.ofNat n)) (.userdata r)) (L ++ [(n, r)]) := by
  obtain ⟨M, hM, hmode⟩ := h.weak
  have hnew : ∀ e ∈ C.entries, e.1 ≠ .integer (Int64.ofNat n) := by
    intro e he hkey
    obtain ⟨d, hd, rfl⟩ := List.mem_map.1 (h.entries.mem_iff.1 he)
    have hlt := hL d hd
    unfold Cell.places at hn
    have hsame := congrArg Int64.toInt (Key.integer.inj hkey)
    rw [Int64.toInt_ofNat_of_lt (by omega), Int64.toInt_ofNat_of_lt (by omega)] at hsame
    omega
  refine ⟨hset.self, ?_, (Table.metatable_set _ _ _).trans h.metatable, ⟨M, (hset.other h.apart.2.2.2.2).trans hM, hmode⟩, ?_⟩
  · rw [Table.entries_set_of_new hnew rfl, List.map_append]
    exact (h.entries.cons _).trans (List.perm_append_singleton _ _).symm
  · rw [hset.registry, hset.globals]
    exact h.apart

/-- Where the next number is in the registry, and the table of cells has a new cell under its number, the book has it too. -/
theorem Books.stored (hm : m.Books b) {R : Table} {p : Payload} (hR : m.heap.object? m.registry = some (.table R))
    (hc : m.Registered Registry.cells c) (hstore : m.StoresCells c mt C b.living) (hw : m'.heap.WellFormed)
    (hregistry : m'.registry = m.registry) (hglobals : m'.globals = m.globals)
    (hkept : ∀ s o, s ≠ c → s ≠ m.registry → m.heap.object? s = some o → m'.heap.object? s = some o)
    (hnext : m'.heap.object? m'.registry =
      some (.table (R.set (.string Registry.nextCell) (.integer (Int64.ofNat (b.count + 2))))))
    {C' : Table} (hstore' : m'.StoresCells c mt C' (b.living ++ [(b.count + 1, r)]))
    (hcell : m'.heap.object? r = some (.userdata (.ofPayload p))) (hp : ∀ a, p ≠ .handle a) :
    m'.Books ⟨b.count + 1, b.living ++ [(b.count + 1, r)]⟩ := by
  have hnames : ∀ c', m'.Registered Registry.cells c' ↔ m.Registered Registry.cells c' := fun c' => by
    rw [registered_iff hnext, registered_iff hR, Table.field, Table.get_set, if_neg (by decide), Table.field]
  refine ⟨hw, ⟨_, hnext⟩, ?_, fun R' hR' => ?_, fun c' hc' => ?_,
    fun _ => ⟨c, (hnames c).2 hc⟩, fun e he => ?_⟩
  · obtain ⟨hne, hthere⟩ := hm.globals
    obtain ⟨o, ho⟩ := Heap.contains_iff.1 hthere
    rw [hregistry, hglobals]
    exact ⟨hne, Heap.contains_of_object? (hkept _ o hstore.apart.2.1.symm hne ho)⟩
  · cases hnext.symm.trans hR'
    rw [Table.field, Table.get_set, if_pos rfl]
    rfl
  · obtain rfl := ((hnames c').1 hc').eq hc
    exact ⟨mt, C', hstore'⟩
  · rcases List.mem_append.1 he with he | he
    · obtain ⟨hle, u, hu, hrest⟩ := hm.living e he
      have hec := (Heap.ne_of_table_of_userdata hstore.table hu).symm
      have her := (Heap.ne_of_table_of_userdata hR hu).symm
      exact ⟨Nat.le_succ_of_le hle, u, hkept _ _ hec her hu, hrest⟩
    · obtain rfl := List.mem_singleton.1 he
      exact ⟨Nat.le_refl _, _, hcell, rfl, hp⟩

/-- A cell is made and listed under the next number. -/
theorem Books.exists_stage (hm : m.Books b) {p : Payload} (hp : ∀ a, p ≠ .handle a) (hn : b.count + 1 < Cell.places) :
    ∃ r m', Cell.stage p m = (.ok r, m') ∧ ¬m.heap.contains r = true ∧ m'.heap.object? r = some (.userdata (.ofPayload p)) ∧
      m'.Books ⟨b.count + 1, b.living ++ [(b.count + 1, r)]⟩ := by
  obtain ⟨c, m₁, htable, hm₁, hc, hthere⟩ := hm.exists_table
  obtain ⟨mt, C, hstore⟩ := hm₁.store c hc
  obtain ⟨R, hR⟩ := hm₁.registry
  obtain ⟨r, m₂, hnew, hfresh, h₂⟩ := Action.exists_newUserdata hm₁.wellFormed p
  have hother : ∀ {s o}, m₁.heap.object? s = some o → m₂.heap.object? s = some o := fun ho =>
    (h₂.other (ne_of_not_contains hfresh ho)).trans ho
  have hR₂ : m₂.heap.object? m₂.registry = some (.table R) := h₂.registry ▸ hother hR
  have hcount : m₂.CountsTo b.count := by
    intro R' hR'
    cases hR₂.symm.trans hR'
    exact hm₁.counted R hR
  -- the number of the next cell goes into the registry, and the cell into the table
  obtain ⟨m₃, hplace, h₃⟩ := exists_nextPlace h₂.wellFormed hR₂ hcount hn
  rw [h₂.registry] at h₃
  have hstore₃ : m₃.StoresCells c mt C b.living :=
    hstore.of_kept (h₃.registry.trans h₂.registry) (h₃.globals.trans h₂.globals) fun s o hs ho => (h₃.other hs).trans (hother ho)
  obtain ⟨m₄, hset, h₄⟩ := Action.exists_setAt h₃.wellFormed hstore₃.table (Int64.ofNat (b.count + 1)) (.userdata r)
  have hregistry : m₄.registry = m₁.registry := h₄.registry.trans (h₃.registry.trans h₂.registry)
  have hkept : ∀ s o, s ≠ c → s ≠ m₁.registry → m₂.heap.object? s = some o → m₄.heap.object? s = some o :=
    fun s o hsc hsr ho => (h₄.other hsc).trans ((h₃.other hsr).trans ho)
  have hcell := hkept r _ (ne_of_not_contains hfresh hstore.table).symm (ne_of_not_contains hfresh hR).symm h₂.self
  refine ⟨r, m₄, ?_, fun h => hfresh (hthere r h), hcell, hm₁.stored hR hc hstore h₄.wellFormed hregistry
    (h₄.globals.trans (h₃.globals.trans h₂.globals)) (fun s o hsc hsr ho => hkept s o hsc hsr (hother ho)) ?_
    (hstore₃.stored (fun e he => Nat.lt_succ_of_le (hm₁.living e he).1) (Nat.le_of_lt hn) h₄) hcell hp⟩
  · rw [Cell.stage, Action.bind_of_ok htable, Action.bind_of_ok hnew, Action.bind_of_ok hplace]
    exact Action.bind_of_ok hset
  · rw [hregistry, h₄.other hstore.apart.1.symm, h₃.self]

/-! ## Collections -/

/-- What lives on is kept by the roots, or by userdata that are taken up. -/
theorem survives_iff_kept : m.Survives r ↔ m.heap.Kept m.IsRoot r ∨ m.heap.Kept m.Doomed r := by
  constructor
  · intro h
    refine Heap.Kept.least (S := fun s => m.heap.Kept m.IsRoot s ∨ m.heap.Kept m.Doomed s)
      (fun s hs hc => hs.imp_right fun h => .root h hc) (fun s t hs hholds hc => ?_) h
    exact hs.imp (fun h => h.held hholds hc) fun h => h.held hholds hc
  · rintro (h | h)
    · exact .root (Or.inl h) h.contains
    · exact h.mono fun _ => Or.inr

/-- Without a finalizer a collection does not take a userdata up. -/
theorem not_doomed_of_plain (h : m.heap.awaitsFinalizer r = false) : ¬m.Doomed r := fun hr => by
  rw [Heap.awaitsFinalizer_iff.2 hr.2] at h
  cases h

/-- A cell that is not taken up is one after a collection, with its payload, unless it is freed. -/
theorem IsCell.swept (h : m.IsCell r) (hplain : ¬m.Doomed r) (hr : m.Survives r) :
    m.swept.IsCell r ∧ ∀ u, m.heap.object? r = some (.userdata u) → m.swept.heap.object? r = some (.userdata u) := by
  have hsame : ∀ u, m.heap.object? r = some (.userdata u) → m.swept.heap.object? r = some (.userdata u) := fun u hu => by
    rw [swept_userdata hr hu, decide_eq_false (mt mem_doomed_iff.1 hplain), Bool.or_false]
  refine ⟨?_, hsame⟩
  obtain ⟨u, hu, hrest⟩ := h
  exact ⟨u, hsame u hu, hrest⟩

/-- A collection takes the cells out of their table that it frees. -/
theorem StoresCells.swept (h : m.StoresCells c mt C L) (hw : m.heap.WellFormed) (hc : m.Survives c)
    (hL : ∀ e ∈ L, m.IsCell e.2 ∧ ¬m.Doomed e.2) :
    m.swept.StoresCells c mt { C with entries := m.remaining C } (L.filter fun e => m.swept.heap.contains e.2) := by
  obtain ⟨M, hM, hmode⟩ := h.weak
  have hmt : m.Survives mt := hc.held (.metatable h.table h.metatable) (Heap.contains_of_object? hM)
  refine ⟨swept_table hc h.table, ?_, h.metatable, ⟨_, swept_table hmt hM, field_remaining_string (hw.unique _ _ hM) hmode⟩, ?_⟩
  · have hkept : ∀ e ∈ L, (!m.flagged.losesEntry m.survivors (m.flagged.weakMode C) (Cell.entry e)) =
        m.swept.heap.contains e.2 := by
      intro e he
      obtain ⟨⟨u, hu, hfin, -⟩, hplain⟩ := hL e he
      have hloses := loses_userdata_iff ((Heap.modeSays_of_field h.metatable hM hmode 'v').2 (by decide))
        (k := .integer (Int64.ofNat e.1)) rfl hu hfin
      rw [Bool.eq_iff_iff, Bool.not_eq_true', ← Bool.not_eq_true, losesEntry_iff, contains_swept_iff]
      exact (not_congr hloses).trans (Classical.not_not.trans (and_iff_left hplain))
    refine (h.entries.filter _).trans ?_
    rw [List.filter_map]
    exact .of_eq (congrArg _ (List.filter_congr hkept))
  · rw [registry_swept, globals_swept]
    exact h.apart

/-- What a collection is to find: no cell has a finalizer to run, and the registry holds its values strongly. -/
structure Sweepable (m : Machine χ σ) (b : CellBook) : Prop where
  plain : ∀ c ∈ b.living, m.heap.awaitsFinalizer c.2 = false
  strong : ∀ R, m.heap.object? m.registry = some (.table R) → ¬m.heap.ModeSays R 'v'

/-- The book after a collection has the cells that it does not free. -/
theorem Books.swept (hm : m.Books b) (h : m.Sweepable b) : m.swept.Books (b.after m .sweep) := by
  obtain ⟨R, hR⟩ := hm.registry
  have hstrong := h.strong R hR
  have hR' : m.swept.heap.object? m.swept.registry = some (.table { R with entries := m.remaining R }) := by
    rw [registry_swept]
    exact swept_table (survives_registry hR) hR
  have hfield := field_remaining_of_strong (hm.wellFormed.unique _ _ hR) hstrong
  have hnames : ∀ c, m.swept.Registered Registry.cells c ↔ m.Registered Registry.cells c := fun c => by
    rw [registered_iff hR', registered_iff hR, hfield]
  have hcells : ∀ e ∈ b.living, m.IsCell e.2 ∧ ¬m.Doomed e.2 := fun e he =>
    ⟨(hm.living e he).2, not_doomed_of_plain (h.plain e he)⟩
  refine ⟨wellFormed_swept hm.wellFormed, ⟨_, hR'⟩, ?_, fun R'' h => ?_, fun c hc => ?_, fun hne => ?_, fun e he => ?_⟩
  · obtain ⟨hne, hthere⟩ := hm.globals
    rw [registry_swept, globals_swept, contains_swept_iff]
    exact ⟨hne, .root (Or.inl (.root (Or.inr (Or.inl rfl)) hthere)) hthere⟩
  · cases hR'.symm.trans h
    rw [hfield]
    exact hm.counted R hR
  · have hc := (hnames c).1 hc
    obtain ⟨mt, C, hstore⟩ := hm.store c hc
    exact ⟨mt, _, hstore.swept hm.wellFormed (survives_of_held hR hstrong hc (Heap.contains_of_object? hstore.table)) hcells⟩
  · obtain ⟨c, hc⟩ := hm.listed fun hnil => hne (by rw [CellBook.after, hnil]; rfl)
    exact ⟨c, (hnames c).2 hc⟩
  · obtain ⟨he, hsurvives⟩ := List.mem_filter.1 he
    obtain ⟨hcell, hnot⟩ := hcells e he
    exact ⟨(hm.living e he).1, (hcell.swept hnot (contains_swept_iff.1 hsurvives)).1⟩

end Machine

end ScriptHost

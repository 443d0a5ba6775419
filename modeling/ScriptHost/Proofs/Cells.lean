import ScriptHost.Proofs.Booking

/-!
# Staged cells

A run that spares the cells keeps their book (`Books.follow`), so no cell is listed where another one is or was, all that are alive
are counted, and a collection goes by what keeps a cell elsewhere (`staged_cells_booked`). Native code that minds the binding layer
spares the cells (`Course.sparesCells`). It is not enough that native code leaves the table of cells and its entries alone
(`CountsCells`).
-/

namespace ScriptHost

variable {χ σ : Type}

namespace Machine

variable {m m' : Machine χ σ} {b : CellBook} {e : Event χ σ} {es es' : List (Event χ σ)} {r : Ref}
  {D : Machine χ σ → CellBook → Prop}

/-! ## Runs -/

/-- A staging makes a cell that was not there, with its payload, and the book has it under the next number. -/
theorem Books.staged (hm : m.Books b) (hs : m.SparesCells e) {p : Payload} (h : e.staged? m = some p)
    (hn : b.count + 1 < Cell.places) :
    ∃ r, e.cell? m = some r ∧ ¬m.heap.contains r = true ∧ (m.after e).heap.object? r = some (.userdata (.ofPayload p)) ∧
      b.after m e = ⟨b.count + 1, b.living ++ [(b.count + 1, r)]⟩ ∧ (m.after e).Books (b.after m e) := by
  obtain ⟨r, m', hstage, hfresh, hcell, hm'⟩ := hm.exists_stage (hs.payload p h) hn
  obtain ⟨hafter, hr⟩ := Event.after_of_staged h hstage
  have hbook := b.after_staged h hr
  refine ⟨r, hr, hfresh, hafter ▸ hcell, hbook, ?_⟩
  rw [hafter, hbook]
  exact hm'

/-- The entry of a new cell is added to those that are in the table of cells. -/
theorem Books.entries_of_staged (hm : m.Books b) (hm' : m'.Books ⟨b.count + 1, b.living ++ [(b.count + 1, r)]⟩) :
    m'.cellEntries.Perm (Cell.entry (b.count + 1, r) :: m.cellEntries) := by
  have hperm := hm'.entries.1
  rw [List.map_append] at hperm
  exact hperm.trans ((List.perm_append_singleton _ _).trans (hm.entries.1.symm.cons _))

/-- A collection goes by what keeps a cell elsewhere. -/
theorem Books.freed_iff (hm : m.Books b) {c : Nat × Ref} (hc : c ∈ b.living) :
    (m.swept.heap.contains c.2 = true ↔ m.heap.Kept m.IsRoot c.2 ∨ m.heap.Kept m.Doomed c.2) ∧
      ∀ t, m.Registered Registry.cells t → ¬m.heap.Holds t c.2 := by
  refine ⟨contains_swept_iff.trans survives_iff_kept, fun t ht => ?_⟩
  obtain ⟨mt, C, hstore⟩ := hm.store t ht
  exact hstore.not_holds (hm.living c hc).2

/-- An event keeps the book. -/
theorem Books.after (hm : m.Books b) (he : m.Allows (fun _ _ => True) e) (hs : m.SparesCells e)
    (hsweepable : e = .sweep → m.Sweepable b) (hn : (b.after m e).count < Cell.places) : (m.after e).Books (b.after m e) := by
  by_cases hsweep : e = .sweep
  · subst hsweep
    exact hm.swept (hsweepable rfl)
  cases h : e.staged? m with
  | none =>
    rw [CellBook.after_of_none h hsweep]
    exact hm.unstaged (fun q hq => by subst hq; exact he.1) hs hsweep h
  | some p =>
    obtain ⟨-, -, -, -, -, hm'⟩ := hm.staged hs h (b.count_after_staged h ▸ hn)
    exact hm'

/-- An event leaves the payload of a cell that stays alive, unless it changes it. -/
theorem Books.payload_after (hm : m.Books b) (he : m.Allows (fun _ _ => True) e)
    (hsweepable : e = .sweep → m.Sweepable b) {c : Nat × Ref} (hc : c ∈ b.living) (hc' : c ∈ (b.after m e).living)
    (hpays : ¬e.Repays c.2) {u : Userdata} (hu : m.heap.object? c.2 = some (.userdata u)) :
    ∃ u', (m.after e).heap.object? c.2 = some (.userdata u') ∧ u'.payload = u.payload := by
  have hcell := (hm.living c hc).2
  by_cases hsweep : e = .sweep
  · subst hsweep
    have hsurvives := contains_swept_iff.1 (List.mem_filter.1 hc').2
    exact ⟨u, (hcell.swept (not_doomed_of_plain ((hsweepable rfl).plain c hc)) hsurvives).2 u hu, rfl⟩
  · exact (hcell.after hm.wellFormed hm.registry (fun q hq => by subst hq; exact he.1) hsweep).2 hpays u hu

/-- At the beginning of each collection among the events this holds of the machine and of the book. -/
def AtSweepsWith (D : Machine χ σ → CellBook → Prop) (m : Machine χ σ) (b : CellBook) (es : List (Event χ σ)) : Prop :=
  ∀ es₁ es₂, es = es₁ ++ .sweep :: es₂ → D (m.follow es₁) (m.cellBook b es₁)

theorem atSweepsWith_nil : m.AtSweepsWith D b [] := fun _ _ hes => by simp at hes

theorem atSweepsWith_cons : m.AtSweepsWith D b (e :: es) ↔
    (e = .sweep → D m b) ∧ (m.after e).AtSweepsWith D (b.after m e) es := by
  constructor
  · exact fun h => ⟨fun he => h [] es (by rw [he]; rfl), fun es₁ es₂ hes => h (e :: es₁) es₂ (by rw [hes]; rfl)⟩
  · rintro ⟨hnow, hlater⟩ es₁ es₂ hes
    cases es₁ with
    | nil => exact hnow (List.cons.inj hes).1
    | cons e' es₁ =>
      obtain ⟨rfl, hrest⟩ := List.cons.inj hes
      exact hlater es₁ es₂ hrest

theorem atSweepsWith_append : m.AtSweepsWith D b (es ++ es') ↔
    m.AtSweepsWith D b es ∧ (m.follow es).AtSweepsWith D (m.cellBook b es) es' := by
  induction es generalizing m b with
  | nil => exact ⟨fun h => ⟨atSweepsWith_nil, h⟩, fun h => h.2⟩
  | cons e es ih =>
    rw [List.cons_append, atSweepsWith_cons, atSweepsWith_cons, ih, and_assoc]
    exact Iff.rfl

/-- A run keeps the book, and the payloads of cells that stay alive, unless it changes them. -/
theorem Books.follow (hm : m.Books b) (hes : Course (fun _ _ => True) m es) (hs : m.AtEvents SparesCells es)
    (hsweepable : m.AtSweepsWith Sweepable b es) (hn : (m.cellBook b es).count < Cell.places) :
    (m.follow es).Books (m.cellBook b es) ∧
    ∀ c ∈ b.living, c ∈ (m.cellBook b es).living → m.AtEvents (fun _ e => ¬e.Repays c.2) es →
      ∀ u, m.heap.object? c.2 = some (.userdata u) →
        ∃ u', (m.follow es).heap.object? c.2 = some (.userdata u') ∧ u'.payload = u.payload := by
  induction es generalizing m b with
  | nil => exact ⟨hm, fun c _ _ _ u hu => ⟨u, hu, rfl⟩⟩
  | cons e es ih =>
    obtain ⟨hnow, hlater⟩ := atSweepsWith_cons.1 hsweepable
    obtain ⟨hs, hrest⟩ := atEvents_cons.1 hs
    obtain ⟨hcount, hliving⟩ := CellBook.cellBook_spec (b.after m e) (m.after e) es
    have hm' := hm.after hes.1 hs hnow (Nat.lt_of_le_of_lt hcount hn)
    obtain ⟨hbooks, hpayload⟩ := ih hm' hes.2 hrest hlater hn
    refine ⟨hbooks, fun c hc hend hpays u hu => ?_⟩
    obtain ⟨hpays, hrest⟩ := atEvents_cons.1 hpays
    -- what is alive in the end was alive after the first event
    have hle : c.1 ≤ (b.after m e).count := Nat.le_trans (hm.living c hc).1 (b.after_spec m e).1
    have hmid := hliving c hend hle
    obtain ⟨u', hu', hpay⟩ := hm.payload_after hes.1 hnow hc hmid hpays hu
    obtain ⟨u'', hu'', hpay'⟩ := hpayload c hmid hend hrest u' hu'
    exact ⟨u'', hu'', hpay'.trans hpay⟩

/-! ## Who spares the cells -/

variable {strict : Prop}

/-- Native code that minds the binding layer writes no sealed table, and gives it no other metatable. -/
theorem Managed.spares_sealed {S : Scope} (hm : m.Managed S.strict) (he : m.Allows (Minds S) e) {t : Ref} (ht : m.Sealed t) :
    e.written? m t = none ∧ ¬e.Reclasses t := by
  have hwrite : ∀ {s : Ref} {key v : Value}, ¬m.Sealed s → (if s = t then some (key, v) else none) = none := fun hs =>
    if_neg fun h => hs (by rwa [h])
  cases e with
  | ask q =>
    cases q with
    | rawSet s key v => exact ⟨hwrite he.2.1, id⟩
    | remove s key => exact ⟨hwrite he.2.1, id⟩
    | setMetatable v mt =>
      cases v with
      | table s =>
        refine ⟨rfl, fun h => he.2.1 ?_⟩
        obtain rfl : s = t := h
        exact ht
      | _ => exact ⟨rfl, id⟩
    | setIndex => exact he.1.elim
    | _ => exact ⟨rfl, id⟩
  | store s key v =>
    obtain ⟨target, hp, hlands⟩ := he
    exact ⟨hwrite (hp.lands hm.orderly hlands).1, id⟩
  | write call =>
    refine ⟨?_, id⟩
    simp only [Event.written?]
    split
    · rename_i s hs
      obtain ⟨r, u, -, hu, henv⟩ := exists_of_shadow? hs
      exact hwrite (hm.orderly.environment r u s hu henv)
    · rfl
  | _ => exact ⟨rfl, id⟩

/-- Native code that minds the binding layer and wraps under names of classes asks for no table under a reserved name. -/
theorem not_reserved_of_names (he : m.Allows (Minds (.wide True)) e) {name : String} (hname : e.Names name) :
    name ∉ Registry.reserved := by
  cases e with
  | ask q =>
    cases q with
    | wrap a n =>
      obtain ⟨ha, rfl⟩ := hname
      exact (he.2.resolve_left ha).2.resolve_right fun h => h.1 trivial
    | metatableNamed n =>
      obtain rfl : n = name := hname
      exact he.2
    | _ => exact hname.elim
  | _ => exact hname.elim

/-- Native code that minds the binding layer and wraps under names of classes spares the cells. -/
theorem Managed.sparesCells (hm : m.Managed True) (he : m.Allows (Minds (.wide True)) e) : m.SparesCells e := by
  have hsealed : ∀ t, m.CellTable t → m.Sealed t := by
    rintro t ⟨c, hc, rfl | ⟨C, hC, hmt⟩⟩
    · exact .of_registered hc
    · exact .of_badge ⟨_, by decide, c, C, hc, hC, hmt⟩
  have hregistry := hm.spares_sealed he (Or.inl rfl)
  refine ⟨fun name hname => ?_, fun key v hwrite => ?_, fun t ht => hm.spares_sealed he (hsealed t ht),
    fun name t hname ht => ?_, fun p hp a => ?_⟩
  · have hfree := not_reserved_of_names he hname
    exact ⟨fun h => hfree (h ▸ by decide), fun h => hfree (h ▸ by decide)⟩
  · cases hregistry.1.symm.trans hwrite
  · rcases ht with rfl | ⟨c, hc, rfl | ⟨C, hC, hmt⟩⟩
    · exact absurd rfl (hm.orderly.unshared.registered name _ hname).1
    · exact hm.orderly.unshared.single name _ _ hname hc
    · obtain ⟨mt', M, hmt', -, -, -, hnot⟩ := (hm.orderly.badged _ (by decide) c C hc hC).2 _ Registry.modeOf_cells
      cases hmt.symm.trans hmt'
      exact absurd hname (hnot name)
  · cases e with
    | ask q =>
      cases q with
      | stage p' =>
        cases hp
        exact he.2.2 a
      | stageInteger v =>
        cases hp
        exact nofun
      | stageArguments v =>
        cases v with
        | table t =>
          obtain ⟨T, -, rfl⟩ := Option.map_eq_some_iff.1 hp
          exact nofun
        | _ => cases hp
      | _ => cases hp
    | _ => cases hp

/-- There the registry holds its values strongly. -/
theorem Managed.sweepable (hm : m.Managed strict) (hplain : ∀ c ∈ b.living, m.heap.awaitsFinalizer c.2 = false) :
    m.Sweepable b := by
  refine ⟨hplain, fun R hR => ?_⟩
  obtain ⟨R', hR', hmt⟩ := hm.orderly.unshared.registry
  cases hR.symm.trans hR'
  exact Heap.not_modeSays_of_metatable_none hmt 'v'

end Machine

open Machine in
/-- A course of native code that minds the binding layer spares the cells. -/
theorem Course.sparesCells {m : Machine χ σ} {es : List (Event χ σ)} (h : Course (Minds (.wide True)) m es) (hm : m.Managed True) :
    m.AtEvents SparesCells es := by
  induction es generalizing m with
  | nil => exact atEvents_nil
  | cons e es ih => exact atEvents_cons.2 ⟨hm.sparesCells h.1, ih h.2 (hm.after (S := .wide True) (fun _ h => h) h.1)⟩

/-! ## What the book says of a run -/

open Machine in
/-- In every run that spares the cells and stages fewer than `2 ^ 63 - 1` of them, where no collection finds a cell with a
finalizer, or the registry weak: the table of cells has the cells that are alive, each under the number it was staged as, and they
are counted. A staging makes a new cell and adds its entry, under a number larger than that of any earlier one, to those that are
there. A collection frees a cell unless the roots keep it, or a userdata that is taken up, and the table of cells keeps none. A cell
that stays alive has its payload until that is changed. -/
theorem staged_cells_booked {limits : Limits} {host : σ} {es : List (Event χ σ)}
    (hes : Course (fun _ _ => True) (.start limits host) es) (hspares : (start limits host).AtEvents SparesCells es)
    (hsweepable : (start limits host).AtSweepsWith Sweepable .empty es)
    (hfew : ((start limits host).cellBook .empty es).count < Cell.places) {es₁ es₂ : List (Event χ σ)} (hsplit : es = es₁ ++ es₂) :
    let m := (start limits host).follow es₁
    let b := (start limits host).cellBook .empty es₁
    (m.cellEntries.Perm (b.living.map Cell.entry) ∧ m.cellCount = b.living.length ∧
      ∀ c ∈ b.living, c.1 ≤ b.count ∧ m.heap.contains c.2 = true) ∧
    (∀ e rest p, es₂ = e :: rest → e.staged? m = some p →
      (∃ r, e.cell? m = some r ∧ ¬m.heap.contains r = true ∧ (m.after e).heap.object? r = some (.userdata (.ofPayload p)) ∧
        (m.after e).cellEntries.Perm (Cell.entry (b.count + 1, r) :: m.cellEntries)) ∧
      ∀ es₀ e₀ mid, es₁ = es₀ ++ e₀ :: mid → (e₀.staged? ((start limits host).follow es₀)).isSome →
        ((start limits host).cellBook .empty es₀).count + 1 < b.count + 1) ∧
    (∀ rest, es₂ = .sweep :: rest → ∀ c ∈ b.living,
      (m.swept.heap.contains c.2 = true ↔ m.heap.Kept m.IsRoot c.2 ∨ m.heap.Kept m.Doomed c.2) ∧
        ∀ t, m.Registered Registry.cells t → ¬m.heap.Holds t c.2) ∧
    ∀ mid rest, es₂ = mid ++ rest → ∀ c ∈ b.living, c ∈ (m.cellBook b mid).living →
      m.AtEvents (fun _ e => ¬e.Repays c.2) mid → ∀ u, m.heap.object? c.2 = some (.userdata u) →
        ∃ u', (m.follow mid).heap.object? c.2 = some (.userdata u') ∧ u'.payload = u.payload := by
  subst hsplit
  intro m b
  obtain ⟨hes₁, hes₂⟩ := course_append.1 hes
  obtain ⟨hspares₁, hspares₂⟩ := atEvents_append.1 hspares
  obtain ⟨hsweepable₁, hsweepable₂⟩ := atSweepsWith_append.1 hsweepable
  rw [cellBook_append] at hfew
  have hfew₁ := Nat.lt_of_le_of_lt (b.cellBook_spec m es₂).1 hfew
  have hm := ((books_start limits host).follow hes₁ hspares₁ hsweepable₁ hfew₁).1
  obtain ⟨hentries, hcount⟩ := hm.entries
  refine ⟨⟨hentries, hcount, fun c hc => ⟨(hm.living c hc).1, (hm.living c hc).2.contains⟩⟩, ?_,
    fun _ _ c hc => hm.freed_iff hc, ?_⟩
  · rintro e rest p rfl h
    have hn : b.count + 1 < Cell.places := by
      rw [← b.count_after_staged h]
      exact Nat.lt_of_le_of_lt ((b.after m e).cellBook_spec _ rest).1 hfew
    obtain ⟨r, hr, hfresh, hcell, hbook, hm'⟩ := hm.staged (atEvents_cons.1 hspares₂).1 h hn
    refine ⟨⟨r, hr, hfresh, hcell, hm.entries_of_staged (hbook ▸ hm')⟩, ?_⟩
    rintro es₀ e₀ mid rfl h₀
    exact Nat.succ_lt_succ (CellBook.count_lt_of_staged _ _ h₀)
  · rintro mid rest rfl
    obtain ⟨hmid, -⟩ := course_append.1 hes₂
    obtain ⟨hsparesMid, -⟩ := atEvents_append.1 hspares₂
    obtain ⟨hsweepableMid, -⟩ := atSweepsWith_append.1 hsweepable₂
    rw [cellBook_append] at hfew
    have hfewMid := Nat.lt_of_le_of_lt ((m.cellBook b mid).cellBook_spec _ rest).1 hfew
    exact (hm.follow hmid hsparesMid hsweepableMid hfewMid).2

/-! ## A slot that is used again -/

/-- Two cells are staged, of which one goes onto the stack. After a collection another cell is staged. -/
def restaging : List (Event Unit Unit) :=
  [.ask (.stage (.int32 7)), .ask (.push (.userdata ⟨4, 0⟩)), .ask (.stageInteger (.integer 5)), .sweep, .ask (.stage (.byte 2))]

open Machine in
theorem course_restaging : Course (Minds (.wide True)) (.start .standard ()) restaging :=
  ⟨⟨trivial, trivial, nofun⟩, ⟨trivial, trivial⟩, ⟨trivial, trivial⟩, rfl, ⟨trivial, trivial, nofun⟩, trivial⟩

open Machine in
theorem sweepable_restaging : (start .standard () : Machine Unit Unit).AtSweepsWith Sweepable .empty restaging := by
  have hstaged : Course (Minds (.wide True)) (.start .standard ()) (restaging.take 3) :=
    (course_append.1 ((List.take_append_drop 3 restaging).symm ▸ course_restaging)).1
  have hm := hstaged.managed (S := .wide True) (fun _ h => h) (managed_start .standard ())
  refine atSweepsWith_cons.2 ⟨nofun, atSweepsWith_cons.2 ⟨nofun, atSweepsWith_cons.2 ⟨nofun, ?_⟩⟩⟩
  exact atSweepsWith_cons.2 ⟨fun _ => hm.sweepable (by decide +kernel), atSweepsWith_cons.2 ⟨nofun, atSweepsWith_nil⟩⟩

open Machine in
/-- The third cell has the slot in the heap of the second, which was freed, but not its number, and the first has its payload. -/
theorem staged_cells_booked_restaging :
    ((start .standard ()).follow restaging).cellEntries.Perm [(.integer 1, .userdata ⟨4, 0⟩), (.integer 3, .userdata ⟨5, 1⟩)] ∧
      ((start .standard ()).follow restaging).cellCount = 2 ∧
      ∃ u, ((start .standard ()).follow restaging).heap.object? ⟨4, 0⟩ = some (.userdata u) ∧ u.payload = .int32 7 := by
  have hes : Course (fun _ _ => True) (.start .standard ()) restaging :=
    ⟨⟨trivial, trivial⟩, ⟨trivial, trivial⟩, ⟨trivial, trivial⟩, rfl, ⟨trivial, trivial⟩, trivial⟩
  have hspares := course_restaging.sparesCells (managed_start .standard ())
  have hfew : ((start .standard ()).cellBook .empty restaging).count < Cell.places := by decide +kernel
  have hliving : ((start .standard ()).cellBook .empty restaging).living = [(1, ⟨4, 0⟩), (3, ⟨5, 1⟩)] := by decide +kernel
  obtain ⟨⟨hentries, hcount, -⟩, -⟩ :=
    staged_cells_booked hes hspares sweepable_restaging hfew (List.append_nil restaging).symm
  obtain ⟨-, -, -, hpayload⟩ := staged_cells_booked hes hspares sweepable_restaging hfew (List.take_append_drop 1 restaging).symm
  rw [hliving] at hentries hcount
  have hlast := hpayload (restaging.drop 1) [] (List.append_nil _).symm (1, ⟨4, 0⟩) (by decide +kernel) (by decide +kernel)
    (atEvents_cons.2 ⟨id, atEvents_cons.2 ⟨id, atEvents_cons.2 ⟨id, atEvents_cons.2 ⟨id, atEvents_nil⟩⟩⟩⟩)
    ⟨.int32 7, none, none, false⟩ (by decide +kernel)
  rw [← follow_append, List.take_append_drop] at hlast
  exact ⟨hentries, hcount, hlast⟩

/-! ## Native code that does not spare the cells -/

/-- The event wraps under no reserved name, and writes neither the table of cells nor the entries of the registry for cells. -/
structure Machine.LeavesCells (m : Machine χ σ) (e : Event χ σ) : Prop where
  wraps : ∀ a name, e = .ask (.wrap a name) → name ∉ Registry.reserved
  entries : ∀ key v, e.written? m m.registry = some (key, v) → key ≠ .string Registry.cells ∧ key ≠ .string Registry.nextCell
  table : ∀ c, Registry.find? m Registry.cells = some c → e.written? m c = none ∧ ¬e.Reclasses c

open Machine in
/-- The table of cells counts the cells that are alive after the run and holds none of them, if the run leaves that table and its
entries alone, and no cell has a finalizer. -/
def CountsCells (es : List (Event Unit Unit)) : Prop :=
  Course (fun _ _ => True) (.start .standard ()) es → (start .standard ()).AtEvents LeavesCells es →
    (start .standard ()).AtSweepsWith (fun m b => ∀ c ∈ b.living, m.heap.awaitsFinalizer c.2 = false) .empty es →
    ((start .standard ()).cellBook .empty es).count < Cell.places →
      ((start .standard ()).follow es).cellCount = ((start .standard ()).cellBook .empty es).living.length ∧
      ∀ c ∈ ((start .standard ()).cellBook .empty es).living, ∀ t,
        ((start .standard ()).follow es).Registered Registry.cells t → ¬((start .standard ()).follow es).heap.Holds t c.2

/-- The registry gets a metatable that makes it weak, so a collection frees the table of cells. -/
def weakRegistry : List (Event Unit Unit) :=
  [.ask .newTable, .ask (.rawSet ⟨2, 0⟩ (.string "__mode") (.string "v")), .ask (.setMetatable (.table ⟨0, 0⟩) (some ⟨2, 0⟩)),
    .ask (.stage (.int32 7)), .ask (.push (.userdata ⟨5, 0⟩)), .sweep]

/-- A table is made under the name of the counter, so the second cell gets the number of the first. -/
def countedAgain : List (Event Unit Unit) :=
  [.ask (.stage (.int32 7)), .ask (.metatableNamed Registry.nextCell), .ask (.stage (.int32 8))]

/-- The metatable of the table of cells loses its text, so the table holds the cell. -/
def strongTable : List (Event Unit Unit) :=
  [.ask (.stage (.int32 7)), .ask (.rawSet ⟨3, 0⟩ (.string "__mode") (.string ""))]

/-- The table of cells is also that of the enumerations, so an enumeration is counted as a cell. -/
def sharedTable : List (Event Unit Unit) :=
  [.ask (.stage (.int32 7)), .ask (.rawSet ⟨0, 0⟩ (.string Registry.enumerations) (.table ⟨2, 0⟩)),
    .ask (.defineEnums [⟨"E", []⟩])]

namespace Machine

variable {m : Machine χ σ} {e : Event χ σ}

/-- What writes nothing by hand and wraps nothing leaves the cells. -/
theorem leavesCells_of_unwritten (hwrap : ∀ a name, e ≠ .ask (.wrap a name)) (h : ∀ t, e.written? m t = none ∧ ¬e.Reclasses t) :
    m.LeavesCells e := by
  refine ⟨fun a name he => absurd he (hwrap a name), fun key v hwrite => ?_, fun c _ => h c⟩
  cases (h m.registry).1.symm.trans hwrite

end Machine

open Machine in
theorem not_countsCells_weakRegistry : ¬CountsCells weakRegistry := by
  intro h
  have hwrite : Registry.find? ((start .standard () : Machine Unit Unit).follow (weakRegistry.take 1)) Registry.cells = none := by
    decide +kernel
  have hclass : Registry.find? ((start .standard () : Machine Unit Unit).follow (weakRegistry.take 2)) Registry.cells = none := by
    decide +kernel
  have hleaves : (start .standard ()).AtEvents LeavesCells weakRegistry := by
    refine atEvents_cons.2 ⟨leavesCells_of_unwritten nofun fun _ => ⟨rfl, id⟩, atEvents_cons.2 ⟨⟨nofun, nofun, fun c hc => ?_⟩,
      atEvents_cons.2 ⟨⟨nofun, nofun, fun c hc => ?_⟩, atEvents_cons.2 ⟨leavesCells_of_unwritten nofun fun _ => ⟨rfl, id⟩,
        atEvents_cons.2 ⟨leavesCells_of_unwritten nofun fun _ => ⟨rfl, id⟩,
          atEvents_cons.2 ⟨leavesCells_of_unwritten nofun fun _ => ⟨rfl, id⟩, atEvents_nil⟩⟩⟩⟩⟩⟩
    · cases hwrite.symm.trans hc
    · cases hclass.symm.trans hc
  have hplain : (start .standard () : Machine Unit Unit).AtSweepsWith
      (fun m b => ∀ c ∈ b.living, m.heap.awaitsFinalizer c.2 = false) .empty weakRegistry := by
    refine atSweepsWith_cons.2 ⟨nofun, atSweepsWith_cons.2 ⟨nofun, atSweepsWith_cons.2 ⟨nofun, atSweepsWith_cons.2 ⟨nofun, ?_⟩⟩⟩⟩
    exact atSweepsWith_cons.2 ⟨nofun, atSweepsWith_cons.2 ⟨fun _ => by decide +kernel, atSweepsWith_nil⟩⟩
  obtain ⟨hcount, -⟩ := h ⟨⟨trivial, trivial⟩, ⟨trivial, trivial⟩, ⟨trivial, trivial⟩, ⟨trivial, trivial⟩, ⟨trivial, trivial⟩, rfl,
    trivial⟩ hleaves hplain (by decide +kernel)
  revert hcount
  decide +kernel

open Machine in
theorem not_countsCells_countedAgain : ¬CountsCells countedAgain := by
  intro h
  obtain ⟨hcount, -⟩ := h ⟨⟨trivial, trivial⟩, ⟨trivial, trivial⟩, ⟨trivial, trivial⟩, trivial⟩
    (atEvents_cons.2 ⟨leavesCells_of_unwritten nofun fun _ => ⟨rfl, id⟩,
      atEvents_cons.2 ⟨leavesCells_of_unwritten nofun fun _ => ⟨rfl, id⟩,
        atEvents_cons.2 ⟨leavesCells_of_unwritten nofun fun _ => ⟨rfl, id⟩, atEvents_nil⟩⟩⟩)
    (atSweepsWith_cons.2 ⟨nofun, atSweepsWith_cons.2 ⟨nofun, atSweepsWith_cons.2 ⟨nofun, atSweepsWith_nil⟩⟩⟩) (by decide +kernel)
  revert hcount
  decide +kernel

open Machine in
theorem not_countsCells_strongTable : ¬CountsCells strongTable := by
  intro h
  have hfind : Registry.find? ((start .standard () : Machine Unit Unit).follow (strongTable.take 1)) Registry.cells =
      some ⟨2, 0⟩ := by decide +kernel
  have hlast : (start .standard () : Machine Unit Unit).follow strongTable |>.Registered Registry.cells ⟨2, 0⟩ :=
    ⟨_, rfl, rfl⟩
  have hC : ((start .standard ()).follow strongTable : Machine Unit Unit).heap.object? ⟨2, 0⟩ =
      some (.table ⟨[(.integer 1, .userdata ⟨4, 0⟩)], some ⟨3, 0⟩⟩) := by decide +kernel
  have hM : ((start .standard ()).follow strongTable : Machine Unit Unit).heap.object? ⟨3, 0⟩ =
      some (.table ⟨[(.string "__mode", .string "")], none⟩) := by decide +kernel
  obtain ⟨-, hnot⟩ := h ⟨⟨trivial, trivial⟩, ⟨trivial, trivial⟩, trivial⟩
    (atEvents_cons.2 ⟨leavesCells_of_unwritten nofun fun _ => ⟨rfl, id⟩, atEvents_cons.2 ⟨⟨nofun, nofun, fun c hc => by
      cases hfind.symm.trans hc
      exact ⟨rfl, id⟩⟩, atEvents_nil⟩⟩)
    (atSweepsWith_cons.2 ⟨nofun, atSweepsWith_cons.2 ⟨nofun, atSweepsWith_nil⟩⟩) (by decide +kernel)
  refine hnot (1, ⟨4, 0⟩) (by decide +kernel) ⟨2, 0⟩ hlast (.value hC ?_ List.mem_cons_self rfl)
  rw [Heap.modeSays_of_field rfl hM rfl]
  decide

open Machine in
theorem not_countsCells_sharedTable : ¬CountsCells sharedTable := by
  intro h
  have hfind : Registry.find? ((start .standard () : Machine Unit Unit).follow (sharedTable.take 1)) Registry.cells =
      some ⟨2, 0⟩ := by decide +kernel
  have hwrite : (Machine.LeavesCells ((start .standard ()).follow (sharedTable.take 1) : Machine Unit Unit)
      (.ask (.rawSet ⟨0, 0⟩ (.string Registry.enumerations) (.table ⟨2, 0⟩)))) := by
    refine ⟨nofun, fun key v hkey => ?_, fun c hc => ?_⟩
    · cases hkey
      exact ⟨by decide, by decide⟩
    · cases hfind.symm.trans hc
      exact ⟨rfl, id⟩
  obtain ⟨hcount, -⟩ := h ⟨⟨trivial, trivial⟩, ⟨trivial, trivial⟩, ⟨trivial, trivial⟩, trivial⟩
    (atEvents_cons.2 ⟨leavesCells_of_unwritten nofun fun _ => ⟨rfl, id⟩, atEvents_cons.2 ⟨hwrite,
      atEvents_cons.2 ⟨leavesCells_of_unwritten nofun fun _ => ⟨rfl, id⟩, atEvents_nil⟩⟩⟩)
    (atSweepsWith_cons.2 ⟨nofun, atSweepsWith_cons.2 ⟨nofun, atSweepsWith_cons.2 ⟨nofun, atSweepsWith_nil⟩⟩⟩) (by decide +kernel)
  revert hcount
  decide +kernel

/-- It is not enough that the table of cells and its entries are left alone: the registry must not be weak, no table must be made
under the names for cells, the metatable of the table must stay, and no other name must have the table. -/
theorem cells_counted_if_left_alone_false :
    ¬CountsCells weakRegistry ∧ ¬CountsCells countedAgain ∧ ¬CountsCells strongTable ∧ ¬CountsCells sharedTable :=
  ⟨not_countsCells_weakRegistry, not_countsCells_countedAgain, not_countsCells_strongTable, not_countsCells_sharedTable⟩

end ScriptHost

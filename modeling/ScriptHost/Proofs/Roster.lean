import ScriptHost.Proofs.Minds
import ScriptHost.Proofs.Uniqueness

/-!
# The list of handles, as it is read

What looking an address up, counting the handles and listing them in order say of the pointer table (`Managed.exists_handleOf`,
`Managed.liveHandles_spec`). In a run in which native code minds the binding layer they agree with each other, and each entry of the
pointer table is of a handle that no collection has taken up and that has a shadow (`pointer_table_exact`).
-/

namespace ScriptHost

variable {χ σ : Type} {strict : Prop}

namespace Machine

variable {m : Machine χ σ} {T : Table} {a : Address} {r : Ref}

theorem Orderly.pointerTable?_eq_some_iff (hm : m.Orderly strict) :
    m.pointerTable? = some T ↔ ∃ p, m.Registered Registry.pointers p ∧ m.heap.object? p = some (.table T) := by
  unfold pointerTable?
  rw [Option.bind_eq_some_iff]
  constructor
  · rintro ⟨p, hp, hT⟩
    exact ⟨p, hm.find?_eq_some_iff.1 hp, Heap.table_eq_ok_iff.1 (eq_ok_of_toOption hT)⟩
  · rintro ⟨p, hp, hT⟩
    exact ⟨p, hm.find?_eq_some_iff.2 hp, by rw [Heap.table_eq_ok_iff.2 hT]; rfl⟩

theorem Orderly.lists_iff (hm : m.Orderly strict) :
    m.Lists a r ↔ ∃ T, m.pointerTable? = some T ∧ T.find? (.address a) = some (.userdata r) := by
  constructor
  · rintro ⟨p, T, hp, hT, hfind⟩
    exact ⟨T, hm.pointerTable?_eq_some_iff.2 ⟨p, hp, hT⟩, hfind⟩
  · rintro ⟨T, hT, hfind⟩
    obtain ⟨p, hp, hT⟩ := hm.pointerTable?_eq_some_iff.1 hT
    exact ⟨p, T, hp, hT, hfind⟩

/-- The handle of an address is looked up without a fault, and is the one that is listed. -/
theorem Managed.exists_handleOf (hm : m.Managed strict) (a : Address) :
    ∃ found, m.handleOf a = .ok found ∧ ∀ r, found = some r ↔ m.Lists a r := by
  unfold handleOf
  cases hp : Registry.find? m Registry.pointers with
  | none =>
    refine ⟨none, rfl, fun r => ⟨nofun, ?_⟩⟩
    rintro ⟨p, T, hr, -⟩
    rw [hm.orderly.find?_eq_some_iff.2 hr] at hp
    cases hp
  | some p =>
    have hr := hm.orderly.find?_eq_some_iff.1 hp
    obtain ⟨-, T, hT⟩ := hm.orderly.unshared.registered _ p hr
    simp only [rawGet_of_table hT]
    refine ⟨_, rfl, fun r => ?_⟩
    have hlists : m.Lists a r ↔ T.find? (.address a) = some (.userdata r) := by
      constructor
      · rintro ⟨q, Q, hq, hQ, hfind⟩
        obtain rfl := hq.eq hr
        cases hT.symm.trans hQ
        exact hfind
      · exact fun hfind => ⟨p, T, hr, hT, hfind⟩
    rw [hlists, Table.get]
    cases hfind : T.find? (.address a) with
    | none => simp [Value.userdata?]
    | some v =>
      obtain ⟨s, rfl, -⟩ := hm.find?_pointers hr hT hfind
      simp [Value.userdata?]

theorem Managed.handleOf_eq_some_iff (hm : m.Managed strict) : m.handleOf a = .ok (some r) ↔ m.Lists a r := by
  obtain ⟨found, hfound, hlists⟩ := hm.exists_handleOf a
  rw [hfound, ← hlists, Except.ok.injEq]

theorem Managed.handleOf_eq_none_iff (hm : m.Managed strict) : m.handleOf a = .ok none ↔ ∀ r, ¬m.Lists a r := by
  obtain ⟨found, hfound, hlists⟩ := hm.exists_handleOf a
  simp only [hfound, Except.ok.injEq, ← hlists]
  exact Option.eq_none_iff_forall_ne_some

/-- A handle has the shadow it was made with. -/
theorem Managed.exists_shadow (hm : m.Managed strict) {finalized : Bool} (hr : m.IsHandle r a finalized) :
    ∃ u s E, m.heap.object? r = some (.userdata u) ∧ u.payload = .handle a ∧ u.finalized = finalized ∧
      u.environment = some s ∧ m.heap.object? s = some (.table E) := by
  obtain ⟨u, hu, hpay, hfin⟩ := hr
  obtain ⟨s, henv, -⟩ := hm.rostered.shadow r u a hu hpay
  obtain ⟨⟨E, hE⟩, -⟩ := hm.orderly.unshared.environment r u s hu henv
  exact ⟨u, s, E, hu, hpay, hfin, henv, hE⟩

/-! ## Handles in order -/

/-- The entries of a table of addresses and handles are those pairs, as keys and values. -/
theorem map_filterMap_listedHandle? {entries : List (Key × Value)}
    (h : ∀ e ∈ entries, ∃ a r, e = (Key.address a, Value.userdata r)) :
    (entries.filterMap listedHandle?).map (fun x => (Key.address x.1, Value.userdata x.2)) = entries := by
  induction entries with
  | nil => rfl
  | cons e rest ih =>
    obtain ⟨a, r, rfl⟩ := h e List.mem_cons_self
    have hrest := ih fun e he => h e (List.mem_cons_of_mem _ he)
    simpa [listedHandle?] using hrest

/-- The handles in order: strictly by their addresses, as many as are counted, and exactly those that are listed. -/
theorem Managed.liveHandles_spec (hm : m.Managed strict) :
    m.liveHandles.Pairwise (fun x y => x.1 < y.1) ∧ m.liveHandles.length = m.handleCount ∧
      ∀ a r, (a, r) ∈ m.liveHandles ↔ m.Lists a r := by
  unfold liveHandles handleCount
  cases hT : m.pointerTable? with
  | none =>
    refine ⟨.nil, rfl, fun a r => ⟨nofun, fun h => ?_⟩⟩
    obtain ⟨T, hT', -⟩ := hm.orderly.lists_iff.1 h
    rw [hT] at hT'
    cases hT'
  | some T =>
    obtain ⟨p, hp, hobject⟩ := hm.orderly.pointerTable?_eq_some_iff.1 hT
    have hunique := hm.orderly.wellFormed.unique p T hobject
    have hentries := map_filterMap_listedHandle? fun e he => by
      obtain ⟨a, r, he, -⟩ := hm.rostered.listing p T hp hobject e he
      exact ⟨a, r, he⟩
    simp only [Option.map_some, Option.getD_some]
    generalize T.entries.filterMap listedHandle? = pairs at hentries ⊢
    -- no address is there twice, before the pairs are sorted and after it
    have hne : pairs.Pairwise (fun x y => x.1 ≠ y.1) := by
      have hkeys : (T.entries.map Prod.fst).Nodup := hunique
      rw [← hentries, List.map_map, List.Nodup, List.pairwise_map] at hkeys
      exact hkeys.imp fun h e => h (congrArg Key.address e)
    let le : Address × Ref → Address × Ref → Bool := fun x y => decide (x.1 ≤ y.1)
    have htrans : ∀ x y z, le x y = true → le y z = true → le x z = true :=
      fun x y z h h' => decide_eq_true (UInt64.le_trans (of_decide_eq_true h) (of_decide_eq_true h'))
    have htotal : ∀ x y, (le x y || le y x) = true := fun x y => by simpa [le] using UInt64.le_total x.1 y.1
    have hsorted := List.pairwise_mergeSort htrans htotal pairs
    have hne' := ((List.mergeSort_perm pairs le).pairwise_iff fun h => h.symm).2 hne
    refine ⟨(hsorted.and hne').imp fun h => UInt64.lt_of_le_of_ne (of_decide_eq_true h.1) h.2, ?_, fun a r => ?_⟩
    · rw [List.length_mergeSort, Table.size, ← hentries, List.length_map]
    · rw [List.mem_mergeSort, hm.orderly.lists_iff]
      have hmem : (a, r) ∈ pairs ↔ (Key.address a, Value.userdata r) ∈ T.entries := by
        rw [← hentries, List.mem_map]
        constructor
        · exact fun h => ⟨_, h, rfl⟩
        · rintro ⟨x, hx, e⟩
          cases e
          exact hx
      rw [hmem, hunique.mem_entries_iff]
      constructor
      · exact fun h => ⟨T, hT, h⟩
      · rintro ⟨T', hT', h⟩
        cases hT.symm.trans hT'
        exact h

end Machine

/-! ## Runs -/

/-- In a run in which native code minds the binding layer, on every machine: an entry of the pointer table is an address with a
handle for it that no collection has taken up, and that has a table for its environment; no userdata is listed under two addresses;
the handles in order are strictly in the order of their addresses, and as many as are counted; and looking an address up finds
the handle that is listed for it, or finds none. -/
theorem pointer_table_exact {Γ : Host χ σ} (hΓ : Γ.Lawful (Machine.Minds (.wide strict)) (Machine.Managed strict))
    {m : Machine χ σ} (hm : Reached Γ (Machine.Minds (.wide strict)) m) :
    (∀ T, m.pointerTable? = some T →
      (∀ e ∈ T.entries, ∃ a r u s E, e = (.address a, .userdata r) ∧ m.heap.object? r = some (.userdata u) ∧
        u.payload = .handle a ∧ u.finalized = false ∧ u.environment = some s ∧ m.heap.object? s = some (.table E)) ∧
      ∀ e ∈ T.entries, ∀ e' ∈ T.entries, e.2 = e'.2 → e.1 = e'.1) ∧
    m.liveHandles.Pairwise (fun x y => x.1 < y.1) ∧ m.liveHandles.length = m.handleCount ∧
    ∀ a, ∃ found, m.handleOf a = .ok found ∧ ∀ r, (a, r) ∈ m.liveHandles ↔ found = some r := by
  have hmanaged : m.Managed strict := hm.managed (S := .wide strict) (fun _ h => h) hΓ
  obtain ⟨hsorted, hcount, hmem⟩ := hmanaged.liveHandles_spec
  refine ⟨fun T hT => ?_, hsorted, hcount, fun a => ?_⟩
  · obtain ⟨p, hp, hobject⟩ := hmanaged.orderly.pointerTable?_eq_some_iff.1 hT
    have hlisting := hmanaged.rostered.listing p T hp hobject
    refine ⟨fun e he => ?_, fun e he e' he' hsame => ?_⟩
    · obtain ⟨a, r, rfl, hr⟩ := hlisting e he
      obtain ⟨u, s, E, h⟩ := hmanaged.exists_shadow hr
      exact ⟨a, r, u, s, E, rfl, h⟩
    · obtain ⟨a, r, rfl, hr⟩ := hlisting e he
      obtain ⟨b, s, rfl, hs⟩ := hlisting e' he'
      cases hsame
      rw [(hr.eq hs).1]
  · obtain ⟨found, hfound, hlists⟩ := hmanaged.exists_handleOf a
    exact ⟨found, hfound, fun r => by rw [hmem, hlists]⟩

/-! ## A run with a finalizer that keeps its handle -/

/-- A host that puts arguments among the globals minds the binding layer. -/
theorem mindful_keepingHost (strict : Prop) (S : Scope) (hS : ∀ t, ¬S.spared t) :
    keepingHost.Lawful (Machine.Minds S) (Machine.Managed strict) := by
  intro m f args function k _ hm _ _
  have hm' : (m.enter f args).Managed strict := hm.of_heap_eq rfl rfl rfl
  refine Prog.obeys_request trivial fun m' h => ?_
  cases h
  exact Prog.obeys_request ⟨hm'.orderly.not_sealed_globals, hS _⟩ fun _ _ => trivial

/-- The machine after the finalizer has kept its handle is one of such a run. -/
theorem minded_afterKeep : Reached keepingHost (Machine.Minds (.wide True)) afterKeep := by
  refine (Reached.start .standard ()).exec keepHandle ?_
  refine Prog.obeys_request trivial fun _ _ => Prog.obeys_request (Or.inr ⟨trivial, Or.inl (by decide)⟩) fun _ _ => ?_
  refine Prog.obeys_request trivial fun _ _ => Prog.obeys_request (Or.inl ⟨trivial, by decide +kernel⟩) fun _ _ => ?_
  refine Prog.obeys_request trivial fun _ _ => Prog.obeys_request trivial fun _ _ => ?_
  exact ⟨trivial, trivial⟩

/-- On it the pointer table has one handle, the one that was made after the collection. -/
theorem pointer_table_afterKeep :
    afterKeep.handleOf 0x10 = .ok (some ⟨12, 0⟩) ∧ afterKeep.liveHandles.length = afterKeep.handleCount ∧
      (0x10, ⟨12, 0⟩) ∈ afterKeep.liveHandles ∧ (0x10, ⟨9, 0⟩) ∉ afterKeep.liveHandles := by
  have hΓ := mindful_keepingHost True (.wide True) fun _ h => h
  obtain ⟨-, -, hcount, hfound⟩ := pointer_table_exact hΓ minded_afterKeep
  obtain ⟨found, h, hmem⟩ := hfound 0x10
  have hmanaged : afterKeep.Managed True := minded_afterKeep.managed (S := .wide True) (fun _ h => h) hΓ
  have hlisted := hmanaged.handleOf_eq_some_iff.2 (hmanaged.rostered.listed _ _ isHandle_afterKeep.2 (by decide))
  cases hlisted.symm.trans h
  exact ⟨hlisted, hcount, (hmem _).2 rfl, fun hn => nomatch (hmem _).1 hn⟩

end ScriptHost

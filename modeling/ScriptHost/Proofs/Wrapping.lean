import ScriptHost.Proofs.Edits

/-!
# What wrapping touches

Where each name of the registry has a table of its own, asking for the handle of an address always gives one, and touches nothing
that was there but the registry and the table of handles (`Machine.Unshared.exists_ensureHandle`). Wrapping the address gives that
handle the table under the name of a class for its metatable, and touches nothing else (`Machine.Unshared.wrap_cases`).
-/

namespace ScriptHost.Machine

variable {χ σ : Type} {closed : Prop} {m m' : Machine χ σ}

/-- Asking for the handle of an address gives one, and each name still has a table of its own. At most the table of handles gets a
name, no name of a class is lost, and the objects that were there, apart from the registry and the table of handles, are what they
were. No other userdata is made. -/
theorem Unshared.exists_ensureHandle (hm : m.Unshared closed) (a : Address) :
    ∃ r m', Action.ensureHandle a m = (.ok r, m') ∧ m'.Unshared closed ∧
      (∀ name t, m'.Registered name t → m.Registered name t ∨ name = Registry.pointers) ∧
      (∀ name t, name ∉ Registry.reserved → m.Registered name t → m'.Registered name t) ∧
      (∀ s o, m.heap.object? s = some o → s ≠ m.registry → ¬m.Registered Registry.pointers s →
        m'.heap.object? s = some o) ∧
      ∀ s u, s ≠ r → m'.heap.object? s = some (.userdata u) → m.heap.object? s = some (.userdata u) := by
  obtain ⟨hm', hnext, -⟩ := Action.keeps_ensureHandle a m hm openAll_nil
  have hlasts : ∀ name t, name ∉ Registry.reserved → m.Registered name t →
      ((Action.ensureHandle a : Action χ σ Ref) m).2.Registered name t := fun name t hname =>
    lasts_of_edit (K := fun m => m.Registered name t) (fun _ _ h hk => h.registered hname hk) _ _ hnext
  obtain ⟨R, hR, -⟩ := hm.registry
  obtain ⟨p, m₁, htable, hmade⟩ := Action.exists_registryTable hm.wellFormed hR Registry.pointers (some "v")
  have hpointers : (edits closed : Discipline χ σ).Keeps (OpenAll closed []) (Registry.table Registry.pointers (some "v"))
      fun t => OpenAll closed [t] := Action.keeps_registryTable (by decide) _
  have hm₁ := (hpointers m hm openAll_nil).1
  rw [htable] at hm₁
  -- the table of handles has no object that was there, unless it was the table of handles before
  obtain ⟨hp, hnames, hkept, hother, hmade⟩ : m₁.Registered Registry.pointers p ∧
      (∀ name t, m₁.Registered name t → m.Registered name t ∨ name = Registry.pointers) ∧
      (∀ s o, m.heap.object? s = some o → s ≠ m.registry → m₁.heap.object? s = some o) ∧
      (∀ s o, m.heap.object? s = some o → ¬m.Registered Registry.pointers s → s ≠ p) ∧
      ∀ s u, m₁.heap.object? s = some (.userdata u) → m.heap.object? s = some (.userdata u) := by
    rcases hmade with ⟨rfl, hp⟩ | ⟨T, hregisters, -⟩
    · exact ⟨hp, fun _ _ ht => Or.inl ht, fun _ _ ho _ => ho, fun s o ho hn e => hn (e ▸ hp), fun _ _ hu => hu⟩
    · refine ⟨(hregisters.registered_iff _ _).2 (Or.inl ⟨rfl, rfl⟩), fun name t ht => ?_, fun s o ho hs => hregisters.kept s o hs ho,
        fun s o ho _ => ne_of_not_contains hregisters.fresh ho, hregisters.userdata⟩
      exact ((hregisters.registered_iff name t).1 ht).symm.imp And.right And.left
  obtain ⟨hne, T, hT⟩ := hm₁.registered _ p hp
  rw [Action.ensureHandle, Action.bind_of_ok htable, Action.bind_of_ok (Action.query_of_ok (rawGet_of_table hT a))] at hm' hlasts ⊢
  obtain ⟨r, e, m', hlist, henlists⟩ := Action.exists_listHandle hm₁.wellFormed hT a
  have hlisted : ∀ name t, m'.Registered name t → m.Registered name t ∨ name = Registry.pointers := by
    intro name t ht
    obtain ⟨R₁, hR₁, -⟩ := hm₁.registry
    refine hnames name t ((registered_congr ?_ name t).1 ht)
    rw [henlists.registry, henlists.kept hne.symm hR₁, hR₁]
  cases hfound : T.get (.address a) with
  | userdata s =>
    rw [hfound] at hm' hlasts
    exact ⟨s, m₁, rfl, hm', hnames, hlasts, fun s o ho hs _ => hkept s o ho hs, fun s u _ hu => hmade s u hu⟩
  | _ =>
    rw [hfound] at hm' hlasts
    dsimp only at hm' hlasts
    rw [hlist] at hm' hlasts
    exact ⟨r, m', hlist, hm', hlisted, hlasts, fun s o ho hs hn => henlists.kept (hother s o ho hn) (hkept s o ho hs),
      fun s u hs hu => hmade s u (henlists.userdata_of s u hs hu)⟩

/-- Wrapping an address finds or makes the table under the name, and gives it to the handle for its metatable. Only what is listed
by hand and is no userdata makes it fail. -/
theorem Unshared.wrap_cases {m₁ : Machine χ σ} (hm₁ : m₁.Unshared closed) {a : Address} (ha : a ≠ Address.null) (name : String)
    {r : Ref} (hensure : Action.ensureHandle a m = (.ok r, m₁)) :
    ∃ t m₂, (m₂ = m₁ ∧ m₁.Registered name t ∨ m₁.Registers m₂ name t (.blank name)) ∧
      ((∃ u m₃, Action.wrap a name m = (.ok (.userdata r), m₃) ∧ m₂.heap.object? r = some (.userdata u) ∧
          m₂.Written m₃ r (.userdata { u with metatable := some t })) ∨
        (∀ u, m₂.heap.object? r ≠ some (.userdata u)) ∧ ∃ e, (Action.wrap a name m).1 = .error e) := by
  obtain ⟨R, hR, -⟩ := hm₁.registry
  obtain ⟨t, b, m₂, hnamed, hm₂⟩ := Action.exists_metatableNamed hm₁.wellFormed hR name
  have hwrap : Action.wrap a name m = (Action.setMetatable (.userdata r) (some t) >>= fun _ => pure (.userdata r) :
      Action χ σ Value) m₂ := by
    rw [Action.wrap, if_neg ha, Action.bind_of_ok hensure, Action.bind_of_ok hnamed]
  obtain ⟨hw, M, hM⟩ : m₂.heap.WellFormed ∧ ∃ M, m₂.heap.object? t = some (.table M) := by
    rcases hm₂ with ⟨rfl, ht⟩ | hregisters
    · exact ⟨hm₁.wellFormed, (hm₁.registered name t ht).2⟩
    · exact ⟨hregisters.wellFormed, _, hregisters.table⟩
  have hset : Action.setMetatable (.userdata r) (some t) m₂ = Action.onHeap (fun h => h.changeUserdata r fun u =>
      { u with metatable := some t }) m₂ := by
    rw [Action.setMetatable, Action.bind_of_ok (Action.requireTable_of_table hM)]
  refine ⟨t, m₂, hm₂, ?_⟩
  by_cases hu : ∃ u, m₂.heap.object? r = some (.userdata u)
  · obtain ⟨u, hu⟩ := hu
    obtain ⟨m₃, hchange, hwritten⟩ := Action.exists_changeUserdata hw hu fun u => { u with metatable := some t }
    exact Or.inl ⟨u, m₃, hwrap.trans (Action.bind_of_ok (hset.trans hchange)), hu, hwritten⟩
  · refine Or.inr ⟨fun u e => hu ⟨u, e⟩, ?_⟩
    cases hc : m₂.heap.changeUserdata r fun u => { u with metatable := some t } with
    | ok h' =>
      obtain ⟨u, e, -⟩ := Heap.changeUserdata_eq_ok_iff.1 hc
      exact absurd ⟨u, e⟩ hu
    | error e =>
      have hfail : Action.setMetatable (.userdata r) (some t) m₂ = (.error e, m₂) := by rw [hset, Action.onHeap, hc]
      exact ⟨e, congrArg Prod.fst (hwrap.trans (Action.bind_of_error hfail))⟩

/-- After wrapping an address under a name with a table, the handle has that table for its metatable. The objects that were there,
apart from the registry, the table of handles and userdata, are what they were. -/
theorem Unshared.wrap_registered (hm : m.Unshared closed) {a : Address} {name : String} {t h : Ref}
    (hname : name ∉ Registry.reserved) (ht : m.Registered name t) (hwrap : Action.wrap a name m = (.ok (.userdata h), m')) :
    (∃ u, m'.heap.object? h = some (.userdata u) ∧ u.metatable = some t) ∧
      ∀ s o, m.heap.object? s = some o → s ≠ m.registry → ¬m.Registered Registry.pointers s → (∀ u, o ≠ .userdata u) →
        m'.heap.object? s = some o := by
  have ha : a ≠ Address.null := by
    rintro rfl
    rw [Action.wrap, if_pos rfl] at hwrap
    cases hwrap
  obtain ⟨r, m₁, hensure, hm₁, -, hlasts, hkept, -⟩ := hm.exists_ensureHandle a
  have ht₁ := hlasts name t hname ht
  obtain ⟨t', m₂, hm₂, ⟨u, m₃, hdone, hu, hwritten⟩ | ⟨-, e, he⟩⟩ := hm₁.wrap_cases ha name hensure
  · cases hwrap.symm.trans hdone
    obtain ⟨rfl, ht'⟩ : m₂ = m₁ ∧ m₁.Registered name t' := by
      rcases hm₂ with hsame | hregisters
      · exact hsame
      · exact absurd ht₁ (hregisters.unused t)
    obtain rfl := ht'.eq ht₁
    refine ⟨⟨_, hwritten.self, rfl⟩, fun s o ho hs hn hno => ?_⟩
    have ho₁ := hkept s o ho hs hn
    rw [hwritten.other ?_, ho₁]
    rintro rfl
    exact hno u (Option.some.inj (ho₁.symm.trans hu))
  · rw [hwrap] at he
    cases he

end ScriptHost.Machine

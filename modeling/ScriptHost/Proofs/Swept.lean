import ScriptHost.Proofs.Sealed

/-!
# A collection and the tables of the binding layer

What is sealed survives every collection, and no other table takes its place. Apart from weak entries the tables of the binding
layer are what they were (`Managed.swept`), and the pointer table lists the handles it listed that the collection neither frees nor
takes up (`Managed.lists_swept_iff`).
-/

namespace ScriptHost

variable {χ σ : Type}

/-- A mode says of each half of an entry whether it is weak. -/
theorem Heap.modeSays_of_field {h : Heap χ} {T M : Table} {mt : Ref} {mode : String} (hmt : T.metatable = some mt)
    (hM : h.object? mt = some (.table M)) (hmode : M.field Registry.modeName = .string mode) (letter : Char) :
    h.ModeSays T letter ↔ letter ∈ mode.toList := by
  constructor
  · rintro ⟨mt', M', mode', hmt', hM', hmode', hletter⟩
    cases hmt.symm.trans hmt'
    cases hM.symm.trans hM'
    cases hmode.symm.trans hmode'
    exact hletter
  · exact fun hletter => ⟨mt, M, mode, hmt, hM, hmode, hletter⟩

namespace Machine

variable {strict : Prop} {m : Machine χ σ} {t p r : Ref} {name : String} {T : Table} {a : Address}

/-- What is sealed survives. -/
theorem Orderly.survives (hm : m.Orderly strict) (ht : m.Sealed t) : m.Survives t := by
  obtain ⟨R, hR, hmt⟩ := hm.unshared.registry
  rcases ht with rfl | ⟨name, h⟩ | ht
  · exact (swept_registry_of_strong hR hmt).1
  · exact hm.unshared.survives h
  · obtain ⟨⟨M, hM⟩, -⟩ := hm.of_badge ht
    obtain ⟨name, -, p, T, hp, hT, hbadge⟩ := ht
    exact (hm.unshared.survives hp).held (.metatable hT hbadge) (Heap.contains_of_object? hM)

/-- A table in the registry is there after a collection, without the weak entries it loses. -/
theorem Orderly.swept_table (hm : m.Orderly strict) (hp : m.Registered name p) (hT : m.heap.object? p = some (.table T)) :
    m.swept.heap.object? p = some (.table { T with entries := m.remaining T }) :=
  Machine.swept_table (hm.unshared.survives hp) hT

/-- A table in the registry after a collection was there before it. -/
theorem Orderly.exists_of_swept (hm : m.Orderly strict) (hp : m.swept.Registered name p)
    (hT : m.swept.heap.object? p = some (.table T)) :
    m.Registered name p ∧ ∃ T₀, m.heap.object? p = some (.table T₀) ∧ T = { T₀ with entries := m.remaining T₀ } := by
  have hp' := (hm.unshared.swept_registered_iff name p).1 hp
  obtain ⟨-, T₀, hT₀⟩ := hm.unshared.registered name p hp'
  have h := hm.swept_table hp' hT₀
  cases hT.symm.trans h
  exact ⟨hp', T₀, hT₀, rfl⟩

theorem Orderly.swept_badge_iff (hm : m.Orderly strict) : m.swept.Badge t ↔ m.Badge t := by
  constructor
  · rintro ⟨name, hname, p, T, hp, hT, hmt⟩
    obtain ⟨hp, T₀, hT₀, rfl⟩ := hm.exists_of_swept hp hT
    exact ⟨name, hname, p, T₀, hp, hT₀, hmt⟩
  · rintro ⟨name, hname, p, T, hp, hT, hmt⟩
    exact ⟨name, hname, p, _, (hm.unshared.swept_registered_iff name p).2 hp, hm.swept_table hp hT, hmt⟩

theorem Orderly.swept_sealed_iff (hm : m.Orderly strict) : m.swept.Sealed t ↔ m.Sealed t := by
  simp only [Sealed, registry_swept, hm.unshared.swept_registered_iff, hm.swept_badge_iff]

/-- A collection leaves the tables of the binding layer as they were made. -/
theorem Orderly.swept (hm : m.Orderly strict) : m.swept.Orderly strict where
  unshared := hm.unshared.swept
  entry R hR n := by
    obtain ⟨R₀, hR₀, hmt⟩ := hm.unshared.registry
    rw [(swept_registry_of_strong hR₀ hmt).2] at hR
    exact hm.entry R hR n
  badged n hn p T hp hT := by
    obtain ⟨hp, T₀, hT₀, rfl⟩ := hm.exists_of_swept hp hT
    obtain ⟨hnone, hsome⟩ := hm.badged n hn p T₀ hp hT₀
    refine ⟨hnone, fun mode hmode => ?_⟩
    obtain ⟨mt, M, hmt, hM, hmodeName, hne, hnot⟩ := hsome mode hmode
    have hs := hm.survives (.of_badge ⟨n, hn, p, T₀, hp, hT₀, hmt⟩)
    refine ⟨mt, _, hmt, Machine.swept_table hs hM, ?_, ?_, fun n' h => ?_⟩
    · exact field_remaining_string (hm.wellFormed.unique _ _ hM) hmodeName
    · rwa [registry_swept]
    · exact hnot n' ((hm.unshared.swept_registered_iff n' mt).1 h)
  globals := by
    rw [globals_swept, hm.swept_badge_iff]
    exact hm.globals
  environment r u' e hu' he := by
    obtain ⟨-, u, hu, rfl⟩ := exists_of_swept_userdata hu'
    rw [hm.swept_sealed_iff]
    exact hm.environment r u e hu he
  classes n hn t T ht hT := by
    obtain ⟨ht, T₀, hT₀, rfl⟩ := hm.exists_of_swept ht hT
    exact Table.endsWrites_of_field (hm.classes n hn t T₀ ht hT₀) (field_remaining (hm.wellFormed.unique _ _ hT₀) _)
  classOf hstrict r u' a mt hu' hpay hmt := by
    obtain ⟨-, u, hu, rfl⟩ := exists_of_swept_userdata hu'
    obtain ⟨n, hn, hr⟩ := hm.classOf hstrict r u a mt hu hpay hmt
    exact ⟨n, hn, (hm.unshared.swept_registered_iff n mt).2 hr⟩

/-- The tables of the binding layer lose entries only, and the enumerations, which are held strongly, none. -/
theorem Stocked.swept (hs : m.Stocked) (hm : m.Orderly strict) : m.swept.Stocked where
  cells c C hc hC e he := by
    obtain ⟨hc, C₀, hC₀, rfl⟩ := hm.exists_of_swept hc hC
    exact hs.cells c C₀ hc hC₀ e (mem_remaining_iff.1 he).1
  enumerations d D hd hD e he := by
    obtain ⟨hd, D₀, hD₀, rfl⟩ := hm.exists_of_swept hd hD
    obtain ⟨t, T, ht, hT⟩ := hs.enumerations d D₀ hd hD₀ e (mem_remaining_iff.1 he).1
    have hnone := (hm.badged _ (by decide) d D₀ hd hD₀).1 Registry.modeOf_enumerations
    have hstrong : ¬m.heap.ModeSays D₀ 'v' := Heap.not_modeSays_of_metatable_none hnone 'v'
    have hheld : m.heap.Holds d t := .value hD₀ hstrong (mem_remaining_iff.1 he).1 (by rw [ht]; rfl)
    have hsurvives := (hm.unshared.survives hd).held hheld (Heap.contains_of_object? hT)
    exact ⟨t, _, ht, Machine.swept_table hsurvives hT⟩

/-- The pointer table loses the handles that do not survive or are taken up, and no others. -/
theorem Orderly.loses_handle_iff (hm : m.Orderly strict) (hp : m.Registered Registry.pointers p)
    (hT : m.heap.object? p = some (.table T)) (hr : m.IsHandle r a false) :
    m.Loses T (.address a, .userdata r) ↔ ¬(m.Survives r ∧ ¬m.Doomed r) := by
  obtain ⟨mt, M, hmt, hM, hmode, -⟩ := (hm.badged _ (by decide) p T hp hT).2 _ Registry.modeOf_pointers
  exact Machine.loses_handle_iff ((Heap.modeSays_of_field hmt hM hmode 'v').2 (by decide)) hr

/-- After a collection an address has the handle it had, if the collection neither frees it nor takes it up. -/
theorem Managed.lists_swept_iff (hm : m.Managed strict) : m.swept.Lists a r ↔ m.Lists a r ∧ m.Survives r ∧ ¬m.Doomed r := by
  constructor
  · rintro ⟨p, T', hp, hT', hfind⟩
    obtain ⟨hp, T, hT, rfl⟩ := hm.orderly.exists_of_swept hp hT'
    have hunique := hm.orderly.wellFormed.unique _ _ hT
    have hmem := Table.mem_of_find? hfind
    obtain ⟨hmem, hkept⟩ := mem_remaining_iff.1 hmem
    have hfind := hunique.mem_entries_iff.1 hmem
    have hlists : m.Lists a r := ⟨p, T, hp, hT, hfind⟩
    rw [hm.orderly.loses_handle_iff hp hT (hm.isHandle_of_lists hlists), Classical.not_not] at hkept
    exact ⟨hlists, hkept⟩
  · rintro ⟨hlists, hkept⟩
    obtain ⟨p, T, hp, hT, hfind⟩ := id hlists
    refine ⟨p, _, (hm.orderly.unshared.swept_registered_iff _ p).2 hp, hm.orderly.swept_table hp hT, ?_⟩
    refine (find?_remaining (hm.orderly.wellFormed.unique _ _ hT) hfind).2 ?_
    rwa [hm.orderly.loses_handle_iff hp hT (hm.isHandle_of_lists hlists), Classical.not_not]

/-- A collection takes from the list what it takes up or frees, and nothing else. -/
theorem Managed.rostered_swept (hm : m.Managed strict) : m.swept.Rostered where
  listing p T' hp hT' e he := by
    obtain ⟨hp, T, hT, rfl⟩ := hm.orderly.exists_of_swept hp hT'
    obtain ⟨hmem, hkept⟩ := mem_remaining_iff.1 he
    obtain ⟨a, r, rfl, hr⟩ := hm.rostered.listing p T hp hT e hmem
    rw [hm.orderly.loses_handle_iff hp hT hr, Classical.not_not] at hkept
    exact ⟨a, r, rfl, Interned.isHandle_swept_iff.2 ⟨hr, hkept⟩⟩
  listed r a hr ha := by
    obtain ⟨hr, hkept⟩ := Interned.isHandle_swept_iff.1 hr
    exact hm.lists_swept_iff.2 ⟨hm.rostered.listed r a hr ha, hkept⟩
  shadow r u' a hu' hpay := by
    obtain ⟨-, u, hu, rfl⟩ := exists_of_swept_userdata hu'
    rw [globals_swept]
    exact hm.rostered.shadow r u a hu hpay

theorem Managed.swept (hm : m.Managed strict) : m.swept.Managed strict :=
  ⟨hm.orderly.swept, hm.stocked.swept hm.orderly, hm.rostered_swept⟩

end Machine

end ScriptHost

import ScriptHost.Proofs.Cells
import ScriptHost.Proofs.Members

/-!
# Enumerations

An enumeration is what its latest definition made it (`Machine.Enumerates`). A definition makes a new table, so nothing is left of an
earlier one, and the tables of other enumerations stay (`Managed.exists_define`). A collection keeps the enumerations, as it holds their
tables strongly (`Enumerates.swept`), and what neither defines one nor writes into its table leaves them (`Enumerates.after_other`). So
in every run in which native code minds the binding layer and leaves the tables of enumerations alone, what is looked up, and what is
taken for a member, is told by the latest definition (`enumerations_are_latest`).
-/

namespace ScriptHost

variable {χ σ : Type}

/-- The enumerations an event defines, one after the other. -/
def Event.defined : Event χ σ → List EnumDescriptor
  | .ask (.defineEnums enums) => enums
  | _ => []

namespace Machine

variable {m m' : Machine χ σ} {t all : Ref} {R D T : Table} {name member : String} {i : Int64} {d : EnumDescriptor}
  {ds : List EnumDescriptor} {e : Event χ σ} {es : List (Event χ σ)} {strict : Prop}

/-- A table has the members of a definition, and is no table that the binding layer or scripts find otherwise. -/
structure HasMembers (m : Machine χ σ) (t : Ref) (d : EnumDescriptor) : Prop where
  apart : t ≠ m.registry ∧ t ≠ m.globals ∧ ∀ n, ¬m.Registered n t
  table : ∃ T, m.heap.object? t = some (.table T) ∧ d.table.SameBut (fun _ => False) T

/-- The enumerations are those of some definitions, for each name the latest. -/
structure Enumerates (m : Machine χ σ) (ds : List EnumDescriptor) : Prop where
  undefined : ∀ name, EnumDescriptor.latest? ds name = none → m.enumeration? name = none
  defined : ∀ name d, EnumDescriptor.latest? ds name = some d → ∃ t, m.enumeration? name = some t ∧ m.HasMembers t d

/-- The event writes no table of an enumeration by hand, and gives none another metatable. -/
def SparesEnumerations (m : Machine χ σ) (e : Event χ σ) : Prop :=
  ∀ name t, m.enumeration? name = some t → e.written? m t = none ∧ ¬e.Reclasses t

/-! ## What is looked up -/

/-- The table of an enumeration is found in the table of all of them. -/
theorem enumeration?_of_table (hall : m.Registered Registry.enumerations all) (hD : m.heap.object? all = some (.table D))
    (name : String) : m.enumeration? name = (D.field name).table? := by
  obtain ⟨R, hR, -⟩ := id hall
  simp only [enumeration?, (find?_eq_some_iff hR).2 hall, rawField, Heap.table_eq_ok_iff.2 hD]

theorem enumeration?_of_not_registered (hR : m.heap.object? m.registry = some (.table R))
    (hnone : ∀ t, ¬m.Registered Registry.enumerations t) (name : String) : m.enumeration? name = none := by
  have hfind : Registry.find? m Registry.enumerations = none :=
    Option.eq_none_iff_forall_ne_some.2 fun t ht => hnone t ((find?_eq_some_iff hR).1 ht)
  rw [enumeration?, hfind]

/-- There is a table of all enumerations, if there is one of them. -/
theorem exists_of_enumeration? (hm : m.Unshared False) (ht : m.enumeration? name = some t) :
    ∃ all D, m.Registered Registry.enumerations all ∧ m.heap.object? all = some (.table D) ∧ D.field name = .table t := by
  obtain ⟨R, hR, -⟩ := hm.registry
  by_cases hall : ∃ all, m.Registered Registry.enumerations all
  · obtain ⟨all, hall⟩ := hall
    obtain ⟨-, D, hD⟩ := hm.registered _ _ hall
    refine ⟨all, D, hall, hD, ?_⟩
    rw [enumeration?_of_table hall hD] at ht
    cases hfield : D.field name <;> rw [hfield] at ht <;> cases ht
    rfl
  · rw [enumeration?_of_not_registered hR (fun all h => hall ⟨all, h⟩)] at ht
    cases ht

/-- The enumerations are found where they were, if there is the same table of all of them. -/
theorem enumeration?_congr (hm : m.Unshared False) (hm' : m'.Unshared False)
    (hnames : ∀ t, m'.Registered Registry.enumerations t ↔ m.Registered Registry.enumerations t)
    (hsame : ∀ all D, m.Registered Registry.enumerations all → m.heap.object? all = some (.table D) →
      ∃ D', m'.heap.object? all = some (.table D') ∧ D'.field name = D.field name) :
    m'.enumeration? name = m.enumeration? name := by
  by_cases hall : ∃ all, m.Registered Registry.enumerations all
  · obtain ⟨all, hall⟩ := hall
    obtain ⟨-, D, hD⟩ := hm.registered _ _ hall
    obtain ⟨D', hD', hfield⟩ := hsame all D hall hD
    rw [enumeration?_of_table hall hD, enumeration?_of_table ((hnames all).2 hall) hD', hfield]
  · obtain ⟨R, hR, -⟩ := hm.registry
    obtain ⟨R', hR', -⟩ := hm'.registry
    rw [enumeration?_of_not_registered hR fun all h => hall ⟨all, h⟩,
      enumeration?_of_not_registered hR' fun all h => hall ⟨all, (hnames all).1 h⟩]

/-- Scripts see a text for an integer if it is the name of the member. -/
theorem enumValue_eq_string_iff : m.enumValue name i = .string member ↔ m.memberName? name i = some member := by
  unfold enumValue
  cases m.memberName? name i <;> simp

theorem enumValue_eq_nil_iff : m.enumValue name i = .nil ↔ m.memberName? name i = none := by
  unfold enumValue
  cases m.memberName? name i <;> simp

theorem HasMembers.get (h : m.HasMembers t d) (hT : m.heap.object? t = some (.table T)) (k : Key) : T.get k = d.table.get k := by
  obtain ⟨T', hT', hsame⟩ := h.table
  cases hT.symm.trans hT'
  exact hsame.get id

namespace Enumerates

/-- The table of an enumeration is that of a definition. -/
theorem exists_hasMembers (h : m.Enumerates ds) (ht : m.enumeration? name = some t) : ∃ d, m.HasMembers t d := by
  cases hlatest : EnumDescriptor.latest? ds name with
  | none => cases (h.undefined name hlatest).symm.trans ht
  | some d =>
    obtain ⟨t', ht', hmembers⟩ := h.defined name d hlatest
    cases ht.symm.trans ht'
    exact ⟨d, hmembers⟩

/-- The enumerations are the same where their tables are found as before and have their members. -/
theorem congr (h : m.Enumerates ds) (hsame : ∀ name, m'.enumeration? name = m.enumeration? name)
    (hkept : ∀ name t d, m.enumeration? name = some t → m.HasMembers t d → m'.HasMembers t d) : m'.Enumerates ds := by
  refine ⟨fun name hnone => (hsame name).trans (h.undefined name hnone), fun name d hlatest => ?_⟩
  obtain ⟨t, ht, hmembers⟩ := h.defined name d hlatest
  exact ⟨t, (hsame name).trans ht, hkept name t d ht hmembers⟩

/-- The integer of a member is the one its latest definition gives it. -/
theorem memberValue? (h : m.Enumerates ds) (name member : String) :
    m.memberValue? name member = (EnumDescriptor.latest? ds name).bind (·.valueOf? member) := by
  cases hlatest : EnumDescriptor.latest? ds name with
  | none => rw [Machine.memberValue?, h.undefined name hlatest, Option.bind_none]
  | some d =>
    obtain ⟨t, ht, hmembers⟩ := h.defined name d hlatest
    obtain ⟨T, hT, -⟩ := hmembers.table
    have hread : m.rawField t member = .ok (((d.valueOf? member).map Value.integer).getD .nil) := by
      simp only [rawField, Heap.table_eq_ok_iff.2 hT, Table.field, hmembers.get hT, d.get_table_string]
    simp only [Machine.memberValue?, ht, hread, Option.bind_some]
    cases d.valueOf? member <;> rfl

/-- The member of an integer is the one the latest definition gives it. -/
theorem memberName? (h : m.Enumerates ds) (name : String) (i : Int64) :
    m.memberName? name i = (EnumDescriptor.latest? ds name).bind (·.nameOf? i) := by
  cases hlatest : EnumDescriptor.latest? ds name with
  | none => rw [Machine.memberName?, h.undefined name hlatest, Option.bind_none]
  | some d =>
    obtain ⟨t, ht, hmembers⟩ := h.defined name d hlatest
    obtain ⟨T, hT, -⟩ := hmembers.table
    have hread : m.rawIndex t i = .ok (((d.nameOf? i).map Value.string).getD .nil) := by
      simp only [rawIndex, Heap.table_eq_ok_iff.2 hT, hmembers.get hT, d.get_table_integer]
    simp only [Machine.memberName?, ht, hread, Option.bind_some]
    cases d.nameOf? i <;> rfl

end Enumerates

/-! ## Definitions -/

/-- A table is filled with members. -/
theorem exists_fill (hw : m.heap.WellFormed) (hT : m.heap.object? t = some (.table T)) (members : List (String × Int64)) :
    ∃ m', EnumDescriptor.fill t members m = (.ok (), m') ∧ m.Written m' t (.table (T.withMembers members)) := by
  induction members generalizing m T with
  | nil => exact ⟨m, rfl, .refl hw hT⟩
  | cons e rest ih =>
    obtain ⟨name, i⟩ := e
    obtain ⟨m₁, hname, h₁⟩ := Action.exists_setField hw hT name (.integer i)
    obtain ⟨m₂, hvalue, h₂⟩ := Action.exists_setAt h₁.wellFormed h₁.self i (.string name)
    obtain ⟨m₃, hfill, h₃⟩ := ih h₂.wellFormed h₂.self
    refine ⟨m₃, ?_, (h₁.again h₂).again h₃⟩
    rw [EnumDescriptor.fill, Action.bind_of_ok hname, Action.bind_of_ok hvalue, hfill]

/-- The table of all enumerations is found, or made without any. -/
theorem Managed.exists_enumerations (hm : m.Managed strict) (h : m.Enumerates ds) :
    ∃ all m', Registry.table Registry.enumerations none m = (.ok all, m') ∧ m'.Managed strict ∧
      m'.Registered Registry.enumerations all ∧ m'.Enumerates ds := by
  obtain ⟨R, hR, -⟩ := hm.orderly.unshared.registry
  obtain ⟨all, m', htable, hcase⟩ := Action.exists_registryTable hm.orderly.wellFormed hR Registry.enumerations none
  obtain ⟨hinv, -, hanswer⟩ := Action.acts_registryTable (S := .wide strict) (L := fun _ => True) (fun _ _ _ h => h)
    (by decide) (by decide) Registry.modeOf_enumerations m ⟨hm, nofun⟩ trivial
  rw [htable] at hinv hanswer
  have hall := (hanswer all rfl).1
  refine ⟨all, m', htable, hinv.1, hall, ?_⟩
  rcases hcase with ⟨rfl, -⟩ | ⟨T, hregisters, hentries, -⟩
  · exact h
  · have hnone := enumeration?_of_not_registered hR hregisters.unused
    have hempty : ∀ name, m'.enumeration? name = none := by
      intro name
      rw [enumeration?_of_table hall hregisters.table, Table.field, Table.get, Table.find?, hentries]
      rfl
    refine h.congr (fun name => (hempty name).trans (hnone name).symm) fun name t d ht => ?_
    cases (hnone name).symm.trans ht

/-- A definition succeeds, and is the latest of its name. -/
theorem Managed.exists_define (hm : m.Managed strict) (h : m.Enumerates ds) (d : EnumDescriptor) :
    ∃ m', d.define m = (.ok (), m') ∧ m'.Managed strict ∧ m'.Enumerates (ds ++ [d]) := by
  obtain ⟨all, m₁, htable, hm₁, hall, h₁⟩ := hm.exists_enumerations h
  have hunshared := hm₁.orderly.unshared
  obtain ⟨R, hR, -⟩ := hunshared.registry
  obtain ⟨hne, D, hD⟩ := hunshared.registered _ _ hall
  obtain ⟨t, m₂, hnew, hfresh, hmade⟩ := Action.exists_newTable hm₁.orderly.wellFormed
  obtain ⟨m₃, hfill, hfilled⟩ := exists_fill hmade.wellFormed hmade.self d.members
  have hwritten := hmade.again hfilled
  have htall : all ≠ t := ne_of_not_contains hfresh hD
  obtain ⟨m₄, hset, hnamed⟩ := Action.exists_setField hwritten.wellFormed ((hwritten.other htall).trans hD) d.name (.table t)
  have hdefine : d.define m = (.ok (), m₄) := by
    rw [EnumDescriptor.define, Action.bind_of_ok htable, Action.bind_of_ok hnew, Action.bind_of_ok hfill, hset]
  have hm₄ : m₄.Managed strict := by
    have hacts := (Action.acts_defineAll (S := .wide strict) (K := fun _ => True) [d] m ⟨hm, nofun⟩ trivial).1.1
    rwa [EnumDescriptor.defineAll, Action.bind_of_ok hdefine] at hacts
  refine ⟨m₄, hdefine, hm₄, ?_⟩
  have hregistry : m₄.registry = m₁.registry := hnamed.registry.trans hwritten.registry
  have hglobals : m₄.globals = m₁.globals := hnamed.globals.trans hwritten.globals
  -- what was there stays, apart from the table of all enumerations
  have hkept : ∀ s o, s ≠ all → m₁.heap.object? s = some o → m₄.heap.object? s = some o := fun s o hs ho =>
    (hnamed.other hs).trans ((hwritten.other (ne_of_not_contains hfresh ho)).trans ho)
  have hnames : ∀ n s, m₄.Registered n s ↔ m₁.Registered n s := fun n s =>
    registered_congr (by rw [hregistry, hkept _ _ (Ne.symm hne) hR, hR]) n s
  have hfound : ∀ name, m₄.enumeration? name = if name = d.name then some t else m₁.enumeration? name := by
    intro name
    rw [enumeration?_of_table ((hnames _ _).2 hall) hnamed.self, enumeration?_of_table hall hD, Table.field, Table.get_set]
    by_cases hname : name = d.name <;> simp [hname, Value.table?, Table.field]
  refine ⟨fun name hlatest => ?_, fun name d' hlatest => ?_⟩
  · rw [EnumDescriptor.latest?_concat] at hlatest
    split at hlatest
    · cases hlatest
    · rename_i hname
      rw [hfound, if_neg (Ne.symm hname), h₁.undefined name hlatest]
  · rw [EnumDescriptor.latest?_concat] at hlatest
    split at hlatest
    · rename_i hname
      cases hlatest
      refine ⟨t, by rw [hfound, if_pos hname.symm], ⟨?_, ?_, fun n hn => ?_⟩, d.table, ?_, .refl _⟩
      · rw [hregistry]
        exact (ne_of_not_contains hfresh hR).symm
      · obtain ⟨-, -, G, hG⟩ := hunshared.globals
        rw [hglobals]
        exact (ne_of_not_contains hfresh hG).symm
      · exact hfresh (hunshared.contains_of_registered ((hnames n t).1 hn))
      · exact (hnamed.other (Ne.symm htall)).trans hwritten.self
    · rename_i hname
      obtain ⟨s, hs, ⟨⟨hsr, hsg, hsn⟩, S, hS, hsame⟩⟩ := h₁.defined name d' hlatest
      refine ⟨s, by rw [hfound, if_neg (Ne.symm hname), hs], ⟨hregistry ▸ hsr, hglobals ▸ hsg, fun n => ?_⟩, S, ?_, hsame⟩
      · rw [hnames]
        exact hsn n
      · refine hkept s _ ?_ hS
        rintro rfl
        exact hsn _ hall

/-- Definitions one after the other succeed. -/
theorem Managed.exists_defineAll (hm : m.Managed strict) (h : m.Enumerates ds) (enums : List EnumDescriptor) :
    ∃ m', EnumDescriptor.defineAll enums m = (.ok (), m') ∧ m'.Managed strict ∧ m'.Enumerates (ds ++ enums) := by
  induction enums generalizing m ds with
  | nil => exact ⟨m, rfl, hm, by rwa [List.append_nil]⟩
  | cons d rest ih =>
    obtain ⟨m₁, hdefine, hm₁, h₁⟩ := hm.exists_define h d
    obtain ⟨m₂, hrest, hm₂, h₂⟩ := ih hm₁ h₁
    refine ⟨m₂, ?_, hm₂, by rwa [List.append_assoc] at h₂⟩
    rw [EnumDescriptor.defineAll, Action.bind_of_ok hdefine, hrest]

/-! ## Collections -/

/-- A collection keeps the enumerations: the registry and the table of all of them hold their values strongly, and there are no
references in the tables of enumerations. -/
theorem Enumerates.swept (h : m.Enumerates ds) (hm : m.Managed strict) : m.swept.Enumerates ds := by
  have hunshared := hm.orderly.unshared
  have hstrong : ∀ all D, m.Registered Registry.enumerations all → m.heap.object? all = some (.table D) → D.metatable = none :=
    fun all D hall hD => (hm.orderly.badged _ (by decide) all D hall hD).1 Registry.modeOf_enumerations
  refine h.congr (fun name => ?_) fun name t d ht hmembers => ?_
  · refine enumeration?_congr hunshared hunshared.swept (hunshared.swept_registered_iff _) fun all D hall hD => ?_
    refine ⟨_, hm.orderly.swept_table hall hD, ?_⟩
    rw [remaining_of_metatable_none (hstrong all D hall hD)]
  · obtain ⟨all, D, hall, hD, hfield⟩ := exists_of_enumeration? hunshared ht
    obtain ⟨⟨hr, hg, hn⟩, T, hT, hsame⟩ := hmembers
    have hentry := Table.mem_of_find? (Table.find?_of_get hfield nofun)
    have hheld : m.heap.Holds all t :=
      .value hD (Heap.not_modeSays_of_metatable_none (hstrong all D hall hD) 'v') hentry rfl
    have hsurvives := (hunshared.survives hall).held hheld (Heap.contains_of_object? hT)
    refine ⟨⟨?_, ?_, fun n => ?_⟩, T, ?_, hsame⟩
    · rwa [registry_swept]
    · rwa [globals_swept]
    · rw [hunshared.swept_registered_iff]
      exact hn n
    · rw [swept_table hsurvives hT, remaining_of_metatable_none (hsame.1.trans d.metatable_table)]

/-! ## Other events -/

/-- The tables of enumerations, the table of all of them, and the entry of the registry for that. -/
def enumerationGuard (m : Machine χ σ) : Guard where
  tables t := t = m.registry ∨ m.Registered Registry.enumerations t ∨ ∃ name, m.enumeration? name = some t
  free t k := t = m.registry ∧ k ≠ .string Registry.enumerations
  payloads _ := False
  registry := m.registry
  globals := m.globals
  foreign name := name ≠ Registry.enumerations
  opens _ hname _ := ⟨rfl, fun h => hname (Key.string.inj h)⟩

theorem Enumerates.secured (h : m.Enumerates ds) (hm : m.Managed strict) : m.Secured m.enumerationGuard where
  wellFormed := hm.orderly.wellFormed
  registry := ⟨rfl, hm.orderly.unshared.registry.imp fun _ h => h.1⟩
  globals := rfl
  there t ht := by
    rcases ht with (rfl | hall | ⟨name, ht⟩) | ht
    · obtain ⟨R, hR, -⟩ := hm.orderly.unshared.registry
      exact Heap.contains_of_object? hR
    · exact hm.orderly.unshared.contains_of_registered hall
    · obtain ⟨d, hmembers⟩ := h.exists_hasMembers ht
      obtain ⟨T, hT, -⟩ := hmembers.table
      exact Heap.contains_of_object? hT
    · exact ht.elim
  foreign n t hname hn ht := by
    rcases ht with rfl | hall | ⟨name, ht⟩
    · exact (hm.orderly.unshared.registered n _ hn).1 rfl
    · exact hname (hm.orderly.name_eq hn hall)
    · obtain ⟨d, hmembers⟩ := h.exists_hasMembers ht
      exact hmembers.apart.2.2 n hn
  payload _ _ _ h := h.elim

/-- What minds the binding layer, spares the enumerations and defines none is permitted. -/
theorem Enumerates.permits (h : m.Enumerates ds) (hm : m.Managed True) (he : m.Allows (Minds (.wide True)) e)
    (hspares : m.SparesEnumerations e) (hdefine : ∀ enums, e ≠ .ask (.defineEnums enums)) : m.enumerationGuard.Permits m e := by
  have hkept : ∀ t, m.enumerationGuard.tables t → e.written? m t = none ∧ ¬e.Reclasses t := by
    rintro t (rfl | hall | ⟨name, ht⟩)
    · exact hm.spares_sealed he (Or.inl rfl)
    · exact hm.spares_sealed he (.of_registered hall)
    · exact hspares name t ht
  exact {
    pointers := (by decide : Registry.pointers ≠ Registry.enumerations)
    enumerations := fun enums hdefines => absurd hdefines (hdefine enums)
    stages := fun _ => ⟨(by decide : Registry.cells ≠ Registry.enumerations), fun _ => ⟨rfl, by decide⟩⟩
    names := fun name hname _ => ⟨rfl, fun hkey => not_reserved_of_names he hname (Key.string.inj hkey ▸ by decide)⟩
    writes := fun t key v k ht hwrite => by cases (hkept t ht).1.symm.trans hwrite
    classes := fun t ht => (hkept t ht).2
    payloads := fun _ h => h.elim
    installs := fun classes _ hc c hmem => by
      have hname := Action.not_reserved_of_checkClasses hc c hmem
      refine ⟨fun heq => hname (heq ▸ by decide), fun ht => ?_⟩
      rcases ht with hglobals | hall | ⟨name, ht⟩
      · exact absurd hglobals hm.orderly.unshared.globals.1
      · exact absurd hall (hm.orderly.unshared.globals.2.1 _)
      · obtain ⟨d, hmembers⟩ := h.exists_hasMembers ht
        exact absurd rfl hmembers.apart.2.1 }

/-- What is there and has no name gets none in an event other than a collection. -/
theorem Managed.unregistered_after (hm : m.Managed strict) (he : m.Allows (Minds (.wide strict)) e) (hsweep : e ≠ .sweep)
    (hc : m.heap.contains t = true) (hn : ∀ n, ¬m.Registered n t) (n : String) : ¬(m.after e).Registered n t := by
  have hacts := hm.acts_after (S := .wide strict) (fun _ hs => hs.elim) he hsweep fun _ _ _ _ hs => hs.elim
  have hlasts := lasts_of_act (S := .wide strict) (K := fun m : Machine χ σ => m.heap.contains t = true ∧ ∀ n, ¬m.Registered n t)
    fun m m' hm hact h => ⟨hact.contains h.1, fun n hn => h.2 n (hact.registered_of_contains hm.orderly h.1 hn)⟩
  exact (hlasts m _ hacts ⟨hc, hn⟩).2 n

/-- What is neither a collection nor a definition and spares the enumerations leaves them. -/
theorem Enumerates.after_other (h : m.Enumerates ds) (hm : m.Managed True) (he : m.Allows (Minds (.wide True)) e)
    (hspares : m.SparesEnumerations e) (hsweep : e ≠ .sweep) (hdefine : ∀ enums, e ≠ .ask (.defineEnums enums)) :
    (m.after e).Enumerates ds := by
  have hsilent : ∀ r, e = .ask r → r.IsSilent := fun r hr => by subst hr; exact he.1
  have hunshared := hm.orderly.unshared
  have hunshared' := (hm.after (S := .wide True) (fun _ h => h) he).orderly.unshared
  have hupholds := (h.secured hm).upholds_after hsilent hsweep (h.permits hm he hspares hdefine)
  have hunregistered := fun t => hm.unregistered_after (t := t) he hsweep
  obtain ⟨-, hregistry, hglobals⟩ := wellFormed_after hm.orderly.wellFormed hsilent
  obtain ⟨R, hR, -⟩ := hunshared.registry
  obtain ⟨R', hR', hsameR⟩ := hupholds.table (G := m.enumerationGuard) (Or.inl rfl) hR
  have hnames : ∀ t, (m.after e).Registered Registry.enumerations t ↔ m.Registered Registry.enumerations t := by
    intro t
    rw [registered_iff hR, registered_iff (by rw [hregistry]; exact hR')]
    rw [Table.field, hsameR.get (fun hfree => hfree.2 rfl)]
    rfl
  refine h.congr (fun name => enumeration?_congr hunshared hunshared' hnames fun all D hall hD => ?_)
    fun name t d ht hmembers => ?_
  · obtain ⟨D', hD', hsameD⟩ := hupholds.table (G := m.enumerationGuard) (Or.inr (Or.inl hall)) hD
    exact ⟨D', hD', hsameD.get fun hfree => (hunshared.registered _ _ hall).1 hfree.1⟩
  · obtain ⟨⟨hr, hg, hn⟩, T, hT, hsame⟩ := hmembers
    obtain ⟨T', hT', hsameT⟩ := hupholds.table (G := m.enumerationGuard) (Or.inr (Or.inr ⟨name, ht⟩)) hT
    refine ⟨⟨hregistry ▸ hr, hglobals ▸ hg, hunregistered t (Heap.contains_of_object? hT) hn⟩, T', hT', ?_⟩
    exact hsame.trans ⟨hsameT.1, fun k _ => hsameT.2 k fun hfree => hr hfree.1⟩

/-! ## Runs -/

/-- After an event the enumerations are those it defines, and for other names those there were. -/
theorem Enumerates.after (h : m.Enumerates ds) (hm : m.Managed True) (he : m.Allows (Minds (.wide True)) e)
    (hspares : m.SparesEnumerations e) : (m.after e).Enumerates (ds ++ e.defined) := by
  by_cases hdefine : ∃ enums, e = .ask (.defineEnums enums)
  · obtain ⟨enums, rfl⟩ := hdefine
    obtain ⟨m', hdefined, -, h'⟩ := hm.exists_defineAll h enums
    have hafter : m.after (.ask (.defineEnums enums)) = m' := congrArg Prod.snd hdefined
    rw [hafter]
    exact h'
  · have hnone : e.defined = [] := by
      unfold Event.defined
      split
      · exact absurd ⟨_, rfl⟩ hdefine
      · rfl
    rw [hnone, List.append_nil]
    by_cases hsweep : e = .sweep
    · subst hsweep
      exact h.swept hm
    · exact h.after_other hm he hspares hsweep fun enums heq => hdefine ⟨enums, heq⟩

theorem Enumerates.follow (h : m.Enumerates ds) (hm : m.Managed True) (hes : Course (Minds (.wide True)) m es)
    (hspares : m.AtEvents SparesEnumerations es) : (m.follow es).Enumerates (ds ++ es.flatMap Event.defined) := by
  induction es generalizing m ds with
  | nil => rwa [List.flatMap_nil, List.append_nil]
  | cons e es ih =>
    obtain ⟨hnow, hlater⟩ := atEvents_cons.1 hspares
    rw [List.flatMap_cons, ← List.append_assoc]
    exact ih (h.after hm hes.1 hnow) (hm.after (S := .wide True) (fun _ h => h) hes.1) hes.2 hlater

theorem enumerates_start (limits : Limits) (host : σ) : (start limits host : Machine χ σ).Enumerates [] := by
  obtain ⟨R, hR, -⟩ := (managed_start limits host : (start limits host : Machine χ σ).Managed True).orderly.unshared.registry
  exact ⟨fun name _ => enumeration?_of_not_registered hR (not_registered_start limits host _) name, nofun⟩

end Machine

open Machine in
/-- **An enumeration is what its latest definition made it.** In every run in which native code minds the binding layer, wraps under
names of classes and writes no table of an enumeration by hand, with whatever definitions, collections and other operations: the integer
of a member is that of the last pair with its name in the latest definition of the enumeration, and the member of an integer is the name
in the last pair with it there; there is none where that has no such pair, or there is no definition. What is taken for a member, what
scripts see for an integer and what a text of a script stands for are told by the same pairs. Further definitions succeed, and
enumerations that they do not name stay as they are. -/
theorem enumerations_are_latest {limits : Limits} {host : σ} {es : List (Event χ σ)}
    (hes : Course (Minds (.wide True)) (.start limits host) es) (hspares : (start limits host).AtEvents SparesEnumerations es)
    (name : String) :
    let m := (start limits host).follow es
    let latest := EnumDescriptor.latest? (es.flatMap Event.defined) name
    (∀ member, m.memberValue? name member = latest.bind (·.valueOf? member)) ∧
    (∀ i, m.memberName? name i = latest.bind (·.nameOf? i)) ∧
    (∀ v, m.isMember name v = true ↔ ∃ member i, v = .string member ∧ latest.bind (·.valueOf? member) = some i) ∧
    (∀ i, m.enumValue name i = ((latest.bind (·.nameOf? i)).map Value.string).getD .nil) ∧
    (∀ member, m.ofEnumValue? (.string member) name = latest.bind (·.valueOf? member)) ∧
    ∀ enums, ∃ m', EnumDescriptor.defineAll enums m = (.ok (), m') ∧ (name ∉ enums.map EnumDescriptor.name →
      (∀ member, m'.memberValue? name member = m.memberValue? name member) ∧
        ∀ i, m'.memberName? name i = m.memberName? name i) := by
  intro m latest
  have hm : m.Managed True := hes.managed (S := .wide True) (fun _ h => h) (managed_start limits host)
  have h : m.Enumerates (es.flatMap Event.defined) := (enumerates_start limits host).follow (managed_start limits host) hes hspares
  have hvalue := h.memberValue? name
  have hname := h.memberName? name
  refine ⟨hvalue, hname, fun v => ?_, fun i => ?_, hvalue, fun enums => ?_⟩
  · cases v with
    | string member => simp [isMember, Value.string?, hvalue, Option.isSome_iff_exists, latest]
    | _ => simp [isMember, Value.string?]
  · rw [enumValue, hname]
    cases latest.bind (·.nameOf? i) <;> rfl
  · obtain ⟨m', hdefine, -, h'⟩ := hm.exists_defineAll h enums
    refine ⟨m', hdefine, fun hother => ?_⟩
    have hsame : EnumDescriptor.latest? (es.flatMap Event.defined ++ enums) name = latest := by
      rw [EnumDescriptor.latest?_append, EnumDescriptor.latest?_eq_none_iff.2 hother, Option.none_or]
    exact ⟨fun member => by rw [h'.memberValue?, hsame, hvalue], fun i => by rw [h'.memberName?, hsame, hname]⟩

/-- Two enumerations are defined, the first with an integer and a name given twice, a handle is made, the first enumeration is defined
again, and a collection follows. -/
def definitions : List (Event Unit Unit) :=
  [.ask (.defineEnums [⟨"E", [("a", 1), ("b", 1), ("a", 2)]⟩, ⟨"F", [("x", 0)]⟩]), .ask (.wrap 0x10 "C"),
    .ask (.defineEnums [⟨"E", [("c", 1)]⟩]), .sweep]

open Machine in
theorem course_definitions : Course (Minds (.wide True)) (.start .standard ()) definitions :=
  ⟨⟨trivial, trivial⟩, ⟨trivial, Or.inr ⟨trivial, Or.inl (by decide)⟩⟩, ⟨trivial, trivial⟩,
    (show Machine.collecting _ = false by decide +kernel), trivial⟩

open Machine in
/-- What writes nothing by hand spares the enumerations. -/
theorem spares_definitions {m : Machine Unit Unit} : m.AtEvents SparesEnumerations definitions :=
  atEvents_cons.2 ⟨fun _ _ _ => ⟨rfl, id⟩, atEvents_cons.2 ⟨fun _ _ _ => ⟨rfl, id⟩, atEvents_cons.2 ⟨fun _ _ _ => ⟨rfl, id⟩,
    atEvents_cons.2 ⟨fun _ _ _ => ⟨rfl, id⟩, atEvents_nil⟩⟩⟩⟩

open Machine in
/-- Before the first enumeration is defined again, the last pairs count; afterwards nothing is left of it, and the second one is there. -/
theorem enumerations_after_definitions :
    (Course (Minds (.wide True)) (.start .standard ()) definitions ∧ (start .standard ()).AtEvents SparesEnumerations definitions) ∧
    (((start .standard ()).follow (definitions.take 2)).memberValue? "E" "a" = some 2 ∧
      ((start .standard ()).follow (definitions.take 2)).memberName? "E" 1 = some "b") ∧
    ((start .standard ()).follow definitions).memberValue? "E" "a" = none ∧
    ((start .standard ()).follow definitions).enumValue "E" 1 = .string "c" ∧
    ((start .standard ()).follow definitions).isMember "F" (.string "x") = true := by
  have hes := (course_append.1 ((List.take_append_drop 2 definitions).symm ▸ course_definitions)).1
  have hspares := (atEvents_append.1 ((List.take_append_drop 2 definitions).symm ▸ spares_definitions (m := start .standard ()))).1
  obtain ⟨hvalue, hname, -⟩ := enumerations_are_latest hes hspares "E"
  obtain ⟨hdropped, -, -, hseen, -⟩ := enumerations_are_latest course_definitions spares_definitions "E"
  obtain ⟨-, -, hmember, -⟩ := enumerations_are_latest course_definitions spares_definitions "F"
  exact ⟨⟨course_definitions, spares_definitions⟩, ⟨(hvalue "a").trans (by decide), (hname 1).trans (by decide)⟩,
    (hdropped "a").trans (by decide), (hseen 1).trans (by decide), (hmember (.string "x")).2 ⟨"x", 0, rfl, by decide⟩⟩

/-! ## There and back -/

open Machine in
/-- **When an integer survives the way through scripts.** In such a run an integer of a defined enumeration that scripts see as a text
is that of the last pair with the integer, whose name the text is; the text stands for the integer again if and only if no later pair
has that name. An integer that scripts see as nil is that of no member. So every integer survives if no name is given twice. -/
theorem enumeration_value_survives_iff {limits : Limits} {host : σ} {es : List (Event χ σ)}
    (hes : Course (Minds (.wide True)) (.start limits host) es) (hspares : (start limits host).AtEvents SparesEnumerations es)
    {name : String} {d : EnumDescriptor} (hd : EnumDescriptor.latest? (es.flatMap Event.defined) name = some d) (i : Int64) :
    let m := (start limits host).follow es
    (∀ s, m.enumValue name i = .string s → ∃ earlier later, d.members = earlier ++ (s, i) :: later ∧ (∀ e ∈ later, e.2 ≠ i) ∧
      (m.ofEnumValue? (.string s) name = some i ↔ ∀ e ∈ later, e.1 ≠ s)) ∧
    (m.enumValue name i = .nil → ∀ member, m.memberValue? name member ≠ some i) ∧
    ((d.members.map Prod.fst).Nodup → ∀ s, m.enumValue name i = .string s → m.ofEnumValue? (.string s) name = some i) := by
  intro m
  have h : m.Enumerates (es.flatMap Event.defined) := (enumerates_start limits host).follow (managed_start limits host) hes hspares
  have hvalue : ∀ member, m.memberValue? name member = d.valueOf? member := fun member => by
    rw [h.memberValue?, hd, Option.bind_some]
  have hname : m.memberName? name i = d.nameOf? i := by rw [h.memberName?, hd, Option.bind_some]
  have hback : ∀ s, m.ofEnumValue? (.string s) name = d.valueOf? s := hvalue
  have hseen : ∀ s, m.enumValue name i = .string s → ∃ earlier later, d.members = earlier ++ (s, i) :: later ∧
      ∀ e ∈ later, e.2 ≠ i := by
    intro s hs
    rw [enumValue_eq_string_iff, hname] at hs
    exact EnumDescriptor.nameOf?_eq_some_iff.1 hs
  refine ⟨fun s hs => ?_, fun hnil member hmember => ?_, fun hnodup s hs => ?_⟩
  · obtain ⟨earlier, later, hsplit, hlast⟩ := hseen s hs
    exact ⟨earlier, later, hsplit, hlast, by rw [hback, EnumDescriptor.valueOf?_eq_iff_of_last hsplit hlast]⟩
  · rw [enumValue_eq_nil_iff, hname] at hnil
    rw [hvalue] at hmember
    obtain ⟨earlier, later, hsplit, -⟩ := EnumDescriptor.valueOf?_eq_some_iff.1 hmember
    exact EnumDescriptor.nameOf?_eq_none_iff.1 hnil (member, i) (hsplit ▸ by simp) rfl
  · obtain ⟨earlier, later, hsplit, hlast⟩ := hseen s hs
    rw [hback, EnumDescriptor.valueOf?_eq_iff_of_last hsplit hlast]
    rw [hsplit, List.map_append, List.map_cons, List.nodup_append] at hnodup
    intro e he heq
    exact (List.nodup_cons.1 hnodup.2.1).1 (List.mem_map.2 ⟨e, he, heq⟩)

/-- An enumeration is defined with a name given twice, and one with an integer given twice. -/
def namedTwice : List (Event Unit Unit) := [.ask (.defineEnums [⟨"E", [("A", 1), ("A", 2)]⟩, ⟨"F", [("X", 1), ("Y", 1)]⟩])]

open Machine in
theorem course_namedTwice : Course (Minds (.wide True)) (.start .standard ()) namedTwice := ⟨⟨trivial, trivial⟩, trivial⟩

open Machine in
theorem spares_namedTwice {m : Machine Unit Unit} : m.AtEvents SparesEnumerations namedTwice :=
  atEvents_cons.2 ⟨fun _ _ _ => ⟨rfl, id⟩, atEvents_nil⟩

open Machine in
/-- The integer given twice survives, under its second name. The first integer of the name given twice does not: the name stands for the
second one. -/
theorem enumeration_value_survives_namedTwice :
    (Course (Minds (.wide True)) (.start .standard ()) namedTwice ∧ (start .standard ()).AtEvents SparesEnumerations namedTwice ∧
      EnumDescriptor.latest? (namedTwice.flatMap Event.defined) "F" = some ⟨"F", [("X", 1), ("Y", 1)]⟩) ∧
    (((start .standard ()).follow namedTwice).enumValue "F" 1 = .string "Y" ∧
      ((start .standard ()).follow namedTwice).ofEnumValue? (.string "Y") "F" = some 1) ∧
    (∀ member, ((start .standard ()).follow namedTwice).memberValue? "F" member ≠ some 7) ∧
    ((start .standard ()).follow namedTwice).enumValue "E" 1 = .string "A" ∧
    ((start .standard ()).follow namedTwice).ofEnumValue? (.string "A") "E" = some 2 := by
  have hseen : ((start .standard ()).follow namedTwice).enumValue "F" 1 = .string "Y" := by decide +kernel
  have hF : EnumDescriptor.latest? (namedTwice.flatMap Event.defined) "F" = some ⟨"F", [("X", 1), ("Y", 1)]⟩ := rfl
  obtain ⟨-, -, hsurvives⟩ := enumeration_value_survives_iff course_namedTwice spares_namedTwice hF 1
  obtain ⟨-, hnone, -⟩ := enumeration_value_survives_iff course_namedTwice spares_namedTwice hF 7
  exact ⟨⟨course_namedTwice, spares_namedTwice, hF⟩, ⟨hseen, hsurvives (by decide) "Y" hseen⟩, hnone (by decide +kernel),
    by decide +kernel, by decide +kernel⟩

open Machine in
/-- Not every integer survives: where a name is given twice, the text scripts see for its first integer stands for the second. -/
theorem every_enumeration_value_survives_false :
    ¬∀ (es : List (Event Unit Unit)) (name s : String) (i : Int64), Course (Minds (.wide True)) (.start .standard ()) es →
      (start .standard ()).AtEvents SparesEnumerations es → ((start .standard ()).follow es).enumValue name i = .string s →
        ((start .standard ()).follow es).ofEnumValue? (.string s) name = some i := by
  intro h
  have hback := h namedTwice "E" "A" 1 course_namedTwice spares_namedTwice (by decide +kernel)
  exact absurd hback (by decide +kernel)

end ScriptHost

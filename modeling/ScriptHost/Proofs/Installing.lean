import Mathlib.Data.List.Forall2
import ScriptHost.Proofs.Edits
import ScriptHost.Proofs.Hierarchy

/-!
# What installing a class does

Where each name of the registry has a table of its own, a class whose bases are installed is installed: its table is filled
(`ClassDescriptor.filled`), new functions and a new namespace are made, the namespace becomes a global, and nothing else is
different (`Machine.Installs`). A class with a base that is not installed by then fails when its table has been begun.
-/

namespace ScriptHost

variable {χ σ : Type} {closed : Prop}

/-! ## Filling tables -/

namespace Table

/-- The table with functions put under their names, one after the other. -/
def putAll (T : Table) (methods : List (String × Ref)) : Table :=
  methods.foldl (fun T e => T.set (.string e.1) (.function e.2)) T

/-- Under a name there is a function, under any other key what there was. -/
theorem get_putAll (T : Table) (methods : List (String × Ref)) (k : Key) :
    (∃ e ∈ methods, k = .string e.1 ∧ (T.putAll methods).get k = .function e.2) ∨
      (∀ e ∈ methods, k ≠ .string e.1) ∧ (T.putAll methods).get k = T.get k := by
  induction methods generalizing T with
  | nil => exact Or.inr ⟨by simp, rfl⟩
  | cons e rest ih =>
    rcases ih (T.set (.string e.1) (.function e.2)) with ⟨e', he', hk, hget⟩ | ⟨hk, hget⟩
    · exact Or.inl ⟨e', List.mem_cons_of_mem _ he', hk, hget⟩
    · rw [get_set] at hget
      split at hget
      · rename_i heq
        exact Or.inl ⟨e, List.mem_cons_self, heq, hget⟩
      · rename_i hne
        exact Or.inr ⟨List.forall_mem_cons.2 ⟨hne, hk⟩, hget⟩

end Table

/-- What installing makes of the table of a class. -/
def ClassDescriptor.filled (name : String) (T : Table) (cls : Ref) (methods : List (String × Ref))
    (reader writer finalizer : Ref) : Table :=
  let marked := (T.putAll methods).set (.string name) (.boolean true)
  let read := marked.set (.string Registry.readName) (.function reader)
  let written := read.set (.string Registry.writeName) (.function writer)
  { written.set (.string Registry.finalizeName) (.function finalizer) with metatable := some cls }

namespace Machine

/-- The second machine has new tables and functions, and another table at the reference. Nothing else that was there is
different. -/
structure Extends (m m' : Machine χ σ) (t : Ref) : Prop where
  wellFormed : m'.heap.WellFormed
  registry : m'.registry = m.registry
  globals : m'.globals = m.globals
  kept : ∀ s o, s ≠ t → m.heap.object? s = some o → m'.heap.object? s = some o
  userdata : ∀ s u, m'.heap.object? s = some (.userdata u) → m.heap.object? s = some (.userdata u)

variable {m m' m'' : Machine χ σ} {t : Ref}

theorem Extends.trans (h : m.Extends m' t) (h' : m'.Extends m'' t) : m.Extends m'' t :=
  ⟨h'.wellFormed, h'.registry.trans h.registry, h'.globals.trans h.globals, fun s o hs ho => h'.kept s o hs (h.kept s o hs ho),
    fun s u hu => h.userdata s u (h'.userdata s u hu)⟩

theorem Written.extends {T : Table} (h : m.Written m' t (.table T)) : m.Extends m' t :=
  ⟨h.wellFormed, h.registry, h.globals, fun _ _ hs ho => (h.other hs).trans ho, fun _ _ hu => h.userdata_of hu⟩

/-- What was there is what it was when something is made. -/
theorem Written.kept {r s : Ref} {o p : Object χ} (h : m.Written m' r o) (hr : ¬m.heap.contains r = true)
    (hp : m.heap.object? s = some p) : m'.heap.object? s = some p :=
  (h.other (ne_of_not_contains hr hp)).trans hp

theorem Written.extends_new {r : Ref} {o : Object χ} (h : m.Written m' r o) (hr : ¬m.heap.contains r = true)
    (ho : ∀ u, o ≠ .userdata u) : m.Extends m' t := by
  refine ⟨h.wellFormed, h.registry, h.globals, fun s p _ hp => h.kept hr hp, fun s u hu => ?_⟩
  rw [h.object] at hu
  split at hu
  · exact absurd (Option.some.inj hu) (ho u)
  · exact hu

/-- The second pair is what installing makes of the first, a method of a class: its name with a function that runs its code. -/
def IsMethod (m : Machine χ σ) (cls : String) (e : String × χ) (f : String × Ref) : Prop :=
  f.1 = e.1 ∧ m.heap.object? f.2 = some (.function ⟨cls ++ "." ++ e.1, .host e.2, []⟩)

/-- What is there as long as only tables change. -/
theorem Extends.isMethod (h : m.Extends m' t) {T : Table} (hT : m.heap.object? t = some (.table T)) {cls : String}
    {e : String × χ} {f : String × Ref} (hf : m.IsMethod cls e f) : m'.IsMethod cls e f := by
  refine ⟨hf.1, h.kept _ _ ?_ hf.2⟩
  rintro rfl
  cases hT.symm.trans hf.2

end Machine

namespace Action

variable {m : Machine χ σ} {t : Ref} {T : Table}

theorem exists_newFunction (hw : m.heap.WellFormed) (name : String) (code : Code χ) (upvalues : List Value) :
    ∃ r m', newFunction name code upvalues m = (.ok r, m') ∧ ¬m.heap.contains r = true ∧
      m.Written m' r (.function ⟨name, code, upvalues⟩) :=
  exists_allocate hw fun _ e => nomatch e

theorem exists_installMethods (hw : m.heap.WellFormed) (hT : m.heap.object? t = some (.table T)) (name : String)
    (methods : List (String × χ)) :
    ∃ fs m', ClassDescriptor.installMethods t name methods m = (.ok fs, m') ∧
      List.Forall₂ (m'.IsMethod name) methods fs ∧ m'.heap.object? t = some (.table (T.putAll fs)) ∧ m.Extends m' t := by
  induction methods generalizing m T with
  | nil => exact ⟨[], m, rfl, .nil, hT, hw, rfl, rfl, fun _ _ _ ho => ho, fun _ _ hu => hu⟩
  | cons e rest ih =>
    obtain ⟨f, m₁, hnew, hfresh, h₁⟩ := exists_newFunction hw (name ++ "." ++ e.1) (.host e.2) []
    have hT₁ := h₁.kept hfresh hT
    obtain ⟨m₂, hset, h₂⟩ := exists_setField h₁.wellFormed hT₁ e.1 (.function f)
    obtain ⟨fs, m₃, hrest, hmethods, hT₃, h₃⟩ := ih h₂.wellFormed h₂.self
    have hf := (h₂.extends.trans h₃).kept _ _ (Machine.ne_of_not_contains hfresh hT).symm h₁.self
    refine ⟨(e.1, f) :: fs, m₃, ?_, .cons ⟨rfl, hf⟩ hmethods, hT₃, ?_⟩
    · exact (bind_of_ok hnew).trans ((bind_of_ok hset).trans (bind_of_ok hrest))
    · exact (h₁.extends_new hfresh nofun).trans (h₂.extends.trans h₃)

theorem exists_publish (hw : m.heap.WellFormed) (hT : m.heap.object? t = some (.table T)) (methods : List (String × Ref)) :
    ∃ m', ClassDescriptor.publish t methods m = (.ok (), m') ∧ m'.heap.object? t = some (.table (T.putAll methods)) ∧
      m.Extends m' t := by
  induction methods generalizing m T with
  | nil => exact ⟨m, rfl, hT, hw, rfl, rfl, fun _ _ _ ho => ho, fun _ _ hu => hu⟩
  | cons e rest ih =>
    obtain ⟨m₁, hset, h₁⟩ := exists_setField hw hT e.1 (.function e.2)
    obtain ⟨m₂, hrest, hT₂, h₂⟩ := ih h₁.wellFormed h₁.self
    exact ⟨m₂, (bind_of_ok hset).trans hrest, hT₂, h₁.extends.trans h₂⟩

/-- The metamethods of a class are made and put into its table, which becomes its own metatable. -/
theorem exists_metamethods {cls : Ref} (hw : m.heap.WellFormed) (hT : m.heap.object? cls = some (.table T)) (name : String)
    (bases : List Ref) :
    ∃ reader writer finalizer m', (∀ rest : Action χ σ Unit, (do
        let reader ← Attribute.newReader name cls bases
        let writer ← newFunction (name ++ "." ++ Registry.writeName) .writeAttribute []
        let finalizer ← newFunction (name ++ "." ++ Registry.finalizeName) .finalizeHandle []
        setField cls Registry.readName (.function reader)
        setField cls Registry.writeName (.function writer)
        setField cls Registry.finalizeName (.function finalizer)
        setMetatable (.table cls) (some cls)
        rest) m = rest m') ∧
      m'.heap.object? cls = some (.table { ((T.set (.string Registry.readName) (.function reader)).set
        (.string Registry.writeName) (.function writer)).set (.string Registry.finalizeName) (.function finalizer) with
          metatable := some cls }) ∧
      (∃ n, m'.heap.object? reader = some (.function ⟨n, .readAttribute, (cls :: bases).map .table⟩)) ∧
      (∃ n, m'.heap.object? writer = some (.function ⟨n, .writeAttribute, []⟩)) ∧
      (∃ n, m'.heap.object? finalizer = some (.function ⟨n, .finalizeHandle, []⟩)) ∧
      ¬m.heap.contains reader = true ∧ m.Extends m' cls := by
  obtain ⟨reader, m₁, hreader, hfresh₁, h₁⟩ := exists_newFunction hw (name ++ "." ++ Registry.readName) .readAttribute
    ((cls :: bases).map .table)
  obtain ⟨writer, m₂, hwriter, hfresh₂, h₂⟩ := exists_newFunction h₁.wellFormed (name ++ "." ++ Registry.writeName)
    .writeAttribute []
  obtain ⟨finalizer, m₃, hfinalizer, hfresh₃, h₃⟩ := exists_newFunction h₂.wellFormed
    (name ++ "." ++ Registry.finalizeName) .finalizeHandle []
  have hT₁ := h₁.kept hfresh₁ hT
  have hT₂ := h₂.kept hfresh₂ hT₁
  have hT₃ := h₃.kept hfresh₃ hT₂
  obtain ⟨m₄, hset₄, h₄⟩ := exists_setField h₃.wellFormed hT₃ Registry.readName (.function reader)
  obtain ⟨m₅, hset₅, h₅⟩ := exists_setField h₄.wellFormed h₄.self Registry.writeName (.function writer)
  obtain ⟨m₆, hset₆, h₆⟩ := exists_setField h₅.wellFormed h₅.self Registry.finalizeName (.function finalizer)
  obtain ⟨m₇, hset₇, h₇⟩ := exists_setMetatable h₆.wellFormed h₆.self h₆.self
  have hput : m₃.Extends m₇ cls := h₄.extends.trans (h₅.extends.trans (h₆.extends.trans h₇.extends))
  refine ⟨reader, writer, finalizer, m₇, fun rest => ?_, h₇.self, ⟨name ++ "." ++ Registry.readName, ?_⟩,
    ⟨name ++ "." ++ Registry.writeName, ?_⟩, ⟨name ++ "." ++ Registry.finalizeName, ?_⟩, hfresh₁, ?_⟩
  · refine (bind_of_ok hreader).trans ((bind_of_ok hwriter).trans ((bind_of_ok hfinalizer).trans ?_))
    exact (bind_of_ok hset₄).trans ((bind_of_ok hset₅).trans ((bind_of_ok hset₆).trans (bind_of_ok hset₇)))
  · exact hput.kept _ _ (Machine.ne_of_not_contains hfresh₁ hT).symm (h₃.kept hfresh₃ (h₂.kept hfresh₂ h₁.self))
  · exact hput.kept _ _ (Machine.ne_of_not_contains hfresh₂ hT₁).symm (h₃.kept hfresh₃ h₂.self)
  · exact hput.kept _ _ (Machine.ne_of_not_contains hfresh₃ hT₂).symm h₃.self
  · exact (h₁.extends_new hfresh₁ nofun).trans ((h₂.extends_new hfresh₂ nofun).trans ((h₃.extends_new hfresh₃ nofun).trans hput))

/-- The namespace of a class is made and becomes a global. -/
theorem exists_namespace {G : Table} (hw : m.heap.WellFormed) (hG : m.heap.object? m.globals = some (.table G))
    (name : String) (methods : List (String × Ref)) :
    ∃ space m', (do
        let space ← newTable
        ClassDescriptor.publish space methods
        setGlobal name (.table space) : Action χ σ Unit) m = (.ok (), m') ∧
      m'.heap.object? m.globals = some (.table (G.set (.string name) (.table space))) ∧
      m'.heap.object? space = some (.table (Table.empty.putAll methods)) ∧
      ¬m.heap.contains space = true ∧ m.Extends m' m.globals := by
  obtain ⟨space, m₁, hspace, hfresh, h₁⟩ := exists_newTable hw
  obtain ⟨m₂, hpublish, hspace₂, h₂⟩ := exists_publish h₁.wellFormed h₁.self methods
  have hkept : ∀ s o, m.heap.object? s = some o → m₂.heap.object? s = some o := fun s o ho =>
    h₂.kept s o (Machine.ne_of_not_contains hfresh ho) (h₁.kept hfresh ho)
  have hglobals : m₂.globals = m.globals := h₂.globals.trans h₁.globals
  have hG₂ : m₂.heap.object? m₂.globals = some (.table G) := hglobals ▸ hkept _ _ hG
  obtain ⟨m₃, hset, h₃⟩ := exists_setField h₂.wellFormed hG₂ name (.table space)
  rw [hglobals] at h₃
  have hspace₃ := (h₃.other (Machine.ne_of_not_contains hfresh hG).symm).trans hspace₂
  refine ⟨space, m₃, (bind_of_ok hspace).trans ((bind_of_ok hpublish).trans hset), h₃.self, hspace₃, hfresh, h₃.wellFormed,
    ?_, ?_, ?_, ?_⟩
  · exact h₃.registry.trans (h₂.registry.trans h₁.registry)
  · exact h₃.globals.trans hglobals
  · exact fun s o hs ho => (h₃.other hs).trans (hkept s o ho)
  · exact fun s u hu => h₁.userdata_of (h₂.userdata s u (h₃.userdata_of hu))

end Action

/-! ## The two halves of installing a class -/

namespace ClassDescriptor

/-- The second half of installing a class, when its table has the methods and says that it is installed. -/
def complete (d : ClassDescriptor χ) (cls : Ref) (methods : List (String × Ref)) : Action χ σ Unit := do
  let bases ← Action.query (fun m => (m.baseTables d.bases).mapError (.configuration d.name))
  let reader ← Attribute.newReader d.name cls bases
  let writer ← Action.newFunction (d.name ++ "." ++ Registry.writeName) .writeAttribute []
  let finalizer ← Action.newFunction (d.name ++ "." ++ Registry.finalizeName) .finalizeHandle []
  Action.setField cls Registry.readName (.function reader)
  Action.setField cls Registry.writeName (.function writer)
  Action.setField cls Registry.finalizeName (.function finalizer)
  Action.setMetatable (.table cls) (some cls)
  let space ← Action.newTable
  publish space methods
  Action.setGlobal (namespaceName d.name) (.table space)

end ClassDescriptor

/-- The functions made for methods have their names. -/
theorem Machine.names_of_isMethod {m : Machine χ σ} {cls : String} {entries : List (String × χ)} {methods : List (String × Ref)}
    (h : List.Forall₂ (m.IsMethod cls) entries methods) : methods.map Prod.fst = entries.map Prod.fst := by
  induction h with
  | nil => rfl
  | cons h _ ih => rw [List.map_cons, List.map_cons, h.1, ih]

namespace Machine

/-- The table of a class as its installing finds it: the one under its name, or a new blank one. -/
def Founds (m : Machine χ σ) (name : String) (cls : Ref) (T : Table) : Prop :=
  m.Registered name cls ∧ m.heap.object? cls = some (.table T) ∨
    (∀ s, ¬m.Registered name s) ∧ ¬m.heap.contains cls = true ∧ T = .blank name

/-- The names of the second machine are those of the first, and the one of the class. -/
def NamesWith (m m' : Machine χ σ) (name : String) (cls : Ref) : Prop :=
  ∀ n s, m'.Registered n s ↔ n = name ∧ s = cls ∨ n ≠ name ∧ m.Registered n s

/-- The second machine has a table under the name of a class, which the first has as well or which is new, and new tables and
functions. Nothing else is different but what that table and the globals have. -/
structure Grows (m m' : Machine χ σ) (name : String) (cls : Ref) : Prop where
  wellFormed : m'.heap.WellFormed
  registry : m'.registry = m.registry
  globals : m'.globals = m.globals
  registryTable : ∃ R, m'.heap.object? m.registry = some (.table R) ∧ R.metatable = none
  globalsTable : ∃ G, m'.heap.object? m.globals = some (.table G)
  names : m.NamesWith m' name cls
  kept : ∀ s o, s ≠ cls → s ≠ m.registry → s ≠ m.globals → m.heap.object? s = some o → m'.heap.object? s = some o
  userdata : ∀ s u, m'.heap.object? s = some (.userdata u) → m.heap.object? s = some (.userdata u)

/-- What the table of a class is filled with: functions for its methods, and the two of its metamethods that have nothing bound to
them. A new namespace, which no name of the registry leads to, holds the methods too. -/
structure Equips (m : Machine χ σ) (d : ClassDescriptor χ) (methods : List (String × Ref)) (writer finalizer : Ref) : Prop where
  method : List.Forall₂ (m.IsMethod d.name) d.methods.entries methods
  writer : ∃ name, m.heap.object? writer = some (.function ⟨name, .writeAttribute, []⟩)
  finalizer : ∃ name, m.heap.object? finalizer = some (.function ⟨name, .finalizeHandle, []⟩)
  space : ∃ G space, m.heap.object? m.globals = some (.table G) ∧
    G.field (ClassDescriptor.namespaceName d.name) = .table space ∧
    (space ≠ m.registry ∧ space ≠ m.globals ∧ ∀ name, ¬m.Registered name space) ∧
    m.heap.object? space = some (.table (Table.empty.putAll methods))

/-- What installing a class comes to. -/
structure Installs (m m' : Machine χ σ) (d : ClassDescriptor χ) (cls : Ref) (bases : List Ref) : Prop
    extends m.Grows m' d.name cls where
  table : ∃ T methods reader writer finalizer, m.Founds d.name cls T ∧ methods.map Prod.fst = d.methods.names ∧
    m'.heap.object? cls = some (.table (ClassDescriptor.filled d.name T cls methods reader writer finalizer)) ∧
    (∃ name, m'.heap.object? reader = some (.function ⟨name, .readAttribute, (cls :: bases).map .table⟩)) ∧
    ¬m.heap.contains reader = true ∧ m'.Equips d methods writer finalizer

variable {m m' m'' : Machine χ σ} {d : ClassDescriptor χ} {cls t : Ref} {T : Table} {name b : String}

/-- A class table is neither the registry nor the globals. -/
theorem Unshared.ne_of_founds (hm : m.Unshared closed) (h : m.Founds name cls T) :
    cls ≠ m.registry ∧ cls ≠ m.globals := by
  obtain ⟨R, hR, -⟩ := hm.registry
  obtain ⟨-, hnone, G, hG⟩ := hm.globals
  rcases h with ⟨h, -⟩ | ⟨-, hfresh, -⟩
  · refine ⟨(hm.registered _ _ h).1, ?_⟩
    rintro rfl
    exact hnone name h
  · exact ⟨(ne_of_not_contains hfresh hR).symm, (ne_of_not_contains hfresh hG).symm⟩

/-- What is under another name than that of the class is not its table. -/
theorem Unshared.ne_of_registered (hm : m.Unshared closed) (hcls : m.Founds name cls T) (hb : b ≠ name)
    (ht : m.Registered b t) : t ≠ cls := by
  rintro rfl
  rcases hcls with ⟨h, -⟩ | ⟨-, hfresh, -⟩
  · exact hb (hm.single _ _ _ ht h)
  · exact hfresh (hm.contains_of_registered ht)

/-- The table under the name of a class is found, or a blank one is made. -/
theorem Unshared.exists_founds (hm : m.Unshared closed) (name : String) :
    ∃ cls b T m', Action.metatableNamed name m = (.ok (cls, b), m') ∧ m.Founds name cls T ∧ m.Grows m' name cls ∧
      m'.heap.object? cls = some (.table T) := by
  obtain ⟨R, hR, hmt⟩ := hm.registry
  obtain ⟨hne, hnone, G, hG⟩ := hm.globals
  obtain ⟨cls, b, m', hnamed, ⟨rfl, hr⟩ | h⟩ := Action.exists_metatableNamed hm.wellFormed hR name
  · obtain ⟨-, T, hT⟩ := hm.registered _ _ hr
    refine ⟨cls, b, T, m', hnamed, Or.inl ⟨hr, hT⟩, ⟨hm.wellFormed, rfl, rfl, ⟨R, hR, hmt⟩, ⟨G, hG⟩, fun n s => ?_,
      fun _ _ _ _ _ ho => ho, fun _ _ hu => hu⟩, hT⟩
    by_cases hn : n = name
    · subst hn
      simp only [true_and, ne_eq, not_true_eq_false, false_and, or_false]
      exact ⟨fun h => h.eq hr, fun e => e ▸ hr⟩
    · simp [hn]
  · obtain ⟨R', hR', hR''⟩ := h.added
    cases hR.symm.trans hR'
    exact ⟨cls, b, _, m', hnamed, Or.inr ⟨h.unused, h.fresh, rfl⟩, ⟨h.wellFormed, h.registry, h.globals,
      ⟨_, hR'', by rw [Table.metatable_set, hmt]⟩, ⟨G, h.kept _ _ hne hG⟩, h.registered_iff,
      fun s o _ hs _ ho => h.kept s o hs ho, h.userdata⟩, h.table⟩

/-- Going on with the table of the class, or with the globals. -/
theorem Grows.extends (h : m.Grows m' name cls) (hm : m.Unshared closed) (hcls : m.Founds name cls T)
    (ht : t = cls ∨ t = m.globals) (h' : m'.Extends m'' t) (hG : ∃ G, m''.heap.object? m.globals = some (.table G)) :
    m.Grows m'' name cls := by
  obtain ⟨R, hR, hmt⟩ := h.registryTable
  have hne : m.registry ≠ t := by
    rcases ht with rfl | rfl
    · exact (hm.ne_of_founds hcls).1.symm
    · exact hm.globals.1.symm
  have hR' := h'.kept _ _ hne hR
  have hregistry := h'.registry.trans h.registry
  refine ⟨h'.wellFormed, hregistry, h'.globals.trans h.globals, ⟨R, hR', hmt⟩, hG, fun n s => ?_, fun s o hs hs' hs'' ho => ?_,
    fun s u hu => h.userdata s u (h'.userdata s u hu)⟩
  · rw [← h.names]
    exact registered_congr (by rw [hregistry, h.registry, hR', hR]) n s
  · refine h'.kept s o ?_ (h.kept s o hs hs' hs'' ho)
    rcases ht with rfl | rfl
    · exact hs
    · exact hs''

theorem Grows.extends_class (h : m.Grows m' name cls) (hm : m.Unshared closed) (hcls : m.Founds name cls T)
    (h' : m'.Extends m'' cls) : m.Grows m'' name cls := by
  obtain ⟨G, hG⟩ := h.globalsTable
  exact h.extends hm hcls (Or.inl rfl) h' ⟨G, h'.kept _ _ (hm.ne_of_founds hcls).2.symm hG⟩

/-- What was there is there. -/
theorem Grows.contains (h : m.Grows m' name cls) (hcls : m'.heap.contains cls = true) (ht : m.heap.contains t = true) :
    m'.heap.contains t = true := by
  obtain ⟨o, ho⟩ := Heap.contains_iff.1 ht
  obtain ⟨R, hR, -⟩ := h.registryTable
  obtain ⟨G, hG⟩ := h.globalsTable
  by_cases hc : t = cls
  · exact hc ▸ hcls
  by_cases hr : t = m.registry
  · exact hr ▸ Heap.contains_of_object? hR
  by_cases hg : t = m.globals
  · exact hg ▸ Heap.contains_of_object? hG
  · exact Heap.contains_of_object? (h.kept t o hc hr hg ho)

/-- The first half of installing a class always succeeds. -/
theorem Unshared.exists_prepare (hm : m.Unshared closed) (d : ClassDescriptor χ) :
    ∃ cls T methods m', d.install m = d.complete cls methods m' ∧ m.Founds d.name cls T ∧
      List.Forall₂ (m'.IsMethod d.name) d.methods.entries methods ∧ m.Grows m' d.name cls ∧
      m'.heap.object? cls = some (.table ((T.putAll methods).set (.string d.name) (.boolean true))) := by
  obtain ⟨cls, b, T, m₁, hnamed, hfounds, h₁, hT₁⟩ := hm.exists_founds d.name
  obtain ⟨methods, m₂, hinstalled, hmethods, hT₂, h₂⟩ :=
    Action.exists_installMethods h₁.wellFormed hT₁ d.name d.methods.entries
  obtain ⟨m₃, hmarked, h₃⟩ := Action.exists_setField h₂.wellFormed hT₂ d.name (.boolean true)
  refine ⟨cls, T, methods, m₃, ?_, hfounds, hmethods.imp fun _ _ h => h₃.extends.isMethod hT₂ h,
    h₁.extends_class hm hfounds (h₂.trans h₃.extends), h₃.self⟩
  exact (Action.bind_of_ok hnamed).trans ((Action.bind_of_ok hinstalled).trans (Action.bind_of_ok hmarked))

/-- With its bases the second half of installing a class succeeds. -/
theorem Grows.exists_complete {methods : List (String × Ref)} {bases : List Ref} (h : m.Grows m' d.name cls)
    (hm : m.Unshared closed) (hfounds : m.Founds d.name cls T)
    (hmethods : List.Forall₂ (m'.IsMethod d.name) d.methods.entries methods)
    (hT : m'.heap.object? cls = some (.table ((T.putAll methods).set (.string d.name) (.boolean true))))
    (hbases : m'.baseTables d.bases = .ok bases) :
    ∃ m'', d.complete cls methods m' = (.ok (), m'') ∧ m.Installs m'' d cls bases := by
  obtain ⟨-, hne'⟩ := hm.ne_of_founds hfounds
  have hquery : Action.query (fun m => (m.baseTables d.bases).mapError (.configuration d.name)) m' = (.ok bases, m') :=
    Action.query_of_ok (by rw [hbases]; rfl)
  obtain ⟨reader, writer, finalizer, m₁, hmetamethods, hT₁, ⟨n, hreader⟩, ⟨n', hwriter⟩, ⟨n'', hfinalizer⟩, hfresh, h₁⟩ :=
    Action.exists_metamethods h.wellFormed hT d.name bases
  have hgrown := h.extends_class hm hfounds h₁
  obtain ⟨G, hG⟩ := hgrown.globalsTable
  obtain ⟨space, m₂, hspace, hG₂, hspace₂, hnew, h₂⟩ :=
    Action.exists_namespace h₁.wellFormed (hgrown.globals.symm ▸ hG) (ClassDescriptor.namespaceName d.name) methods
  rw [hgrown.globals] at hG₂ h₂
  have hinstalled := hgrown.extends hm hfounds (Or.inr rfl) h₂ ⟨_, hG₂⟩
  have hcls := Heap.contains_of_object? hT
  -- functions are no tables, so they are what they were when the globals got the namespace
  have hfunction : ∀ {s : Ref} {f : NativeFunction χ}, m₁.heap.object? s = some (.function f) →
      m₂.heap.object? s = some (.function f) := by
    refine fun hs => h₂.kept _ _ ?_ hs
    rintro rfl
    cases hG.symm.trans hs
  have hequips : m₂.Equips d methods writer finalizer := by
    refine ⟨hmethods.imp fun _ _ hf => ?_, ⟨n', hfunction hwriter⟩, ⟨n'', hfunction hfinalizer⟩,
      G.set (.string (ClassDescriptor.namespaceName d.name)) (.table space), space, ?_, ?_, ?_, hspace₂⟩
    · exact ⟨hf.1, hfunction (h₁.isMethod hT hf).2⟩
    · rw [hinstalled.globals]
      exact hG₂
    · exact (Table.get_set _ _ _ _).trans (if_pos rfl)
    · obtain ⟨R, hR, -⟩ := hgrown.registryTable
      rw [hinstalled.registry, hinstalled.globals]
      refine ⟨(ne_of_not_contains hnew hR).symm, (ne_of_not_contains hnew hG).symm, fun name hr => ?_⟩
      rcases (hinstalled.names name space).1 hr with ⟨-, rfl⟩ | ⟨-, hr⟩
      · exact hnew (Heap.contains_of_object? hT₁)
      · exact hnew (hgrown.contains (Heap.contains_of_object? hT₁) (hm.contains_of_registered hr))
  exact ⟨m₂, (Action.bind_of_ok hquery).trans ((hmetamethods _).trans hspace), hinstalled,
    T, methods, reader, writer, finalizer, hfounds, names_of_isMethod hmethods, h₂.kept _ _ hne' hT₁,
    ⟨n, hfunction hreader⟩, fun hc => hfresh (h.contains hcls hc), hequips⟩

/-! ## Which classes are installed -/

theorem classTable?_eq_some_iff {R : Table} (hR : m.heap.object? m.registry = some (.table R)) {name : String} {t : Ref} :
    m.classTable? name = some t ↔
      m.Registered name t ∧ ∃ T, m.heap.object? t = some (.table T) ∧ T.field name = .boolean true := by
  unfold classTable?
  cases hf : Registry.find? m name with
  | none =>
    refine ⟨nofun, fun ⟨h, _⟩ => ?_⟩
    rw [(find?_eq_some_iff hR).2 h] at hf
    cases hf
  | some s =>
    have hs := (find?_eq_some_iff hR).1 hf
    have hsame : m.Registered name t → t = s := fun h => h.eq hs
    cases hS : m.heap.table s with
    | error e =>
      simp only [rawField, hS, reduceCtorEq, false_iff]
      rintro ⟨h, T, hT, -⟩
      rw [hsame h, ← Heap.table_eq_ok_iff, hS] at hT
      cases hT
    | ok S =>
      have hS' := Heap.table_eq_ok_iff.1 hS
      simp only [rawField, hS]
      constructor
      · intro h
        split at h
        · rename_i hv
          cases h
          exact ⟨hs, S, hS', Except.ok.inj hv⟩
        · cases h
      · rintro ⟨h, T, hT, hv⟩
        rw [hsame h, hS'] at hT
        cases hT
        rw [hsame h, hv]

theorem isInstalled_iff {name : String} : m.isInstalled name = true ↔ ∃ t, m.classTable? name = some t :=
  Option.isSome_iff_exists

/-- What is under another name is as much a class as before. -/
theorem Grows.classTable? (h : m.Grows m' name cls) (hm : m.Unshared closed) (hcls : m.Founds name cls T) (hb : b ≠ name) :
    m'.classTable? b = m.classTable? b := by
  obtain ⟨R', hR', -⟩ := h.registryTable
  rw [← h.registry] at hR'
  obtain ⟨R, hR, -⟩ := hm.registry
  refine Option.ext fun t => ?_
  rw [classTable?_eq_some_iff hR', classTable?_eq_some_iff hR, h.names]
  simp only [hb, false_and, ne_eq, not_false_eq_true, true_and, false_or]
  refine and_congr_right fun ht => ?_
  obtain ⟨hregistry, T₀, hT₀⟩ := hm.registered b t ht
  have hglobals : t ≠ m.globals := fun e => hm.globals.2.1 b (e ▸ ht)
  rw [h.kept t _ (hm.ne_of_registered hcls hb ht) hregistry hglobals hT₀, hT₀]

end Machine

/-- What a filled class table has under a name: its metamethods, then `true` under its own name, then its methods, then what it
had before. -/
theorem ClassDescriptor.get_filled {name : String} {T : Table} {cls : Ref} {methods : List (String × Ref)}
    {reader writer finalizer : Ref} (k : Key) :
    (ClassDescriptor.filled name T cls methods reader writer finalizer).get k =
      if k = .string Registry.finalizeName then .function finalizer
      else if k = .string Registry.writeName then .function writer
      else if k = .string Registry.readName then .function reader
      else if k = .string name then .boolean true
      else (T.putAll methods).get k := by
  rw [← Table.get_set, ← Table.get_set, ← Table.get_set, ← Table.get_set]
  rfl

namespace Machine

variable {m m' : Machine χ σ} {d : ClassDescriptor χ} {cls t : Ref} {bases : List Ref} {T : Table} {name : String}

/-- The class is installed, unless it has the name of a metamethod; the other classes are what they were. -/
theorem Installs.classTable? (h : m.Installs m' d cls bases) (hm : m.Unshared closed) (b : String) :
    m'.classTable? b =
      if b = d.name then (if d.name ∈ Registry.metamethods then none else some cls) else m.classTable? b := by
  obtain ⟨R', hR', -⟩ := h.registryTable
  rw [← h.registry] at hR'
  obtain ⟨T, methods, reader, writer, finalizer, hfounds, -, hT', -⟩ := h.table
  by_cases hb : b = d.name
  · subst hb
    have hfield : ∀ S, m'.heap.object? cls = some (.table S) →
        (S.field d.name = .boolean true ↔ d.name ∉ Registry.metamethods) := by
      intro S hS
      cases hT'.symm.trans hS
      rw [Table.field, ClassDescriptor.get_filled]
      simp only [Key.string.injEq, Registry.metamethods, List.mem_cons, List.not_mem_nil, or_false, not_or]
      split
      · simp [*]
      · split
        · simp [*]
        · split <;> simp [*]
    refine Option.ext fun t => ?_
    rw [if_pos rfl, classTable?_eq_some_iff hR', h.names]
    simp only [true_and, ne_eq, not_true_eq_false, false_and, or_false]
    constructor
    · rintro ⟨rfl, S, hS, hv⟩
      rw [if_neg ((hfield S hS).1 hv)]
    · intro ht
      split at ht
      · cases ht
      · rename_i hn
        cases ht
        exact ⟨rfl, _, hT', (hfield _ hT').2 hn⟩
  · rw [if_neg hb]
    exact h.toGrows.classTable? hm hfounds hb

/-- A table stays a table. -/
theorem Grows.exists_table (h : m.Grows m' name cls) (hcls : ∃ T, m'.heap.object? cls = some (.table T))
    (ht : ∃ S, m.heap.object? t = some (.table S)) : ∃ S, m'.heap.object? t = some (.table S) := by
  obtain ⟨S, hS⟩ := ht
  obtain ⟨R, hR, -⟩ := h.registryTable
  by_cases hc : t = cls
  · exact hc ▸ hcls
  by_cases hr : t = m.registry
  · exact hr ▸ ⟨R, hR⟩
  by_cases hg : t = m.globals
  · exact hg ▸ h.globalsTable
  · exact ⟨S, h.kept t _ hc hr hg hS⟩

/-- An open table stays open: the table of the class has had its name, or it is new. -/
theorem Grows.«open» (h : m.Grows m' name cls) (hfounds : m.Founds name cls T) (hcls : ∃ T, m'.heap.object? cls = some (.table T))
    (ht : m.Open closed t) : m'.Open closed t := by
  obtain ⟨hS, hw, hc⟩ := ht
  refine ⟨h.exists_table hcls hS, h.registry.symm ▸ hw, ?_⟩
  rintro ⟨hclosed, n, hn, hr⟩
  rcases (h.names n t).1 hr with ⟨rfl, rfl⟩ | ⟨-, hr⟩
  · rcases hfounds with ⟨hr, -⟩ | ⟨-, hfresh, -⟩
    · exact hc ⟨hclosed, n, hn, hr⟩
    · obtain ⟨S, hS⟩ := hS
      exact hfresh (Heap.contains_of_object? hS)
  · exact hc ⟨hclosed, n, hn, hr⟩

/-- Every name keeps its table. -/
theorem Grows.registered (h : m.Grows m' name cls) (hfounds : m.Founds name cls T) (ht : m.Registered b t) : m'.Registered b t := by
  by_cases hb : b = name
  · subst hb
    rcases hfounds with ⟨hr, -⟩ | ⟨hnone, -⟩
    · exact (h.names _ _).2 (Or.inl ⟨rfl, ht.eq hr⟩)
    · exact absurd ht (hnone t)
  · exact (h.names _ _).2 (Or.inr ⟨hb, ht⟩)

/-- What is under another name is what it was. -/
theorem Grows.object?_of_registered (h : m.Grows m' name cls) (hm : m.Unshared closed) (hfounds : m.Founds name cls T)
    (hb : b ≠ name) (ht : m.Registered b t) {o : Object χ} (ho : m.heap.object? t = some o) : m'.heap.object? t = some o :=
  h.kept t o (hm.ne_of_registered hfounds hb ht) (hm.registered b t ht).1 (fun e => hm.globals.2.1 b (e ▸ ht)) ho

/-- So is every function. -/
theorem Grows.function (h : m.Grows m' name cls) (hm : m.Unshared closed) (hfounds : m.Founds name cls T) {r : Ref}
    {f : NativeFunction χ} (hf : m.heap.object? r = some (.function f)) : m'.heap.object? r = some (.function f) := by
  have hne : ∀ s S, m.heap.object? s = some (.table S) → r ≠ s := by
    rintro s S hS rfl
    cases hf.symm.trans hS
  obtain ⟨R, hR, -⟩ := hm.registry
  obtain ⟨-, -, G, hG⟩ := hm.globals
  refine h.kept r _ ?_ (hne _ _ hR) (hne _ _ hG) hf
  rcases hfounds with ⟨-, hT⟩ | ⟨-, hfresh, -⟩
  · exact hne _ _ hT
  · exact ne_of_not_contains hfresh hf

/-- Each name still has a table of its own. -/
theorem Grows.unshared (h : m.Grows m' name cls) (hm : m.Unshared closed) (hfounds : m.Founds name cls T)
    (hT' : ∃ T', m'.heap.object? cls = some (.table T')) : m'.Unshared closed := by
  obtain ⟨hne, hne'⟩ := hm.ne_of_founds hfounds
  obtain ⟨R, hR, hmt⟩ := h.registryTable
  have hregistered : ∀ n s, m'.Registered n s → n = name ∧ s = cls ∨ n ≠ name ∧ m.Registered n s :=
    fun n s => (h.names n s).1
  refine ⟨h.wellFormed, ⟨R, h.registry ▸ hR, hmt⟩, ⟨?_, ?_, ?_⟩, fun n s hs => ?_, fun n n' s hs hs' => ?_, ?_⟩
  · rw [h.globals, h.registry]
    exact hm.globals.1
  · intro n hn
    rw [h.globals] at hn
    rcases hregistered n _ hn with ⟨-, e⟩ | ⟨-, hr⟩
    · exact hne' e.symm
    · exact hm.globals.2.1 n hr
  · rw [h.globals]
    exact h.globalsTable
  · rw [h.registry]
    rcases hregistered n s hs with ⟨-, rfl⟩ | ⟨-, hr⟩
    · exact ⟨hne, hT'⟩
    · exact ⟨(hm.registered n s hr).1, h.exists_table hT' (hm.registered n s hr).2⟩
  · rcases hregistered n s hs with ⟨rfl, rfl⟩ | ⟨hn, hr⟩
    · rcases hregistered n' s hs' with ⟨rfl, -⟩ | ⟨hn', hr'⟩
      · rfl
      · exact absurd rfl (hm.ne_of_registered hfounds hn' hr')
    · rcases hregistered n' s hs' with ⟨rfl, rfl⟩ | ⟨-, hr'⟩
      · exact absurd rfl (hm.ne_of_registered hfounds hn hr)
      · exact hm.single n n' s hr hr'
  · exact fun r u e hu he => h.open hfounds hT' (hm.environment r u e (h.userdata r u hu) he)

theorem Installs.unshared (h : m.Installs m' d cls bases) (hm : m.Unshared closed) : m'.Unshared closed := by
  obtain ⟨T, methods, reader, writer, finalizer, hfounds, -, hT', -⟩ := h.table
  exact h.toGrows.unshared hm hfounds ⟨_, hT'⟩

end Machine

end ScriptHost

import ScriptHost.Proofs.Acyclic

/-!
# Complete class tables

The table of a class is complete when it has what installing gives it: itself for a metatable, a function that reads attributes,
with the tables of the bases bound to it, and one that writes them, and when the same goes for its bases
(`Machine.Complete`). Where native code writes no class table by hand, and classes are installed with success or not at all, every
table with the name of a class is complete or blank (`Reached.completed`).
-/

namespace ScriptHost

variable {χ σ : Type}

namespace Machine

/-- The table is that of an installed class with the bases, which are installed too. -/
structure Furnishes (m : Machine χ σ) (cls : Ref) (bases : List Ref) : Prop where
  named : ∃ name, name ∉ Registry.reserved ∧ m.Registered name cls
  table : ∃ T reader writer, m.heap.object? cls = some (.table T) ∧ T.metatable = some cls ∧
    (∀ s, T.field Registry.modeName ≠ .string s) ∧
    T.field Registry.readName = .function reader ∧ T.field Registry.writeName = .function writer ∧
    (∃ name, m.heap.object? reader = some (.function ⟨name, .readAttribute, (cls :: bases).map .table⟩)) ∧
    ∃ name, m.heap.object? writer = some (.function ⟨name, .writeAttribute, []⟩)
  installed : ∀ b ∈ bases, ∃ name, name ∉ Registry.reserved ∧ m.Registered name b ∧ m.Says name b

/-- The table is that of an installed class, and so are those below it. -/
inductive Complete (m : Machine χ σ) : Ref → Prop where
  | intro {cls : Ref} {bases : List Ref} (h : m.Furnishes cls bases) (below : ∀ b ∈ bases, Complete m b) : Complete m cls

/-- What has the name of a class is blank or complete. -/
structure Completed (m : Machine χ σ) : Prop extends m.Unshared True where
  classes : ∀ name t, name ∉ Registry.reserved → m.Registered name t →
    m.heap.object? t = some (.table (.blank name)) ∨ m.Complete t

variable {m m' : Machine χ σ} {cls t b : Ref} {bases : List Ref} {name : String} {d : ClassDescriptor χ}

theorem Complete.named (h : m.Complete t) : ∃ name, name ∉ Registry.reserved ∧ m.Registered name t := by
  cases h with
  | intro h _ => exact h.named

theorem Complete.exists_table (h : m.Complete t) : ∃ T, m.heap.object? t = some (.table T) := by
  cases h with
  | intro h _ =>
    obtain ⟨T, -, -, hT, -⟩ := h.table
    exact ⟨T, hT⟩

/-- What says that it is installed is complete. -/
theorem Completed.complete_of_marked (hm : m.Completed) (hname : name ∉ Registry.reserved) (ht : m.Registered name t)
    (hmark : m.Says name t) : m.Complete t := by
  refine (hm.classes name t hname ht).resolve_left fun hblank => ?_
  obtain ⟨T, hT, hfield⟩ := hmark
  cases hT.symm.trans hblank
  rw [Table.field, ClassDescriptor.get_blank] at hfield
  split at hfield <;> cases hfield

theorem Completed.complete_of_classTable? (hm : m.Completed) (hname : name ∉ Registry.reserved)
    (h : m.classTable? name = some t) : m.Complete t := by
  obtain ⟨R, hR, -⟩ := hm.registry
  obtain ⟨ht, hmark⟩ := (classTable?_eq_some_iff hR).1 h
  exact hm.complete_of_marked hname ht hmark

theorem completed_start (limits : Limits) (host : σ) : (start limits host : Machine χ σ).Completed where
  toUnshared := unshared_start limits host
  classes name t _ ht := (not_registered_start limits host name t ht).elim

/-! ## What keeps tables complete -/

/-- A table stays complete on a machine that has the tables with the names of classes as they were, and the functions. -/
theorem Furnishes.of_kept (h : m.Furnishes cls bases)
    (names : ∀ n s, n ∉ Registry.reserved → m.Registered n s → m'.Registered n s)
    (table : ∀ n T, n ∉ Registry.reserved → m.Registered n cls → m.heap.object? cls = some (.table T) →
      m'.heap.object? cls = some (.table T))
    (base : ∀ n b T, n ∉ Registry.reserved → m.Registered n b → T.field n = .boolean true → m.heap.object? b = some (.table T) →
      m'.heap.object? b = some (.table T))
    (function : ∀ T k f function, m.heap.object? cls = some (.table T) → (∀ s, T.field Registry.modeName ≠ .string s) →
      T.metatable = some cls → T.get k = .function f → m.heap.object? f = some (.function function) →
      m'.heap.object? f = some (.function function)) : m'.Furnishes cls bases := by
  obtain ⟨⟨name, hname, hr⟩, ⟨T, reader, writer, hT, hmt, hmode, hread, hwrite, ⟨n, hreader⟩, n', hwriter⟩, hinstalled⟩ := h
  refine ⟨⟨name, hname, names name cls hname hr⟩, ⟨T, reader, writer, table name T hname hr hT, hmt, hmode, hread, hwrite,
    ⟨n, function T _ _ _ hT hmode hmt hread hreader⟩, n', function T _ _ _ hT hmode hmt hwrite hwriter⟩, fun b hb => ?_⟩
  obtain ⟨n, hn, hr, B, hB, hmark⟩ := hinstalled b hb
  exact ⟨n, hn, names n b hn hr, B, base n b B hn hr hmark hB, hmark⟩

theorem Complete.edit (ht : m.Complete t) (hm : m.Unshared True) (h : m.Edit True m') : m'.Complete t := by
  induction ht with
  | intro hf _ ih =>
    exact .intro (hf.of_kept (fun n s hn hs => h.registered hn hs) (fun n T hn hr hT => hm.object?_edit h hn hr hT)
      (fun n b T hn hr _ hT => hm.object?_edit h hn hr hT) fun _ _ f _ _ _ _ _ hg => hm.function_edit h hg) ih

theorem Completed.edit (hm : m.Completed) (h : m.Edit True m') : m'.Completed where
  toUnshared := h.unshared hm.toUnshared
  classes name t hname ht := by
    rcases h.registered_of ht with ht | ⟨-, -, T, hT, hblank⟩
    · exact (hm.classes name t hname ht).imp (fun hT => hm.object?_edit h hname ht hT) fun hc => hc.edit hm.toUnshared h
    · exact Or.inl (hblank hname ▸ hT)

theorem Completed.edits (hm : m.Completed) (h : Relation.ReflTransGen (Edit True) m m') : m'.Completed := by
  induction h with
  | refl => exact hm
  | tail _ hedit ih => exact ih.edit hedit

/-- It is a matter of the heap. -/
theorem Completed.of_heap_eq (hm : m.Completed) (hheap : m'.heap = m.heap) (hregistry : m'.registry = m.registry)
    (hglobals : m'.globals = m.globals) : m'.Completed :=
  hm.edit (.still hheap hregistry hglobals)

/-- A table with the name of a class is what it was after a sweep, blank or complete. -/
theorem Completed.object?_swept (hm : m.Completed) (hname : name ∉ Registry.reserved) (ht : m.Registered name t) {T : Table}
    (hT : m.heap.object? t = some (.table T)) : m.swept.heap.object? t = some (.table T) := by
  rw [swept_table (hm.survives ht) hT]
  rcases hm.classes name t hname ht with hblank | hc
  · cases hT.symm.trans hblank
    rw [remaining_of_metatable_none (by rfl)]
  · cases hc with
    | intro hf _ =>
      obtain ⟨T', -, -, hT', hmt, hmode, -⟩ := hf.table
      cases hT.symm.trans hT'
      rw [remaining_of_strong (Heap.not_modeSays_of_self hT hmt hmode)]

theorem Complete.swept (ht : m.Complete t) (hm : m.Completed) : m.swept.Complete t := by
  induction ht with
  | @intro cls bases hf _ ih =>
    refine .intro (hf.of_kept (fun n s _ hs => (hm.swept_registered_iff n s).2 hs) (fun n T hn hr hT => hm.object?_swept hn hr hT)
      (fun n b T hn hr _ hT => hm.object?_swept hn hr hT) fun T k f function hT hmode hmt hget hf' => ?_) ih
    obtain ⟨name, hname, hr⟩ := hf.named
    have hentry := Table.mem_of_find? (Table.find?_of_get hget nofun)
    exact swept_function ((hm.survives hr).held (.value hT (Heap.not_modeSays_of_self hT hmt hmode 'v') hentry rfl)
      (Heap.contains_of_object? hf')) hf'

theorem Completed.swept (hm : m.Completed) : m.swept.Completed where
  toUnshared := hm.toUnshared.swept
  classes name t hname ht := by
    have ht' := (hm.swept_registered_iff name t).1 ht
    exact (hm.classes name t hname ht').imp (fun hT => hm.object?_swept hname ht' hT) fun hc => hc.swept hm

/-! ## Installing -/

/-- What says that it is installed stays complete when another class is installed. -/
theorem Complete.installs_of_marked (ht : m.Complete t) (h : m.Installs m' d cls bases) (hm : m.Unshared True)
    (hnew : m.classTable? d.name = none) (hn : m.Registered name t) (hmark : m.Says name t) : m'.Complete t := by
  obtain ⟨T, methods, reader, writer, finalizer, hfounds, -⟩ := h.table
  have hne : ∀ n s, m.Registered n s → m.Says n s → n ≠ d.name := by
    rintro n s hr hs rfl
    cases hnew.symm.trans (hm.classTable?_of_marked hr hs)
  induction ht generalizing name with
  | intro hf _ ih =>
    refine .intro (hf.of_kept (fun n s _ hs => h.registered hs) (fun n T _ hr hT => ?_)
      (fun n b T _ hr hb hT => h.object?_of_registered hm (hne n b hr ⟨T, hT, hb⟩) hr hT) fun _ _ f _ _ _ _ _ hg =>
        h.function hm hg) fun b hb => ?_
    · exact h.object?_of_registered hm (hne name _ hn hmark) hn hT
    · obtain ⟨n, -, hr, hs⟩ := hf.installed b hb
      exact ih b hb hr hs

/-- What the table of a class is made of has no text under `__mode`. -/
theorem Completed.mode_of_founds (hm : m.Completed) {T : Table} (hfounds : m.Founds name cls T) (hname : name ∉ Registry.reserved)
    (s : String) : T.field Registry.modeName ≠ .string s := by
  have hblank : (Table.blank name).field Registry.modeName ≠ .string s := by
    rw [Table.field, ClassDescriptor.get_blank, if_neg (by decide)]
    exact fun h => by cases h
  rcases hfounds with ⟨hr, hT⟩ | ⟨-, -, rfl⟩
  · rcases hm.classes name cls hname hr with hT' | hc
    · cases hT.symm.trans hT'
      exact hblank
    · cases hc with
      | intro hf _ =>
        obtain ⟨T', -, -, hT', -, hmode, -⟩ := hf.table
        cases hT.symm.trans hT'
        exact hmode s
  · exact hblank

/-- Nor has what is made of it. -/
theorem mode_filled {T : Table} (hT : ∀ s, T.field Registry.modeName ≠ .string s) (methods : List (String × Ref))
    (reader writer finalizer : Ref) (s : String) :
    (ClassDescriptor.filled name T cls methods reader writer finalizer).field Registry.modeName ≠ .string s := by
  rw [Table.field, ClassDescriptor.get_filled, if_neg (by decide), if_neg (by decide), if_neg (by decide)]
  split
  · exact fun h => by cases h
  · rcases T.get_putAll methods (.string Registry.modeName) with ⟨e, -, -, hget⟩ | ⟨-, hget⟩
    · rw [hget]
      exact fun h => by cases h
    · rw [hget]
      exact hT s

/-- The table that is found for a base has the name of a class, and says so. -/
theorem Unshared.marked_of_bases (hm : m.Unshared True) (hfree : ∀ b ∈ d.bases, b ∉ Registry.reserved)
    (hbases : d.bases.map m.classTable? = bases.map some) (hb : b ∈ bases) :
    ∃ base, base ∉ Registry.reserved ∧ m.Registered base b ∧ m.Says base b := by
  obtain ⟨R, hR, -⟩ := hm.registry
  obtain ⟨base, hbase, hfound⟩ : ∃ base ∈ d.bases, m.classTable? base = some b :=
    List.mem_map.1 (hbases ▸ List.mem_map_of_mem hb)
  exact ⟨base, hfree base hbase, (classTable?_eq_some_iff hR).1 hfound⟩

/-- Installing completes the table of a class. -/
theorem Completed.complete_of_installs (hm : m.Completed) (h : m.Installs m' d cls bases) (hname : d.name ∉ Registry.reserved)
    (hnew : m.classTable? d.name = none) (hfree : ∀ b ∈ d.bases, b ∉ Registry.reserved)
    (hbases : d.bases.map m.classTable? = bases.map some) : m'.Complete cls := by
  obtain ⟨T, methods, reader, writer, finalizer, hfounds, -, hT', hreader, -, hequips⟩ := h.table
  refine .intro ⟨⟨d.name, hname, (h.names _ _).2 (Or.inl ⟨rfl, rfl⟩)⟩, ⟨_, reader, writer, hT', rfl,
    mode_filled (hm.mode_of_founds hfounds hname) methods reader writer finalizer, ?_, ?_, hreader, hequips.writer⟩,
    fun b hb => ?_⟩ fun b hb => ?_
  · rw [Table.field, ClassDescriptor.get_filled]
    rfl
  · rw [Table.field, ClassDescriptor.get_filled]
    rfl
  · obtain ⟨base, hbase, hr, B, hB, hmark⟩ := hm.marked_of_bases hfree hbases hb
    have hne : base ≠ d.name := by
      rintro rfl
      cases hnew.symm.trans (hm.classTable?_of_marked hr ⟨B, hB, hmark⟩)
    exact ⟨base, hbase, h.registered hr, B, h.object?_of_registered hm.toUnshared hne hr hB, hmark⟩
  · obtain ⟨base, hbase, hr, hmark⟩ := hm.marked_of_bases hfree hbases hb
    exact (hm.complete_of_marked hbase hr hmark).installs_of_marked h hm.toUnshared hnew hr hmark

/-- What is complete stays complete when another class is installed. -/
theorem Complete.installs (ht : m.Complete t) (h : m.Installs m' d cls bases) (hm : m.Unshared True)
    (hnew : m.classTable? d.name = none) (hn : m.Registered name t) (hne : name ≠ d.name) : m'.Complete t := by
  cases ht with
  | intro hf below =>
    refine .intro (hf.of_kept (fun n s _ hs => h.registered hs) (fun n T _ hr hT => ?_) (fun n b T _ hr hb hT => ?_)
      fun _ _ f _ _ _ _ _ hg => h.function hm hg) fun b hb => ?_
    · exact h.object?_of_registered hm (hm.single n name t hr hn ▸ hne) hr hT
    · refine h.object?_of_registered hm ?_ hr hT
      rintro rfl
      cases hnew.symm.trans (hm.classTable?_of_marked hr ⟨T, hT, hb⟩)
    · obtain ⟨n, -, hr, hs⟩ := hf.installed b hb
      exact (below b hb).installs_of_marked h hm hnew hr hs

/-- A class that is not installed may be installed, with success. -/
theorem Completed.installs (hm : m.Completed) (h : m.Installs m' d cls bases) (hname : d.name ∉ Registry.reserved)
    (hnew : m.classTable? d.name = none) (hfree : ∀ b ∈ d.bases, b ∉ Registry.reserved)
    (hbases : d.bases.map m.classTable? = bases.map some) : m'.Completed where
  toUnshared := h.unshared hm.toUnshared
  classes n t hn ht := by
    rcases (h.names n t).1 ht with ⟨rfl, rfl⟩ | ⟨hne, ht⟩
    · exact Or.inr (hm.complete_of_installs h hname hnew hfree hbases)
    · exact (hm.classes n t hn ht).imp (h.object?_of_registered hm.toUnshared hne ht) fun hc =>
        hc.installs h hm.toUnshared hnew ht hne

/-- So may classes one after the other, after classes with the names listed. -/
theorem Completed.installEach {m₀ : Machine χ σ} {listed : List String} {classes : List (ClassDescriptor χ)} (hm : m.Completed)
    (hf : m₀.Follows listed m) (hc : m₀.checkClasses listed classes = .ok ())
    (hfree : ∀ d ∈ classes, ∀ b ∈ d.bases, b ∉ Registry.reserved)
    (h : ClassDescriptor.installEach classes m = (.ok (), m')) : m'.Completed := by
  induction classes generalizing m listed with
  | nil =>
    cases h
    exact hm
  | cons d rest ih =>
    obtain ⟨hd, hrest⟩ := checkClasses_cons_eq_ok_iff.1 hc
    obtain ⟨-, hreserved, -, -, hbases⟩ := checkClass_eq_ok_iff.1 hd
    obtain ⟨hfreed, hfreerest⟩ := List.forall_mem_cons.1 hfree
    rcases hm.toUnshared.install_cases fun b hb => (hbases b hb).1 with
      ⟨cls, bases, m₁, hinstall, hinstalls, hmap⟩ | ⟨b, m₁, hinstall, -, -⟩
    · have hm₁ := hm.installs hinstalls hreserved (hf.classTable?_eq_none hd) hfreed hmap
      exact ih hm₁ (hf.install hm.toUnshared hinstalls) hrest hfreerest ((Action.bind_of_ok hinstall).symm.trans h)
    · cases (Action.bind_of_error hinstall).symm.trans h

theorem Completed.installAll (hm : m.Completed) {classes : List (ClassDescriptor χ)}
    (h : ClassDescriptor.installAll classes m = (.ok (), m'))
    (hfree : ∀ d ∈ classes, ∀ b ∈ d.bases, b ∉ Registry.reserved) : m'.Completed := by
  cases hc : m.checkClasses [] classes with
  | error e => cases (installAll_of_refused hc).symm.trans h
  | ok u =>
    rw [installAll_of_checked hc] at h
    exact hm.installEach (follows_nil m) hc hfree h

end Machine

/-! ## Runs -/

/-- Native code that writes no class table by hand leaves the tables of classes complete, or blank. -/
theorem stable_completed : Stable (Machine.Completed : Machine χ σ → Prop) (Machine.Spares True) where
  silent c m r hr hm hspares := by
    by_cases hclasses : ∃ classes, r = .installClasses classes
    · obtain ⟨classes, rfl⟩ := hclasses
      rcases hspares trivial with h | ⟨h, hfree⟩
      · show (ClassDescriptor.installAll classes m).2.Completed
        rwa [h]
      · exact hm.installAll (Action.eq_of_fst h) hfree
    · have hkeeps : (Machine.edits True).Keeps (fun m => m.Spares True r) (r.perform c) fun _ _ => True :=
        Request.keeps_perform c hr fun classes e => absurd ⟨classes, e⟩ hclasses
      exact hm.edits (hkeeps m hm.toUnshared hspares).2.1
  written m call hm := hm.edit (hm.toUnshared.edit_write call)
  lands m target key v t hm hspares ht := hm.edit (hm.toUnshared.edit_rawSet (hspares t ht))
  swept m hm _ := hm.swept
  queue _ _ _ m rest hm := hm.of_heap_eq rfl rfl rfl
  finish _ _ _ m s hm := hm.of_heap_eq rfl rfl rfl

theorem Reached.completed {Γ : Host χ σ} (hΓ : Γ.Lawful (Machine.Spares True) Machine.Completed) {m : Machine χ σ}
    (hm : Reached Γ (Machine.Spares True) m) : m.Completed :=
  hm.keep stable_completed (fun _ _ _ => trivial) hΓ Machine.completed_start (fun _ _ _ _ h _ => h.of_heap_eq rfl rfl rfl)
    fun _ _ h => h.of_heap_eq rfl rfl rfl

end ScriptHost

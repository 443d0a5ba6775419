import ScriptHost.Proofs.Lookup
import ScriptHost.Proofs.Wrapping

/-!
# What an installed list leaves

Installing a list of classes goes on with class after class, and each class finds what the earlier ones left, because it touches
only the registry, the globals, and the table under its own name (`Machine.Gains`). So at the end each class of the list has its
metamethods in its table and its bases bound to the one that reads. Two fields of the table may be in each other's way: the
`true` that says that the class is installed is lost if the class has the name of a metamethod (`installed_iff`), and a method is
lost if it has the name of its class or of a metamethod (`method_read_iff`).
-/

namespace ScriptHost

variable {χ σ α β : Type} {closed : Prop}

/-- What succeeds succeeds step by step. -/
theorem Action.exists_of_bind_eq_ok {x : Action χ σ α} {f : α → Action χ σ β} {m m' : Machine χ σ} {b : β}
    (h : (x >>= f) m = (.ok b, m')) : ∃ a m₁, x m = (.ok a, m₁) ∧ f a m₁ = (.ok b, m') := by
  change Action.bind x f m = _ at h
  unfold Action.bind at h
  split at h
  · exact ⟨_, _, ‹_›, h⟩
  · cases h

namespace Machine

/-! ## Class after class -/

/-- What classes with the names, installed one after the other, make of a machine. Nothing that was there has got a name; under other
names everything is as it was; and so are all objects but the registry, the globals and the tables under the names. -/
structure Gains (m m' : Machine χ σ) (names : List String) : Prop where
  registry : m'.registry = m.registry
  globals : m'.globals = m.globals
  contains : ∀ s, m.heap.contains s = true → m'.heap.contains s = true
  unnamed : ∀ n s, m.heap.contains s = true → m'.Registered n s → m.Registered n s
  named : ∀ n ∉ names, ∀ s, m.Registered n s → m'.Registered n s
  classTable? : ∀ n ∉ names, m'.classTable? n = m.classTable? n
  kept : ∀ s o, s ≠ m.registry → s ≠ m.globals → (∀ n ∈ names, ¬m.Registered n s) → m.heap.object? s = some o →
    m'.heap.object? s = some o

variable {m m' m'' : Machine χ σ} {d : ClassDescriptor χ} {cls s : Ref} {bases : List Ref} {names names' : List String}

theorem Gains.refl (m : Machine χ σ) : m.Gains m [] :=
  ⟨rfl, rfl, fun _ h => h, fun _ _ _ h => h, fun _ _ _ h => h, fun _ _ => rfl, fun _ _ _ _ _ h => h⟩

theorem Gains.trans (h : m.Gains m' names) (h' : m'.Gains m'' names') : m.Gains m'' (names ++ names') where
  registry := h'.registry.trans h.registry
  globals := h'.globals.trans h.globals
  contains s hs := h'.contains s (h.contains s hs)
  unnamed n s hs hr := h.unnamed n s hs (h'.unnamed n s (h.contains s hs) hr)
  named n hn s hr := by
    obtain ⟨hn, hn'⟩ := not_or.1 (mt List.mem_append.2 hn)
    exact h'.named n hn' s (h.named n hn s hr)
  classTable? n hn := by
    obtain ⟨hn, hn'⟩ := not_or.1 (mt List.mem_append.2 hn)
    exact (h'.classTable? n hn').trans (h.classTable? n hn)
  kept s o hs hs' hn ho := by
    obtain ⟨hn, hn'⟩ := List.forall_mem_append.1 hn
    refine h'.kept s o (h.registry ▸ hs) (h.globals ▸ hs') (fun n hin hr => ?_) (h.kept s o hs hs' hn ho)
    exact hn' n hin (h.unnamed n s (Heap.contains_of_object? ho) hr)

/-- A function is no table of the binding layer, and not the globals. -/
theorem Unshared.of_function (hm : m.Unshared closed) {f : NativeFunction χ} (hs : m.heap.object? s = some (.function f)) :
    s ≠ m.registry ∧ s ≠ m.globals ∧ ∀ n, ¬m.Registered n s := by
  obtain ⟨R, hR, -⟩ := hm.registry
  obtain ⟨-, -, G, hG⟩ := hm.globals
  refine ⟨?_, ?_, fun n hr => ?_⟩
  · rintro rfl
    cases hR.symm.trans hs
  · rintro rfl
    cases hG.symm.trans hs
  · obtain ⟨-, T, hT⟩ := hm.registered n s hr
    cases hT.symm.trans hs

/-- A function is what it was, because it is no table. -/
theorem Gains.function (h : m.Gains m' names) (hm : m.Unshared closed) {f : NativeFunction χ}
    (hs : m.heap.object? s = some (.function f)) : m'.heap.object? s = some (.function f) := by
  obtain ⟨hregistry, hglobals, hnames⟩ := hm.of_function hs
  exact h.kept s _ hregistry hglobals (fun n _ => hnames n) hs

/-- A table under another name is what it was. -/
theorem Gains.table (h : m.Gains m' names) (hm : m.Unshared closed) {n : String} {T : Table} (hn : n ∉ names)
    (hr : m.Registered n s) (hT : m.heap.object? s = some (.table T)) : m'.heap.object? s = some (.table T) := by
  refine h.kept s _ (hm.registered n s hr).1 (fun e => hm.globals.2.1 n (e ▸ hr)) (fun n' hn' hr' => ?_) hT
  exact hn (hm.single n n' s hr hr' ▸ hn')

/-- One class gains its own name. -/
theorem Installs.gains (h : m.Installs m' d cls bases) (hm : m.Unshared closed) : m.Gains m' [d.name] := by
  obtain ⟨T, methods, reader, writer, finalizer, hfounds, -, hT, -⟩ := h.table
  have hcls : ∀ {s}, m.heap.contains s = true → s = cls → m.Registered d.name s := by
    rintro s hs rfl
    rcases hfounds with ⟨hr, -⟩ | ⟨-, hfresh, -⟩
    · exact hr
    · exact absurd hs hfresh
  refine ⟨h.registry, h.globals, fun s hs => h.toGrows.contains (Heap.contains_of_object? hT) hs, fun n s hs hr => ?_,
    fun n hn s hr => ?_, fun n hn => ?_, fun s o hs hs' hn ho => ?_⟩
  · rcases (h.names n s).1 hr with ⟨rfl, he⟩ | ⟨-, hr⟩
    · exact hcls hs he
    · exact hr
  · exact (h.names n s).2 (Or.inr ⟨mt List.mem_singleton.2 hn, hr⟩)
  · rw [h.classTable? hm, if_neg (mt List.mem_singleton.2 hn)]
  · exact h.kept s o (fun e => hn _ List.mem_cons_self (hcls (Heap.contains_of_object? ho) e)) hs hs' ho

end Machine

namespace ClassDescriptor

variable {m m' : Machine χ σ} {d : ClassDescriptor χ} {classes earlier later : List (ClassDescriptor χ)} {listed : List String}

theorem exists_of_installEach_append (h : installEach (earlier ++ later) m = (.ok (), m')) :
    ∃ m₁, installEach earlier m = (.ok (), m₁) ∧ installEach later m₁ = (.ok (), m') := by
  induction earlier generalizing m with
  | nil => exact ⟨m, rfl, h⟩
  | cons d rest ih =>
    obtain ⟨u, m₁, hd, hrest⟩ := Action.exists_of_bind_eq_ok h
    obtain ⟨m₂, hrest, hlater⟩ := ih hrest
    exact ⟨m₂, (Action.bind_of_ok hd).trans hrest, hlater⟩

theorem installEach_append_of_ok {m₁ : Machine χ σ} (h : installEach earlier m = (.ok (), m₁)) :
    installEach (earlier ++ later) m = installEach later m₁ := by
  induction earlier generalizing m with
  | nil =>
    cases h
    rfl
  | cons d rest ih =>
    obtain ⟨u, m₂, hd, hrest⟩ := Action.exists_of_bind_eq_ok h
    exact (Action.bind_of_ok hd).trans (ih hrest)

/-- Classes none of which is its own base gain their names. -/
theorem gains_of_installEach (hm : m.Unshared closed) (hself : ∀ d ∈ classes, ∀ b ∈ d.bases, b ≠ d.name)
    (h : installEach classes m = (.ok (), m')) : m'.Unshared closed ∧ m.Gains m' (classes.map name) := by
  induction classes generalizing m with
  | nil =>
    cases h
    exact ⟨hm, .refl _⟩
  | cons d rest ih =>
    obtain ⟨hd, hrest⟩ := List.forall_mem_cons.1 hself
    obtain ⟨u, m₁, hinstall, h⟩ := Action.exists_of_bind_eq_ok h
    rcases hm.install_cases hd with ⟨cls, bases, m₂, hdone, hinstalls, -⟩ | ⟨b, m₂, hfail, -⟩
    · cases hinstall.symm.trans hdone
      obtain ⟨hm', hgains⟩ := ih (hinstalls.unshared hm) hrest h
      exact ⟨hm', (hinstalls.gains hm).trans hgains⟩
    · cases hinstall.symm.trans hfail

/-! ## One class of a list -/

/-- The check of a list says that no class of it has a name listed before, or an installed one, or is its own base. -/
theorem checked_of_mem (hc : m.checkClasses listed classes = .ok ()) (hd : d ∈ classes) :
    d.name ∉ listed ∧ ¬m.isInstalled d.name = true ∧ ∀ b ∈ d.bases, b ≠ d.name := by
  induction classes generalizing listed with
  | nil => cases hd
  | cons e rest ih =>
    obtain ⟨he, hrest⟩ := Machine.checkClasses_cons_eq_ok_iff.1 hc
    rcases List.mem_cons.1 hd with rfl | hd
    · obtain ⟨-, -, hlisted, hnot, hbases⟩ := Machine.checkClass_eq_ok_iff.1 he
      exact ⟨hlisted, hnot, fun b hb => (hbases b hb).1⟩
    · obtain ⟨hlisted, hrest⟩ := ih hrest hd
      exact ⟨fun h => hlisted (List.mem_cons_of_mem _ h), hrest⟩

/-- It says of a class that its bases come before it, and that no class after it has its name or that of one of its bases. -/
theorem checked_of_split (hc : m.checkClasses listed (earlier ++ d :: later) = .ok ()) :
    d.name ∉ Registry.reserved ∧ d.name ∉ later.map name ∧ ∀ b ∈ d.bases, b ∉ later.map name := by
  induction earlier generalizing listed with
  | nil =>
    obtain ⟨hd, hrest⟩ := Machine.checkClasses_cons_eq_ok_iff.1 hc
    obtain ⟨-, hreserved, -, -, hbases⟩ := Machine.checkClass_eq_ok_iff.1 hd
    refine ⟨hreserved, fun hin => ?_, fun b hb hin => ?_⟩
    · obtain ⟨e, he, hname⟩ := List.mem_map.1 hin
      exact (checked_of_mem hrest he).1 (hname ▸ List.mem_cons_self)
    · obtain ⟨e, he, rfl⟩ := List.mem_map.1 hin
      obtain ⟨hlisted, hnot, -⟩ := checked_of_mem hrest he
      rcases (hbases _ hb).2 with hbefore | hinstalled
      · exact hlisted (List.mem_cons_of_mem _ hbefore)
      · exact hnot hinstalled
  | cons e rest ih => exact ih (Machine.checkClasses_cons_eq_ok_iff.1 hc).2

/-- A class of an installed list was installed after the earlier ones, with its bases, and the later ones have only gained their own
names since. -/
theorem exists_installs (hm : m.Unshared closed) (h : installAll (earlier ++ d :: later) m = (.ok (), m')) :
    ∃ (m₀ m₁ : Machine χ σ) (cls : Ref) (bases : List Ref), installEach (earlier ++ [d]) m = (.ok (), m₁) ∧
      m₀.Unshared closed ∧ m₀.Installs m₁ d cls bases ∧ d.bases.map m₁.classTable? = bases.map some ∧
      m₁.Unshared closed ∧ m'.Unshared closed ∧ m₁.Gains m' (later.map name) ∧
      d.name ∉ Registry.reserved ∧ d.name ∉ later.map name ∧ ∀ b ∈ d.bases, b ∉ later.map name := by
  have hc : m.checkClasses [] (earlier ++ d :: later) = .ok () := by
    cases hc : m.checkClasses [] (earlier ++ d :: later) with
    | ok u => rfl
    | error e =>
      rw [installAll_of_refused hc] at h
      cases h
  rw [installAll_of_checked hc] at h
  have hself : ∀ e ∈ earlier ++ d :: later, ∀ b ∈ e.bases, b ≠ e.name := fun e he => (checked_of_mem hc he).2.2
  obtain ⟨hearlier, hd, hlater⟩ : (∀ e ∈ earlier, ∀ b ∈ e.bases, b ≠ e.name) ∧ (∀ b ∈ d.bases, b ≠ d.name) ∧
      ∀ e ∈ later, ∀ b ∈ e.bases, b ≠ e.name := by
    simpa only [List.forall_mem_append, List.forall_mem_cons] using hself
  obtain ⟨m₀, h₀, hrest⟩ := exists_of_installEach_append h
  obtain ⟨u, m₁, hinstall, h₁⟩ := Action.exists_of_bind_eq_ok hrest
  obtain ⟨hm₀, -⟩ := gains_of_installEach hm hearlier h₀
  rcases hm₀.install_cases hd with ⟨cls, bases, m₂, hdone, hinstalls, hbases⟩ | ⟨b, m₂, hfail, -⟩
  · cases hinstall.symm.trans hdone
    have hm₁ := hinstalls.unshared hm₀
    obtain ⟨hm', hgains⟩ := gains_of_installEach hm₁ hlater h₁
    refine ⟨m₀, m₁, cls, bases, ?_, hm₀, hinstalls, ?_, hm₁, hm', hgains, checked_of_split hc⟩
    · exact (installEach_append_of_ok h₀).trans (Action.bind_of_ok hinstall)
    · rw [← hbases]
      refine List.map_congr_left fun b hb => ?_
      rw [hinstalls.classTable? hm₀, if_neg (hd b hb)]
  · cases hinstall.symm.trans hfail

end ClassDescriptor

/-! ## The last of each name -/

namespace MethodTable

/-- What a list has last under a name. -/
def last? (entries : List (String × α)) (name : String) : Option α := entries.reverse.lookup name

variable {name : String}

theorem last?_append (entries rest : List (String × α)) :
    last? (entries ++ rest) name = (last? rest name).or (last? entries name) := by
  rw [last?, List.reverse_append, List.lookup_append]
  rfl

theorem last?_cons (e : String × α) (rest : List (String × α)) :
    last? (e :: rest) name = (last? rest name).or (if name = e.1 then some e.2 else none) :=
  lookup_reverse_cons e rest name

theorem last?_single (e : String × α) : last? [e] name = if name = e.1 then some e.2 else none := by
  rw [last?_cons]
  exact Option.none_or

theorem exists_last? {entries : List (String × α)} (h : ∃ e ∈ entries, e.1 = name) : ∃ a, last? entries name = some a := by
  obtain ⟨e, he, rfl⟩ := h
  exact Option.isSome_iff_exists.1 (List.lookup_isSome_iff.2 ⟨e, List.mem_reverse.2 he, by simp⟩)

/-- A name that is given has the last code given to it. -/
theorem last?_insert (t : MethodTable χ) (given : String) (code : χ) :
    last? (t.insert given code).entries name = if name = given then some code else last? t.entries name := by
  have hreplace : ∀ entries : List (String × χ),
      last? (entries.map fun e => if e.1 == given then (given, code) else e) name =
        if name = given then (last? entries name).map fun _ => code else last? entries name := by
    intro entries
    induction entries with
    | nil => simp [last?]
    | cons e rest ih =>
      rw [List.map_cons, last?_cons, last?_cons, ih]
      by_cases hn : name = given <;> by_cases he : e.1 = given <;> cases last? rest name <;> simp_all
  unfold insert
  split
  · rename_i hany
    rw [hreplace]
    split
    · rename_i hn
      obtain ⟨e, he, heq⟩ := List.any_eq_true.1 hany
      obtain ⟨a, ha⟩ := exists_last? ⟨e, he, (eq_of_beq heq).trans hn.symm⟩
      rw [ha, Option.map_some]
    · rfl
  · rw [last?_append, last?_single]
    by_cases hn : name = given <;> simp [hn]

/-- In a table made from a list the last method of each name counts. -/
theorem last?_ofList (defs : List (String × χ)) : last? (ofList defs).entries name = defs.reverse.lookup name := by
  have hfold : ∀ t : MethodTable χ, last? (defs.foldl (fun t e => t.insert e.1 e.2) t).entries name =
      (last? defs name).or (last? t.entries name) := by
    induction defs with
    | nil => simp [last?]
    | cons e rest ih =>
      intro t
      rw [List.foldl_cons, ih, last?_insert, last?_cons]
      by_cases h : name = e.1 <;> cases last? rest name <;> simp [h]
  rw [ofList, hfold]
  simp [last?, empty]

end MethodTable

open MethodTable

/-- Of functions put into a table the last of each name is there. -/
theorem Table.field_putAll (T : Table) (methods : List (String × Ref)) (name : String) :
    (T.putAll methods).field name = ((last? methods name).map Value.function).getD (T.field name) := by
  induction methods generalizing T with
  | nil => rfl
  | cons e rest ih =>
    have hput : T.putAll (e :: rest) = (T.set (.string e.1) (.function e.2)).putAll rest := rfl
    rw [hput, ih, last?_cons, Table.field, Table.field, Table.get_set]
    by_cases h : name = e.1 <;> cases last? rest name <;> simp [h]

/-- What is under a name in the table of a class, and in its namespace. -/
theorem ClassDescriptor.field_filled {cls : String} {T : Table} {t : Ref} {methods : List (String × Ref)}
    {reader writer finalizer : Ref} (name : String) :
    (ClassDescriptor.filled cls T t methods reader writer finalizer).field name =
      if name = Registry.finalizeName then .function finalizer
      else if name = Registry.writeName then .function writer
      else if name = Registry.readName then .function reader
      else if name = cls then .boolean true
      else ((last? methods name).map Value.function).getD (T.field name) := by
  rw [Table.field, ClassDescriptor.get_filled, ← Table.field, Table.field_putAll]
  simp only [Key.string.injEq]

/-- A class table has a method under its name, unless that is the name of the class or of a metamethod. -/
theorem ClassDescriptor.field_filled_eq_iff {cls name : String} {T : Table} {t f : Ref} {methods : List (String × Ref)}
    {reader writer finalizer : Ref} (hf : last? methods name = some f) (hr : f ≠ reader) (hw : f ≠ writer)
    (hg : f ≠ finalizer) :
    (ClassDescriptor.filled cls T t methods reader writer finalizer).field name = .function f ↔
      name ≠ cls ∧ name ∉ Registry.metamethods := by
  have hfunction : ∀ {s : Ref}, f ≠ s → ¬Value.function s = .function f := fun h e => h (Value.function.inj e).symm
  rw [field_filled, hf, Option.map_some, Option.getD_some]
  simp only [Registry.metamethods, List.mem_cons, List.not_mem_nil, or_false, not_or]
  split
  · simp [*]
  · split
    · simp [*]
    · split
      · simp [*]
      · split <;> simp [*]

namespace Machine

variable {m m' : Machine χ σ} {d : ClassDescriptor χ} {cls : Ref} {bases : List Ref}

/-- The last method of a name has become the last function of that name. -/
theorem exists_last_method {cls : String} {entries : List (String × χ)} {methods : List (String × Ref)}
    (h : List.Forall₂ (m.IsMethod cls) entries methods) (name : String) :
    (last? entries name = none → last? methods name = none) ∧
      ∀ code, last? entries name = some code → ∃ f, last? methods name = some f ∧
        m.heap.object? f = some (.function ⟨cls ++ "." ++ name, .host code, []⟩) := by
  induction h with
  | nil => exact ⟨fun _ => rfl, fun _ h => nomatch h⟩
  | @cons e f entries methods hef _ ih =>
    obtain ⟨hnone, hsome⟩ := ih
    rw [last?_cons, last?_cons, hef.1]
    cases hlast : last? entries name with
    | some code =>
      obtain ⟨g, hg, hobject⟩ := hsome code hlast
      refine ⟨nofun, fun code' h => ?_⟩
      cases h
      exact ⟨g, by rw [hg]; rfl, hobject⟩
    | none =>
      rw [hnone hlast]
      by_cases hn : name = e.1
      · subst hn
        refine ⟨fun h => by simp at h, fun code h => ?_⟩
        simp only [if_pos, Option.none_or, Option.some.injEq] at h
        exact ⟨f.2, by simp, h ▸ hef.2⟩
      · simp [hn]

end Machine

/-! ## Installed classes -/

open Machine in
/-- On every machine of a run in which native code leaves the names of the registry to the binding layer: after a list of classes
was installed with success, each class of the list has a table of its own, which is its own metatable and holds functions that
read, write and finalize; what is bound to the one that reads is the table followed by the tables of the bases of the class, in
their order; and the class is installed exactly if it does not have the name of a metamethod. -/
theorem installed_iff {Γ : Host χ σ} (hΓ : Γ.Lawful (Spares False) (Unshared False)) {m m' : Machine χ σ}
    (hm : Reached Γ (Spares False) m) {classes : List (ClassDescriptor χ)}
    (h : ClassDescriptor.installAll classes m = (.ok (), m')) {d : ClassDescriptor χ} (hd : d ∈ classes) :
    (m'.isInstalled d.name = true ↔ d.name ∉ Registry.metamethods) ∧
    ∃ t T reader writer finalizer bases, (d.name ∉ Registry.metamethods → m'.classTable? d.name = some t) ∧
      m'.Registered d.name t ∧ m'.heap.object? t = some (.table T) ∧ T.metatable = some t ∧
      T.field Registry.readName = .function reader ∧ T.field Registry.writeName = .function writer ∧
      T.field Registry.finalizeName = .function finalizer ∧
      (∃ n, m'.heap.object? reader = some (.function ⟨n, .readAttribute, (t :: bases).map .table⟩)) ∧
      (∃ n, m'.heap.object? writer = some (.function ⟨n, .writeAttribute, []⟩)) ∧
      (∃ n, m'.heap.object? finalizer = some (.function ⟨n, .finalizeHandle, []⟩)) ∧
      d.bases.map m'.classTable? = bases.map some := by
  obtain ⟨earlier, later, rfl⟩ := List.append_of_mem hd
  obtain ⟨m₀, m₁, t, bases, -, hm₀, hinstalls, hbases, hm₁, -, hgains, -, hlater, hlater'⟩ :=
    ClassDescriptor.exists_installs (hm.unshared hΓ) h
  obtain ⟨T, methods, reader, writer, finalizer, -, -, hT, ⟨n, hreader⟩, -, hequips⟩ := hinstalls.table
  obtain ⟨nw, hwriter⟩ := hequips.writer
  obtain ⟨nf, hfinalizer⟩ := hequips.finalizer
  have ht : m₁.Registered d.name t := (hinstalls.names d.name t).2 (Or.inl ⟨rfl, rfl⟩)
  have hclass : m'.classTable? d.name = if d.name ∈ Registry.metamethods then none else some t := by
    rw [hgains.classTable? _ hlater, hinstalls.classTable? hm₀, if_pos rfl]
  have hT' := hgains.table hm₁ hlater ht hT
  refine ⟨?_, t, _, reader, writer, finalizer, bases, fun hn => ?_, hgains.named _ hlater t ht, hT', rfl, ?_, ?_, ?_,
    ⟨n, hgains.function hm₁ hreader⟩, ⟨nw, hgains.function hm₁ hwriter⟩, ⟨nf, hgains.function hm₁ hfinalizer⟩, ?_⟩
  · rw [isInstalled, hclass]
    split <;> simp [*]
  · rw [hclass, if_neg hn]
  · rw [ClassDescriptor.field_filled, if_neg (by decide), if_neg (by decide), if_pos rfl]
  · rw [ClassDescriptor.field_filled, if_neg (by decide), if_pos rfl]
  · rw [ClassDescriptor.field_filled, if_pos rfl]
  · rw [← hbases]
    exact List.map_congr_left fun b hb => hgains.classTable? b (hlater' b hb)

/-- A host whose functions, of two kinds, do nothing. -/
def quietHost : Host Bool Unit := fun _ _ => pure []

theorem lawful_quietHost {P : Machine Bool Unit → Request Bool Unit → Prop} {I : Machine Bool Unit → Prop} :
    quietHost.Lawful P I := fun _ _ _ _ _ _ _ _ _ => trivial

/-- The methods of a class, one of them given twice, one with the name of the class, and one with that of a metamethod. -/
def clashingMethods : List (String × Bool) := [("run", false), ("D", true), ("run", true), ("__gc", true)]

/-- The class, and others before and after it, the last with the name of a metamethod. -/
def clashingClasses : List (ClassDescriptor Bool) :=
  [⟨"A", .empty, []⟩, ⟨"D", .ofList clashingMethods, ["A"]⟩, ⟨"__index", .empty, []⟩]

/-- A new machine after these classes were installed. -/
def afterClashing : Machine Bool Unit := (ClassDescriptor.installAll clashingClasses (.start .standard ())).2

theorem installAll_clashing : ClassDescriptor.installAll clashingClasses (.start .standard ()) = (.ok (), afterClashing) :=
  Action.eq_of_fst (eq_ok_of_toOption (by decide +kernel))

/-- The class that has another for its base is installed, with the table of that one bound to its function, and the class with the
name of a metamethod is not. -/
theorem installed_afterClashing :
    (afterClashing.isInstalled "D" = true ∧ ∃ t b reader n, afterClashing.classTable? "D" = some t ∧
      afterClashing.classTable? "A" = some b ∧ afterClashing.rawField t "__index" = .ok (.function reader) ∧
      afterClashing.heap.object? reader = some (.function ⟨n, .readAttribute, [.table t, .table b]⟩)) ∧
    ¬afterClashing.isInstalled "__index" = true := by
  have hinstalled : ∀ d ∈ clashingClasses, _ := fun d hd =>
    installed_iff lawful_quietHost (.start .standard ()) installAll_clashing hd
  obtain ⟨hiff, t, T, reader, -, -, bases, ht, -, hT, -, hread, -, -, ⟨n, hreader⟩, -, -, hbases⟩ :=
    hinstalled ⟨"D", .ofList clashingMethods, ["A"]⟩ (by decide)
  obtain ⟨hiff', -⟩ := hinstalled ⟨"__index", .empty, []⟩ (by decide)
  refine ⟨⟨hiff.2 (by decide), ?_⟩, mt hiff'.1 (by decide)⟩
  obtain ⟨b, rfl⟩ := List.length_eq_one_iff.1 ((List.length_map some).symm.trans (congrArg List.length hbases).symm)
  refine ⟨t, b, reader, n, ht (by decide), List.head_eq_of_cons_eq hbases, ?_, hreader⟩
  rw [Machine.rawField, Heap.table_eq_ok_iff.2 hT]
  exact congrArg Except.ok hread

/-- That every class of a list that was installed with success is installed is false: one with the name of a metamethod is not. -/
theorem installs_every_class_false :
    ¬∀ (Γ : Host Bool Unit) (m m' : Machine Bool Unit) (classes : List (ClassDescriptor Bool)),
      Γ.Lawful (Machine.Spares False) (Machine.Unshared False) → Reached Γ (Machine.Spares False) m →
      ClassDescriptor.installAll classes m = (.ok (), m') → ∀ d ∈ classes, m'.isInstalled d.name = true := by
  intro hall
  have hinstalled := hall quietHost _ _ clashingClasses lawful_quietHost (.start .standard ()) installAll_clashing
    ⟨"__index", .empty, []⟩ (by decide)
  exact absurd hinstalled (by decide +kernel)

/-! ## Methods -/

open ScriptHost.Action Machine in
/-- Reading a name of a handle answers what the table of its class has under it, if that is anything and the shadow has nothing. -/
theorem reads_class_field {Γ : Host χ σ} {m : Machine χ σ} {handle cls reader : Ref} {u : Userdata} {T : Table} {n name : String}
    {upvalues : List Value} (hu : m.heap.object? handle = some (.userdata u)) (hclass : u.metatable = some cls)
    (hT : m.heap.object? cls = some (.table T)) (hread : T.field Registry.readName = .function reader)
    (hreader : m.heap.object? reader = some (.function ⟨n, .readAttribute, .table cls :: upvalues⟩))
    (hshadow : Attribute.inShadow m (.userdata handle) (.string name) = .ok .nil) (hfound : ¬(T.field name).isNil = true) :
    (index (call Γ) (.userdata handle) (.string name)).Reads m (m.Fits 1) (T.field name) := by
  have hmetatable : m.metatable (.userdata handle) = .ok (some cls) := by
    simp only [Machine.metatable, Heap.userdata_eq_ok_iff.2 hu, hclass]
  have hfield : m.metafield (.userdata handle) "__index" = .ok (.function reader) :=
    metafield_readName hmetatable (by simp only [rawField, Heap.table_eq_ok_iff.2 hT, hread])
  have hinClass : Attribute.inClass m (.string name) (.table cls) = .ok (T.field name) := by
    simp only [Attribute.inClass, rawGet, Heap.table_eq_ok_iff.2 hT, Key.ofValue, Table.field]
  refine reads_index (fun h => h.1) (Or.inr ⟨reader, ?_, reads_call Γ hreader (fun h => h.hasRoom) ?_⟩)
  · simp only [readHop, handlerHop, hfield]
    rfl
  · refine Reads.bind (a := Value.nil) (reads_query hshadow) ?_
    refine Reads.bind (a := T.field name) (Reads.bind (a := T.field name) (reads_query hinClass) ?_) (reads_pure _)
    rw [if_neg hfound]
    exact reads_pure _

open Machine in
/-- On every machine of a run in which native code leaves the names of the registry to the binding layer: take a list of classes
that was installed with success, a class of it, a name and the last code among its methods of that name, and an address that is
wrapped as an object of the class afterwards, where the shadow of its handle has nothing under the name. The namespace that was
made for the class has a function under the name, which runs the code; and reading the name of the handle answers that function
exactly if the name is neither that of the class nor that of a metamethod. The machine is what it was after reading, and where
the limits leave no room for a call the answer is a stack overflow. -/
theorem method_read_iff {Γ : Host χ σ} (hΓ : Γ.Lawful (Spares False) (Unshared False)) {m m' m'' : Machine χ σ}
    (hm : Reached Γ (Spares False) m) {earlier later : List (ClassDescriptor χ)} {d : ClassDescriptor χ}
    (h : ClassDescriptor.installAll (earlier ++ d :: later) m = (.ok (), m')) {defs : List (String × χ)}
    (hdefs : d.methods = .ofList defs) {name : String} {code : χ} (hlast : defs.reverse.lookup name = some code) {a : Address}
    {handle : Ref} (hwrap : Action.wrap a d.name m' = (.ok (.userdata handle), m''))
    (hshadow : Attribute.inShadow m'' (.userdata handle) (.string name) = .ok .nil) :
    ∃ f space S v m₁, ClassDescriptor.installEach (earlier ++ [d]) m = (.ok (), m₁) ∧
      m₁.globalField (ClassDescriptor.namespaceName d.name) = .ok (.table space) ∧
      m''.heap.object? space = some (.table S) ∧ S.field name = .function f ∧
      (∃ n, m''.heap.object? f = some (.function ⟨n, .host code, []⟩)) ∧
      (v = .function f ↔ name ≠ d.name ∧ name ∉ Registry.metamethods) ∧
      (Action.index (call Γ) (.userdata handle) (.string name) m'' = (.ok v, m'') ∨
        Action.index (call Γ) (.userdata handle) (.string name) m'' = (.error .overflow, m'') ∧ ¬m''.Fits 1) := by
  obtain ⟨m₀, m₁, t, bases, hmade, -, hinstalls, -, hm₁, hm', hgains, hreserved, hlater, -⟩ :=
    ClassDescriptor.exists_installs (hm.unshared hΓ) h
  obtain ⟨T, methods, reader, writer, finalizer, -, -, hT, ⟨n, hreader⟩, -, hequips⟩ := hinstalls.table
  obtain ⟨nw, hwriter⟩ := hequips.writer
  obtain ⟨nf, hfinalizer⟩ := hequips.finalizer
  obtain ⟨G, space, hG, hspaceName, ⟨hspace, hspace', hunnamed⟩, hS⟩ := hequips.space
  -- the function that the last code of the name has become
  rw [← last?_ofList, ← hdefs] at hlast
  obtain ⟨f, hf, hcode⟩ := (exists_last_method hequips.method name).2 code hlast
  have hne : f ≠ reader ∧ f ≠ writer ∧ f ≠ finalizer := by
    refine ⟨?_, ?_, ?_⟩ <;> rintro rfl
    · cases hcode.symm.trans hreader
    · cases hcode.symm.trans hwriter
    · cases hcode.symm.trans hfinalizer
  -- neither the later classes nor the wrapping touch the table of the class, the namespace and the functions
  have ht : m₁.Registered d.name t := (hinstalls.names d.name t).2 (Or.inl ⟨rfl, rfl⟩)
  have ht' := hgains.named _ hlater t ht
  obtain ⟨⟨u, hu, hclass⟩, hkept⟩ := hm'.wrap_registered hreserved ht' hwrap
  have hT'' : m''.heap.object? t = some (.table (ClassDescriptor.filled d.name T t methods reader writer finalizer)) := by
    refine hkept t _ (hgains.table hm₁ hlater ht hT) (hm'.registered _ t ht').1 (fun hr => ?_) nofun
    exact hreserved (hm'.single _ _ t ht' hr ▸ by decide)
  have hS'' : m''.heap.object? space = some (.table (Table.empty.putAll methods)) := by
    refine hkept space _ (hgains.kept space _ hspace hspace' (fun n _ => hunnamed n) hS) (hgains.registry ▸ hspace) (fun hr => ?_)
      nofun
    exact hunnamed _ (hgains.unnamed _ _ (Heap.contains_of_object? hS) hr)
  have hfunction : ∀ {s g}, m₁.heap.object? s = some (.function g) → m''.heap.object? s = some (.function g) := by
    intro s g hs
    have hs' := hgains.function hm₁ hs
    obtain ⟨hregistry, -, hnames⟩ := hm'.of_function hs'
    exact hkept s _ hs' hregistry (hnames _) nofun
  have hread : (ClassDescriptor.filled d.name T t methods reader writer finalizer).field Registry.readName = .function reader := by
    rw [ClassDescriptor.field_filled, if_neg (by decide), if_neg (by decide), if_pos rfl]
  refine ⟨f, space, _, _, m₁, hmade, ?_, hS'', ?_, ⟨_, hfunction hcode⟩,
    ClassDescriptor.field_filled_eq_iff hf hne.1 hne.2.1 hne.2.2,
    reads_class_field hu hclass hT'' hread (hfunction hreader) hshadow ?_⟩
  · simp only [globalField, rawField, Heap.table_eq_ok_iff.2 hG, hspaceName]
  · rw [Table.field_putAll, hf]
    rfl
  · rw [ClassDescriptor.field_filled, hf]
    split_ifs <;> exact Bool.false_ne_true

/-- The machine after a handle was made for the class whose names clash. -/
def afterClashingHandle : Machine Bool Unit := (Action.wrap 0x10 "D" afterClashing).2

/-- The handle has nothing in its shadow, and its machine leaves room for a call. -/
theorem handle_afterClashing :
    (Action.wrap 0x10 "D" afterClashing).1.toOption = some (.userdata ⟨22, 0⟩) ∧
      (Attribute.inShadow afterClashingHandle (.userdata ⟨22, 0⟩) (.string "run")).toOption = some .nil ∧
      (Attribute.inShadow afterClashingHandle (.userdata ⟨22, 0⟩) (.string "D")).toOption = some .nil ∧
      afterClashingHandle.Fits 1 ∧
      (Action.index (call quietHost) (.userdata ⟨22, 0⟩) (.string "D") afterClashingHandle).1.toOption =
        some (.boolean true) := by
  decide +kernel

theorem wrap_afterClashing : Action.wrap 0x10 "D" afterClashing = (.ok (.userdata ⟨22, 0⟩), afterClashingHandle) :=
  Action.eq_of_fst (eq_ok_of_toOption handle_afterClashing.1)

/-- The handle has the method that was given twice, with the code given last. -/
theorem method_read_afterClashing :
    ∃ f n, Action.index (call quietHost) (.userdata ⟨22, 0⟩) (.string "run") afterClashingHandle =
        (.ok (.function f), afterClashingHandle) ∧
      afterClashingHandle.heap.object? f = some (.function ⟨n, .host true, []⟩) := by
  obtain ⟨hwrap, hshadow, -, hfits, -⟩ := handle_afterClashing
  have hdefs : (⟨"D", .ofList clashingMethods, ["A"]⟩ : ClassDescriptor Bool).methods = .ofList clashingMethods := rfl
  have hsplit : ClassDescriptor.installAll ([⟨"A", .empty, []⟩] ++ ⟨"D", .ofList clashingMethods, ["A"]⟩ ::
      [⟨"__index", .empty, []⟩]) (.start .standard ()) = (.ok (), afterClashing) := installAll_clashing
  have hlast : clashingMethods.reverse.lookup "run" = some true := by decide
  obtain ⟨f, -, -, v, -, -, -, -, -, ⟨n, hf⟩, hv, hread⟩ :=
    method_read_iff lawful_quietHost (.start .standard ()) hsplit hdefs hlast wrap_afterClashing (eq_ok_of_toOption hshadow)
  obtain rfl := hv.2 (by decide)
  exact ⟨f, n, hread.resolve_right fun h => h.2 hfits, hf⟩

/-- That a new handle of an installed class with nothing in its shadow has every method of the class is false: the method with the
name of the class is lost. -/
theorem reads_every_method_false :
    ¬∀ (Γ : Host Bool Unit) (m m' m'' : Machine Bool Unit) (classes : List (ClassDescriptor Bool)) (d : ClassDescriptor Bool)
      (defs : List (String × Bool)) (name : String) (code : Bool) (a : Address) (handle : Ref),
      Γ.Lawful (Machine.Spares False) (Machine.Unshared False) → Reached Γ (Machine.Spares False) m →
      ClassDescriptor.installAll classes m = (.ok (), m') → d ∈ classes → d.methods = .ofList defs →
      defs.reverse.lookup name = some code → Action.wrap a d.name m' = (.ok (.userdata handle), m'') →
      Attribute.inShadow m'' (.userdata handle) (.string name) = .ok .nil → m''.Fits 1 →
      ∃ f n, Action.index (call Γ) (.userdata handle) (.string name) m'' = (.ok (.function f), m'') ∧
        m''.heap.object? f = some (.function ⟨n, .host code, []⟩) := by
  intro hall
  obtain ⟨-, -, hshadow, hfits, hmark⟩ := handle_afterClashing
  obtain ⟨f, n, hread, -⟩ := hall quietHost _ _ _ clashingClasses ⟨"D", .ofList clashingMethods, ["A"]⟩ clashingMethods "D" true
    0x10 ⟨22, 0⟩ lawful_quietHost (.start .standard ()) installAll_clashing (by decide) rfl (by decide) wrap_afterClashing
    (eq_ok_of_toOption hshadow) hfits
  have hlost : some (Value.function f) = some (.boolean true) :=
    (congrArg (fun r => r.1.toOption) hread).symm.trans hmark
  cases hlost

end ScriptHost

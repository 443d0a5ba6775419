import ScriptHost.Proofs.Installed
import ScriptHost.Proofs.Watched

/-!
# The namespaces of classes

Installing a class makes a new table that holds its methods and nothing else, and makes it the global with the name of the class,
without the marker of a class of pointers at the end. Nothing the binding layer does changes that table. But two classes whose names
differ by the marker alone have one name for their namespaces, and the check of a list looks at the names of classes only. So the
global is the namespace of the class that was installed last with that name (`namespace_of_last`), and a class has its namespace
as long as no class is installed after it whose name is its own with the marker added or taken off.
-/

namespace ScriptHost

variable {χ σ : Type} {closed : Prop}

open MethodTable

namespace ClassDescriptor

/-! ## Names of namespaces -/

/-- Only the marker is lost from the name of a class. -/
theorem eq_or_eq_push_namespaceName (name : String) :
    name = namespaceName name ∨ name = (namespaceName name).push Registry.pointerMarker := by
  unfold namespaceName
  split
  · rename_i hlast
    refine Or.inr (String.toList_inj.1 ?_)
    rw [String.toList_push, String.toList_ofList]
    exact (List.dropLast_append_getLast? _ hlast).symm
  · exact Or.inl rfl

/-- The names of classes whose namespaces have one name are the same, apart from a marker. -/
theorem eq_or_eq_push_of_namespaceName_eq {a b : String} (h : namespaceName a = namespaceName b) :
    a = b ∨ a = b.push Registry.pointerMarker ∨ b = a.push Registry.pointerMarker := by
  rcases eq_or_eq_push_namespaceName a with ha | ha <;> rcases eq_or_eq_push_namespaceName b with hb | hb
  · exact Or.inl (ha.trans (h.trans hb.symm))
  · exact Or.inr (Or.inr (hb.trans (by rw [← h, ← ha])))
  · exact Or.inr (Or.inl (ha.trans (by rw [h, ← hb])))
  · exact Or.inl (ha.trans (by rw [h, ← hb]))

/-- The class that has the namespace with the name of that of the first class after classes were installed: the last of them that
has one of this name. -/
def holder (d : ClassDescriptor χ) (classes : List (ClassDescriptor χ)) : ClassDescriptor χ :=
  classes.foldl (fun d c => if namespaceName c.name = namespaceName d.name then c else d) d

variable {d c : ClassDescriptor χ} {classes : List (ClassDescriptor χ)}

theorem holder_cons : d.holder (c :: classes) =
    (if namespaceName c.name = namespaceName d.name then c else d).holder classes := rfl

theorem holder_append (classes' : List (ClassDescriptor χ)) :
    d.holder (classes ++ classes') = (d.holder classes).holder classes' := List.foldl_append

theorem namespaceName_holder : namespaceName (d.holder classes).name = namespaceName d.name := by
  induction classes generalizing d with
  | nil => rfl
  | cons c rest ih =>
    rw [holder_cons, ih]
    split
    · assumption
    · rfl

/-- A class keeps its namespace where no class comes whose name is its own with the marker added or taken off. -/
theorem holder_eq_self (h : ∀ c ∈ classes, c.name ≠ d.name ∧ c.name ≠ d.name.push Registry.pointerMarker ∧
    d.name ≠ c.name.push Registry.pointerMarker) : d.holder classes = d := by
  induction classes with
  | nil => rfl
  | cons c rest ih =>
    obtain ⟨⟨hne, hadded, htaken⟩, hrest⟩ := List.forall_mem_cons.1 h
    rw [holder_cons, if_neg, ih hrest]
    exact fun hname => (eq_or_eq_push_of_namespaceName_eq hname).elim hne fun hmarked => hmarked.elim hadded htaken

end ClassDescriptor

/-- The classes that an event installs, if it succeeds. -/
def Event.installs : Event χ σ → List (ClassDescriptor χ)
  | .ask (.installClasses classes) => classes
  | _ => []

namespace Machine

open ClassDescriptor

/-- The table is the namespace of a class: it has no metatable, under the name of each method the function that was made for it last,
and nothing under any other key. -/
def IsNamespace (m : Machine χ σ) (d : ClassDescriptor χ) (t : Ref) : Prop :=
  ∃ T, m.heap.object? t = some (.table T) ∧ T.metatable = none ∧
    (∀ name code, last? d.methods.entries name = some code → ∃ f, T.field name = .function f ∧
      m.heap.object? f = some (.function ⟨d.name ++ "." ++ name, .host code, []⟩)) ∧
    ∀ k, (∀ name, k = .string name → last? d.methods.entries name = none) → T.get k = .nil

/-- The global with the name of the namespace of a class is its namespace, and no name of the registry leads to it. -/
structure Presents (m : Machine χ σ) (d : ClassDescriptor χ) (t : Ref) : Prop where
  field : ∃ G, m.heap.object? m.globals = some (.table G) ∧ G.field (namespaceName d.name) = .table t
  space : m.IsNamespace d t
  apart : t ≠ m.registry ∧ t ≠ m.globals ∧ ∀ n, ¬m.Registered n t

/-- An event leaves the namespace with a name to the binding layer: what it installs it installs with success, it writes neither the
globals nor the table that is the global of the name by hand, and a collection finds globals that hold nothing weakly. -/
structure Respects (m : Machine χ σ) (name : String) (e : Event χ σ) : Prop where
  installs : ∀ classes, e = .ask (.installClasses classes) → (installAll classes m).1 = .ok ()
  untouched : ∀ t, t = m.globals ∨ m.globalField name = .ok (.table t) → e.written? m t = none ∧ ¬e.Reclasses t
  strong : e = .sweep → ¬m.HoldsWeakly m.globals

variable {m m' : Machine χ σ} {d c : ClassDescriptor χ} {t cls : Ref} {bases : List Ref} {e : Event χ σ}

theorem Presents.globalField (h : m.Presents d t) : m.globalField (namespaceName d.name) = .ok (.table t) := by
  obtain ⟨G, hG, ht⟩ := h.field
  simp only [Machine.globalField, rawField, Heap.table_eq_ok_iff.2 hG, ht]

/-- A class that was installed has its namespace. -/
theorem Installs.presents (h : m.Installs m' d cls bases) : ∃ t, m'.Presents d t := by
  obtain ⟨_, methods, _, _, _, -, -, -, -, -, hequips⟩ := h.table
  obtain ⟨G, t, hG, ht, hapart, hT⟩ := hequips.space
  refine ⟨t, ⟨G, hG, ht⟩, ⟨_, hT, ?_, fun name code hlast => ?_, fun k hk => ?_⟩, hapart⟩
  · have hputs : ∀ (T : Table) (methods : List (String × Ref)), (T.putAll methods).metatable = T.metatable := by
      intro T methods
      induction methods generalizing T with
      | nil => rfl
      | cons e rest ih => exact (ih _).trans (Table.metatable_set T _ _)
    exact hputs .empty methods
  · obtain ⟨f, hf, hobject⟩ := (exists_last_method hequips.method name).2 code hlast
    refine ⟨f, ?_, hobject⟩
    rw [Table.field_putAll, hf]
    rfl
  · rcases Table.get_putAll .empty methods k with ⟨e, he, rfl, -⟩ | ⟨-, hget⟩
    · have hnone := (exists_last_method hequips.method e.1).1 (hk e.1 rfl)
      obtain ⟨f, hf⟩ := exists_last? ⟨e, he, rfl⟩
      cases hnone.symm.trans hf
    · rw [hget]
      rfl

/-- Edits that spare the globals under the name, and the namespace, leave a class with its namespace. -/
theorem Presents.edits (hm : m.Unshared False) (h : m.Presents d t) (hedits : Relation.ReflTransGen (Edit False) m m')
    (hglobals : m.Spared ⟨m.globals, m.globals, fun _ => True, fun k => k ≠ .string (namespaceName d.name)⟩ m')
    (hspace : m.Spared ⟨t, m.globals, fun _ => True, fun _ => False⟩ m') : m'.Presents d t := by
  obtain ⟨⟨G, hG, ht⟩, ⟨T, hT, hmt, hmethod, hnone⟩, hne, hne', hnames⟩ := h
  have hcontains := Heap.contains_of_object? hT
  obtain ⟨-, hregistry, hglobals', -, hnames'⟩ := hm.lasts_edits
    (K := fun m' => m'.registry = m.registry ∧ m'.globals = m.globals ∧ m'.heap.contains t = true ∧ ∀ n, ¬m'.Registered n t)
    (fun _ _ _ hedit ⟨hr, hg, hc, hn⟩ => ⟨hedit.registry.trans hr, hedit.globals.trans hg, hedit.contains hc, fun n hr' =>
      (hedit.registered_of hr').elim (hn n) fun hnew => hnew.1 hc⟩) hedits ⟨rfl, rfl, hcontains, hnames⟩
  obtain ⟨G', hG', hagrees⟩ := hglobals G hG
  obtain ⟨T', hT', hmt', hget⟩ := hspace T hT
  refine ⟨⟨G', hglobals' ▸ hG', (hagrees.2 _ fun h => h rfl).trans ht⟩, ⟨T', hT', hmt'.trans hmt, fun name code hlast => ?_,
    fun k hk => (hget k id).trans (hnone k hk)⟩, hregistry ▸ hne, hglobals' ▸ hne', hnames'⟩
  obtain ⟨f, hf, hobject⟩ := hmethod name code hlast
  exact ⟨f, (hget _ id).trans hf, hm.function_edits hobject hedits⟩

/-- The globals and a namespace can be watched. -/
theorem Presents.watched (hm : m.Unshared closed) (h : m.Presents d t) (free : Key → Prop) :
    m.Watched ⟨m.globals, m.globals, fun _ => True, free⟩ ∧ m.Watched ⟨t, m.globals, fun _ => True, fun _ => False⟩ := by
  obtain ⟨-, ⟨T, hT, -⟩, hne, -, hnames⟩ := h
  obtain ⟨hne', hnames', hG⟩ := hm.globals
  exact ⟨hm.watched hG hne' (fun n _ => hnames' n) free, hm.watched ⟨T, hT⟩ hne (fun n _ => hnames n) _⟩

/-! ## Class after class -/

/-- A class that is installed has its namespace, and takes the name of no other. -/
theorem Presents.install (hm : m.Unshared False) (h : m.Presents d t) (hself : ∀ b ∈ c.bases, b ≠ c.name)
    (hc : c.install m = (.ok (), m')) :
    m'.Unshared False ∧ ∃ t', m'.Presents (if namespaceName c.name = namespaceName d.name then c else d) t' := by
  rcases hm.install_cases hself with ⟨cls, bases, m₁, hdone, hinstalls, -⟩ | ⟨b, m₁, hfail, -⟩
  · cases hc.symm.trans hdone
    refine ⟨hinstalls.unshared hm, ?_⟩
    split
    · exact hinstalls.presents
    · rename_i hname
      have hedits := (Action.keeps_install id c m hm openAll_nil).2.1
      obtain ⟨hwatched, hwatched'⟩ := h.watched hm fun k => k ≠ .string (namespaceName d.name)
      have hglobals := hwatched.spared_install trivial fun _ e => hname (Key.string.inj e)
      have hspace := hwatched'.spared_install (d := c) trivial fun e => (h.apart.2.1 e.symm).elim
      rw [hc] at hedits hglobals hspace
      exact ⟨t, h.edits hm hedits hglobals hspace⟩
  · cases hc.symm.trans hfail

theorem Presents.installEach (hm : m.Unshared False) (h : m.Presents d t) {classes : List (ClassDescriptor χ)}
    (hself : ∀ c ∈ classes, ∀ b ∈ c.bases, b ≠ c.name) (hc : installEach classes m = (.ok (), m')) :
    ∃ t', m'.Presents (d.holder classes) t' := by
  induction classes generalizing m d t with
  | nil =>
    cases hc
    exact ⟨t, h⟩
  | cons c rest ih =>
    obtain ⟨hself, hrest⟩ := List.forall_mem_cons.1 hself
    obtain ⟨_, m₁, hinstall, hc⟩ := Action.exists_of_bind_eq_ok hc
    obtain ⟨hm₁, t₁, h₁⟩ := h.install hm hself hinstall
    exact ih hm₁ h₁ hrest hc

/-- A list of classes that is installed was checked. -/
theorem checked_of_installAll {classes : List (ClassDescriptor χ)} (h : (installAll classes m).1 = .ok ()) :
    m.checkClasses [] classes = .ok () ∧ ClassDescriptor.installEach classes m = (.ok (), (installAll classes m).2) := by
  cases hc : m.checkClasses [] classes with
  | error e =>
    rw [installAll_of_refused hc] at h
    cases h
  | ok _ => exact ⟨rfl, (installAll_of_checked hc).symm.trans (Action.eq_of_fst h)⟩

/-! ## Event after event -/

/-- A collection leaves the namespaces of globals that hold nothing weakly. -/
theorem Presents.swept (hm : m.Unshared closed) (h : m.Presents d t) (hstrong : ¬m.HoldsWeakly m.globals) : m.swept.Presents d t := by
  obtain ⟨⟨G, hG, ht⟩, ⟨T, hT, hmt, hmethod, hnone⟩, hne, hne', hnames⟩ := h
  have hmodes : ∀ letter, ¬m.heap.ModeSays G letter := fun letter hsays => hstrong ⟨G, letter, hG, hsays⟩
  have hglobals : m.Survives m.globals :=
    .root (Or.inl (.root (Or.inr (Or.inl rfl)) (Heap.contains_of_object? hG))) (Heap.contains_of_object? hG)
  have hentry : (.string (namespaceName d.name), .table t) ∈ G.entries := Table.mem_of_find? (Table.find?_of_get ht (by simp))
  have hsurvives : m.Survives t := hglobals.held (.value hG (hmodes 'v') hentry rfl) (Heap.contains_of_object? hT)
  have hG' := swept_table hglobals hG
  have hT' := swept_table hsurvives hT
  rw [remaining_of_strong hmodes, ← globals_swept] at hG'
  rw [remaining_of_metatable_none hmt] at hT'
  refine ⟨⟨G, hG', ht⟩, ⟨T, hT', hmt, fun name code hlast => ?_, hnone⟩, ?_⟩
  · obtain ⟨f, hf, hobject⟩ := hmethod name code hlast
    have hweak : ¬m.heap.ModeSays T 'v' := Heap.not_modeSays_of_metatable_none hmt 'v'
    have hentry : (.string name, .function f) ∈ T.entries := Table.mem_of_find? (Table.find?_of_get hf (by simp))
    exact ⟨f, hf, swept_function (hsurvives.held (.value hT hweak hentry rfl) (Heap.contains_of_object? hobject)) hobject⟩
  · simpa only [registry_swept, globals_swept, hm.swept_registered_iff] using And.intro hne ⟨hne', hnames⟩

/-- After an event the global is the namespace of the last class with its name. -/
theorem Presents.after (hm : m.Unshared False) (h : m.Presents d t) (he : m.Allows (Spares False) e)
    (hrespects : m.Respects (namespaceName d.name) e) : ∃ t', (m.after e).Presents (d.holder e.installs) t' := by
  by_cases hsweep : e = .sweep
  · subst hsweep
    exact ⟨t, h.swept hm (hrespects.strong rfl)⟩
  by_cases hinstall : ∃ classes, e = .ask (.installClasses classes)
  · obtain ⟨classes, rfl⟩ := hinstall
    obtain ⟨hc, hdone⟩ := checked_of_installAll (hrespects.installs classes rfl)
    exact h.installEach hm (fun c hin => (checked_of_mem hc hin).2.2) hdone
  · have hnone : e.installs = [] := by
      cases e with
      | ask r =>
        cases r with
        | installClasses classes => exact absurd ⟨classes, rfl⟩ hinstall
        | _ => rfl
      | _ => rfl
    rw [hnone]
    obtain ⟨hwatched, hwatched'⟩ := h.watched hm fun k => k ≠ .string (namespaceName d.name)
    have hsilent : ∀ r, e = .ask r → r.IsSilent := by
      rintro r rfl
      exact he.1
    have hspared : ∀ {W : Watch}, m.Watched W → (∀ n, W.foreign n) → W.table = m.globals ∨ W.table = t →
        m.Spared W (m.after e) := by
      intro W hW hforeign hor
      obtain ⟨hwrite, hclass⟩ := hrespects.untouched W.table (hor.imp_right fun ht => by rw [ht, h.globalField])
      exact hW.spared_after (fun n _ => hforeign n) hsilent hsweep hwrite hclass fun classes e => absurd ⟨classes, e⟩ hinstall
    exact ⟨t, h.edits hm (hm.edits_after he hsweep) (hspared hwatched (fun _ => trivial) (Or.inl rfl))
      (hspared hwatched' (fun _ => trivial) (Or.inr rfl))⟩

end Machine

open ClassDescriptor Machine

/-- After a course the global is the namespace of the last class with its name. -/
theorem Course.presents {m : Machine χ σ} {d : ClassDescriptor χ} {t : Ref} {es : List (Event χ σ)}
    (h : Course (Spares False) m es) (hm : m.Unshared False) (hd : m.Presents d t)
    (hes : m.AtEvents (fun m e => m.Respects (namespaceName d.name) e) es) :
    ∃ t', (m.follow es).Presents (d.holder (es.flatMap Event.installs)) t' := by
  induction es generalizing m d t with
  | nil => exact ⟨t, hd⟩
  | cons e es ih =>
    obtain ⟨hhead, htail⟩ := atEvents_cons.1 hes
    obtain ⟨t₁, h₁⟩ := hd.after hm h.1 hhead
    rw [List.flatMap_cons, holder_append]
    exact ih h.2 (hm.after h.1) h₁ (by rwa [namespaceName_holder])

/-- A class of a list that is installed has its namespace when the list is done, unless a later one of the list has it. -/
theorem Machine.presents_installAll {m m' : Machine χ σ} (hm : m.Unshared False) {earlier later : List (ClassDescriptor χ)}
    {d : ClassDescriptor χ} (h : installAll (earlier ++ d :: later) m = (.ok (), m')) :
    m'.Unshared False ∧ ∃ t, m'.Presents (d.holder later) t := by
  obtain ⟨m₀, m₁, cls, bases, hdone, -, hinstalls, -, hm₁, hm', -⟩ := exists_installs hm h
  obtain ⟨hc, hall⟩ := checked_of_installAll (congrArg Prod.fst h)
  have hlater : installEach later m₁ = (.ok (), m') := by
    rw [← installEach_append_of_ok hdone, List.append_assoc, List.singleton_append, hall, h]
  obtain ⟨t, ht⟩ := hinstalls.presents
  refine ⟨hm', ht.installEach hm₁ (fun c hc' => (checked_of_mem hc ?_).2.2) hlater⟩
  exact List.mem_append_right _ (List.mem_cons_of_mem _ hc')

/-- Take a course from a machine of a run in which native code leaves the names of the registry to the binding layer, an installing
of classes in it, and one of the classes. From there on every list of classes is installed with success, and nothing else writes the
globals or the namespace. Then at the end the global with the name of the namespace of the class is a table without a metatable that
holds exactly the methods of one class: of the last one with this name for its namespace. That is the class itself, if no class was
installed after it whose name is its own with the marker of a class of pointers added or taken off. -/
theorem namespace_of_last {Γ : Host χ σ} (hΓ : Γ.Lawful (Spares False) (Unshared False)) {m : Machine χ σ}
    (hm : Reached Γ (Spares False) m) {earlier later : List (ClassDescriptor χ)} {d : ClassDescriptor χ} {es₁ es₂ : List (Event χ σ)}
    (h : Course (Spares False) m (es₁ ++ .ask (.installClasses (earlier ++ d :: later)) :: es₂))
    (hes : (m.follow es₁).AtEvents (fun m e => m.Respects (namespaceName d.name) e)
      (.ask (.installClasses (earlier ++ d :: later)) :: es₂)) {m' : Machine χ σ}
    (hm' : m.follow (es₁ ++ .ask (.installClasses (earlier ++ d :: later)) :: es₂) = m') :
    (∃ space, m'.globalField (namespaceName d.name) = .ok (.table space) ∧
      m'.IsNamespace (d.holder (later ++ es₂.flatMap Event.installs)) space) ∧
    ((∀ c ∈ later ++ es₂.flatMap Event.installs, c.name ≠ d.name ∧ c.name ≠ d.name.push Registry.pointerMarker ∧
        d.name ≠ c.name.push Registry.pointerMarker) →
      d.holder (later ++ es₂.flatMap Event.installs) = d) := by
  refine ⟨?_, holder_eq_self⟩
  obtain ⟨h₁, hinstall, h₂⟩ := course_append.1 h
  have hm₁ := h₁.keep (fun _ _ hm he => hm.after he) (hm.unshared hΓ)
  obtain ⟨hhead, htail⟩ := atEvents_cons.1 hes
  obtain ⟨hm₂, t, ht⟩ := presents_installAll hm₁ (Action.eq_of_fst (hhead.installs _ rfl))
  obtain ⟨t', ht'⟩ := h₂.presents hm₂ ht (by rwa [namespaceName_holder])
  rw [← holder_append] at ht'
  have hfield := ht'.globalField
  rw [namespaceName_holder] at hfield
  rw [follow_append] at hm'
  subst hm'
  exact ⟨t', hfield, ht'.space⟩

/-- A class of pointers. -/
def pointerClass : ClassDescriptor Bool := ⟨"Foo*", .ofList [("a", false)], []⟩

/-- The class of what it points to. -/
def pointedClass : ClassDescriptor Bool := ⟨"Foo", .ofList [("b", true)], []⟩

/-- The two are installed, one after the other. -/
def installBoth : List (Event Bool Unit) := [.ask (.installClasses [pointerClass]), .ask (.installClasses [pointedClass])]

/-- A new machine after that and a collection. -/
def afterBoth : Machine Bool Unit := (Machine.start .standard ()).follow (installBoth ++ [.sweep])

theorem course_installBoth : Course (Spares False) (Machine.start .standard ()) (installBoth ++ [.sweep]) := by
  have hcollecting : ((Machine.start .standard ()).follow installBoth).collecting = false := by decide +kernel
  refine course_append.2 ⟨?_, hcollecting, trivial⟩
  exact ⟨⟨trivial, False.elim⟩, ⟨trivial, False.elim⟩, trivial⟩

/-- Both lists are installed with success, and nothing else is done to the globals. -/
theorem respects_installBoth (name : String) :
    (Machine.start .standard ()).AtEvents (fun m e => m.Respects name e) (installBoth ++ [.sweep]) := by
  have hinstall : ∀ {m : Machine Bool Unit} {classes : List (ClassDescriptor Bool)},
      (installAll classes m).1.toOption = some () → m.Respects name (.ask (.installClasses classes)) := by
    refine fun h => ⟨fun classes e => ?_, fun _ _ => ⟨rfl, id⟩, nofun⟩
    cases e
    exact eq_ok_of_toOption h
  have hbare : (((Machine.start .standard ()).follow installBoth).heap.table
      ((Machine.start .standard ()).follow installBoth).globals).toOption.map Table.metatable = some none := by
    decide +kernel
  refine atEvents_append.2 ⟨atEvents_cons.2 ⟨hinstall (by decide +kernel), atEvents_cons.2 ⟨hinstall (by decide +kernel),
    atEvents_nil⟩⟩, atEvents_cons.2 ⟨⟨nofun, fun _ _ => ⟨rfl, id⟩, fun _ => ?_⟩, atEvents_nil⟩⟩
  rintro ⟨G, letter, hG, mt, -, -, hmt, -⟩
  rw [Heap.table_eq_ok_iff.2 hG] at hbare
  cases (Option.some.inj hbare).symm.trans hmt

/-- After both the global is the namespace of the second. -/
theorem namespace_afterBoth :
    ∃ space, afterBoth.globalField "Foo" = .ok (.table space) ∧ afterBoth.IsNamespace pointedClass space := by
  have hcourse : Course (Spares False) (Machine.start .standard ()) ([] ++ .ask (.installClasses ([] ++ pointerClass :: [])) ::
      [.ask (.installClasses [pointedClass]), .sweep]) := course_installBoth
  obtain ⟨⟨space, hfield, hspace⟩, -⟩ := namespace_of_last lawful_quietHost (.start .standard ()) hcourse (respects_installBoth _) rfl
  have hname : namespaceName pointerClass.name = "Foo" := by decide +kernel
  have hholder : pointerClass.holder [pointedClass] = pointedClass := by decide +kernel
  rw [hname] at hfield
  exact ⟨space, hfield, hholder ▸ hspace⟩

/-- That every class that was installed keeps a namespace of its own is false: the class of what a pointer class points to takes
it. -/
theorem every_namespace_kept_false :
    ¬∀ es : List (Event Bool Unit), Course (Spares False) (Machine.start .standard ()) es →
      (∀ name, (Machine.start .standard ()).AtEvents (fun m e => m.Respects name e) es) →
      ∀ es₁ classes es₂, es = es₁ ++ .ask (.installClasses classes) :: es₂ → ∀ d ∈ classes,
        ∃ space, ((Machine.start .standard ()).follow es).globalField (namespaceName d.name) = .ok (.table space) ∧
          ((Machine.start .standard ()).follow es).IsNamespace d space := by
  intro hall
  obtain ⟨space, hfield, T, hT, -, hmethod, -⟩ := hall _ course_installBoth respects_installBoth [] [pointerClass] _ rfl
    pointerClass (by simp)
  obtain ⟨f, hf, -⟩ := hmethod "a" false (by decide +kernel)
  have hspace : afterBoth.globalField "Foo" = .ok (.table ⟨13, 0⟩) := eq_ok_of_toOption (by decide +kernel)
  have hname : namespaceName pointerClass.name = "Foo" := by decide +kernel
  rw [hname] at hfield
  cases hfield.symm.trans hspace
  have hnil : afterBoth.rawField ⟨13, 0⟩ "a" = .ok .nil := eq_ok_of_toOption (by decide +kernel)
  have hT' : afterBoth.heap.table ⟨13, 0⟩ = .ok T := Heap.table_eq_ok_iff.2 hT
  rw [rawField, hT'] at hnil
  cases hf.symm.trans (Except.ok.inj hnil)

end ScriptHost

import ScriptHost.Proofs.Installing

/-!
# When installing a list of classes fails

The check of a list looks at names: each base is installed, or comes earlier in the list. For a class with the name of a metamethod
that is not enough, because its metamethod takes the place of the `true` that says it is installed. Where each name has a table of
its own this is the only way in which a list that the check lets pass is refused after all, with the classes before it installed
(`refusal_changes_iff`).
-/

namespace ScriptHost

variable {χ σ : Type} {closed : Prop}

namespace Machine

variable {m m' m₀ : Machine χ σ} {d : ClassDescriptor χ} {listed : List String}

/-! ## The check -/

theorem checkBases_eq_ok_iff {name : String} {bases : List String} :
    m.checkBases listed name bases = .ok () ↔ ∀ b ∈ bases, b ≠ name ∧ (b ∈ listed ∨ m.isInstalled b = true) := by
  induction bases with
  | nil => simp [checkBases]
  | cons b rest ih =>
    unfold checkBases
    by_cases hb : b = name
    · simp [hb]
    · by_cases hin : (listed.contains b || m.isInstalled b) = true
      · rw [if_neg hb, if_pos hin, ih]
        simp_all
      · rw [if_neg hb, if_neg hin]
        simp_all

theorem checkClass_eq_ok_iff :
    m.checkClass listed d = .ok () ↔ d.name ≠ "" ∧ d.name ∉ Registry.reserved ∧ d.name ∉ listed ∧
      ¬m.isInstalled d.name = true ∧ ∀ b ∈ d.bases, b ≠ d.name ∧ (b ∈ listed ∨ m.isInstalled b = true) := by
  unfold checkClass
  rw [← checkBases_eq_ok_iff]
  by_cases h₁ : d.name = ""
  · simp [h₁]
  by_cases h₂ : d.name ∈ Registry.reserved
  · simp [h₁, h₂]
  by_cases h₃ : d.name ∈ listed
  · simp [h₁, h₂, h₃]
  by_cases h₄ : m.isInstalled d.name = true
  · simp [h₁, h₂, h₃, h₄]
  · simp [h₁, h₂, h₃, h₄]

theorem checkClasses_cons_eq_ok_iff {rest : List (ClassDescriptor χ)} :
    m.checkClasses listed (d :: rest) = .ok () ↔
      m.checkClass listed d = .ok () ∧ m.checkClasses (d.name :: listed) rest = .ok () := by
  rw [checkClasses]
  cases m.checkClass listed d <;> simp

/-! ## The tables of bases -/

/-- Bases have tables, in their order, if all of them are installed. -/
theorem baseTables_cases (m : Machine χ σ) (bases : List String) :
    (∃ ts, m.baseTables bases = .ok ts ∧ bases.map m.classTable? = ts.map some) ∨
      ∃ b ∈ bases, m.baseTables bases = .error (.missingBase b) ∧ ¬m.isInstalled b = true := by
  induction bases with
  | nil => exact Or.inl ⟨[], rfl, rfl⟩
  | cons b rest ih =>
    unfold baseTables
    cases hb : m.classTable? b with
    | none => exact Or.inr ⟨b, List.mem_cons_self, rfl, by simp [isInstalled, hb]⟩
    | some t =>
      rcases ih with ⟨ts, hts, hmap⟩ | ⟨c, hc, herror, hn⟩
      · exact Or.inl ⟨t :: ts, by simp [hts], by simp [hb, hmap]⟩
      · exact Or.inr ⟨c, List.mem_cons_of_mem _ hc, by simp [herror], hn⟩

/-- Without one of its bases a class is not completed. -/
theorem complete_of_missing {cls : Ref} {methods : List (String × Ref)} {b : String}
    (h : m.baseTables d.bases = .error (.missingBase b)) :
    d.complete cls methods m = (.error (.configuration d.name (.missingBase b)), m) := by
  show Action.bind (Action.query fun m => (m.baseTables d.bases).mapError (.configuration d.name)) _ m = _
  rw [Action.query_bind, h]
  rfl

/-- What a class comes to at its turn: it is installed with its bases, or one of them is not installed. -/
theorem Unshared.install_cases (hm : m.Unshared closed) (hself : ∀ b ∈ d.bases, b ≠ d.name) :
    (∃ cls bases m', d.install m = (.ok (), m') ∧ m.Installs m' d cls bases ∧
      d.bases.map m.classTable? = bases.map some) ∨
    ∃ b m', d.install m = (.error (.configuration d.name (.missingBase b)), m') ∧ b ∈ d.bases ∧
      ¬m.isInstalled b = true := by
  obtain ⟨cls, T, methods, m₁, hinstall, hfounds, hmethods, hgrown, hT⟩ := hm.exists_prepare d
  have hsame : ∀ b ∈ d.bases, m₁.classTable? b = m.classTable? b := fun b hb => hgrown.classTable? hm hfounds (hself b hb)
  rcases m₁.baseTables_cases d.bases with ⟨bases, hbases, hmap⟩ | ⟨b, hb, herror, hn⟩
  · obtain ⟨m', hcomplete, hinstalls⟩ := hgrown.exists_complete hm hfounds hmethods hT hbases
    exact Or.inl ⟨cls, bases, m', hinstall.trans hcomplete, hinstalls, (List.map_congr_left hsame).symm.trans hmap⟩
  · refine Or.inr ⟨b, m₁, hinstall.trans (complete_of_missing herror), hb, ?_⟩
    rwa [isInstalled, hsame b hb] at hn

/-! ## Class after class -/

/-- On the second machine the classes of the first are installed and those with the names listed, except the ones with the name of
a metamethod. -/
def Follows (m₀ : Machine χ σ) (listed : List String) (m : Machine χ σ) : Prop :=
  ∀ b, m.isInstalled b = true ↔ if b ∈ listed then b ∉ Registry.metamethods else m₀.isInstalled b = true

theorem follows_nil (m : Machine χ σ) : m.Follows [] m := fun b => by simp

theorem Follows.install {cls : Ref} {bases : List Ref} (h : m₀.Follows listed m) (hm : m.Unshared closed)
    (hinstalls : m.Installs m' d cls bases) : m₀.Follows (d.name :: listed) m' := by
  intro b
  rw [isInstalled, hinstalls.classTable? hm b]
  by_cases hb : b = d.name
  · subst hb
    by_cases hn : d.name ∈ Registry.metamethods <;> simp [hn]
  · simpa [hb, isInstalled] using h b

/-- A class that the check lets pass is not installed before its turn. -/
theorem Follows.classTable?_eq_none (h : m₀.Follows listed m) (hc : m₀.checkClass listed d = .ok ()) :
    m.classTable? d.name = none := by
  obtain ⟨-, -, hlisted, hnot, -⟩ := checkClass_eq_ok_iff.1 hc
  have hsame := h d.name
  rw [if_neg hlisted] at hsame
  rw [← Option.not_isSome_iff_eq_none]
  exact mt hsame.1 hnot

/-- A class that the check lets pass has its bases at its turn, unless one of them comes earlier and has the name of a
metamethod. -/
theorem Follows.bases_iff (h : m₀.Follows listed m) (hc : m₀.checkClass listed d = .ok ()) :
    (∀ b ∈ d.bases, m.isInstalled b = true) ↔ ¬∃ b ∈ d.bases, b ∈ Registry.metamethods ∧ b ∈ listed := by
  obtain ⟨-, -, -, -, hbases⟩ := checkClass_eq_ok_iff.1 hc
  constructor
  · rintro hall ⟨b, hb, hmeta, hlisted⟩
    have hi := (h b).1 (hall b hb)
    rw [if_pos hlisted] at hi
    exact hi hmeta
  · intro hnone b hb
    rw [h b]
    split
    · rename_i hlisted
      exact fun hmeta => hnone ⟨b, hb, hmeta, hlisted⟩
    · rename_i hlisted
      exact (hbases b hb).2.resolve_left hlisted

end Machine

namespace ClassDescriptor

/-- Some class of a list that comes after classes with the names listed has a base that comes before it and has the name of a
metamethod. -/
def LosesBase : List String → List (ClassDescriptor χ) → Prop
  | _, [] => False
  | listed, d :: rest => (∃ b ∈ d.bases, b ∈ Registry.metamethods ∧ b ∈ listed) ∨ LosesBase (d.name :: listed) rest

theorem losesBase_iff {listed : List String} {classes : List (ClassDescriptor χ)} :
    LosesBase listed classes ↔ ∃ earlier d later, classes = earlier ++ d :: later ∧
      ∃ b ∈ d.bases, b ∈ Registry.metamethods ∧ (b ∈ listed ∨ b ∈ earlier.map name) := by
  induction classes generalizing listed with
  | nil => simp [LosesBase]
  | cons d rest ih =>
    unfold LosesBase
    rw [ih]
    constructor
    · rintro (⟨b, hb, hmeta, hlisted⟩ | ⟨earlier, e, later, rfl, b, hb, hmeta, hin⟩)
      · exact ⟨[], d, rest, rfl, b, hb, hmeta, Or.inl hlisted⟩
      · refine ⟨d :: earlier, e, later, rfl, b, hb, hmeta, ?_⟩
        rcases hin with hin | hin
        · rcases List.mem_cons.1 hin with rfl | hin
          · exact Or.inr List.mem_cons_self
          · exact Or.inl hin
        · exact Or.inr (List.mem_cons_of_mem _ hin)
    · rintro ⟨earlier, e, later, heq, b, hb, hmeta, hin⟩
      cases earlier with
      | nil =>
        cases heq
        exact Or.inl ⟨b, hb, hmeta, hin.resolve_right (by simp)⟩
      | cons d' earlier =>
        cases heq
        refine Or.inr ⟨earlier, e, later, rfl, b, hb, hmeta, ?_⟩
        rcases hin with hin | hin
        · exact Or.inl (List.mem_cons_of_mem _ hin)
        · rcases List.mem_cons.1 hin with rfl | hin
          · exact Or.inl List.mem_cons_self
          · exact Or.inr hin

variable {m m₀ : Machine χ σ}

/-- A list that the check lets pass is installed, or a class of it loses a base. -/
theorem installEach_cases (hm : m.Unshared closed) {listed : List String} (hf : m₀.Follows listed m)
    {classes : List (ClassDescriptor χ)} (hc : m₀.checkClasses listed classes = .ok ()) :
    (∃ m', installEach classes m = (.ok (), m') ∧ ¬LosesBase listed classes) ∨
      ∃ name cause m', installEach classes m = (.error (.configuration name cause), m') ∧ LosesBase listed classes := by
  induction classes generalizing m listed with
  | nil => exact Or.inl ⟨m, rfl, id⟩
  | cons d rest ih =>
    obtain ⟨hd, hrest⟩ := Machine.checkClasses_cons_eq_ok_iff.1 hc
    have hbases := hf.bases_iff hd
    have hself : ∀ b ∈ d.bases, b ≠ d.name := fun b hb => ((Machine.checkClass_eq_ok_iff.1 hd).2.2.2.2 b hb).1
    rcases hm.install_cases hself with ⟨cls, bases, m', hinstall, hinstalls, hmap⟩ | ⟨b, m', hinstall, hb, hn⟩
    · have hall : ∀ b ∈ d.bases, m.isInstalled b = true := by
        intro b hb
        have hmem : m.classTable? b ∈ bases.map some := hmap ▸ List.mem_map_of_mem hb
        obtain ⟨t, -, ht⟩ := List.mem_map.1 hmem
        exact Machine.isInstalled_iff.2 ⟨t, ht.symm⟩
      have hnone := hbases.1 hall
      rcases ih (hinstalls.unshared hm) (hf.install hm hinstalls) hrest with ⟨m'', h, hl⟩ | ⟨name, cause, m'', h, hl⟩
      · exact Or.inl ⟨m'', (Action.bind_of_ok hinstall).trans h, not_or.2 ⟨hnone, hl⟩⟩
      · exact Or.inr ⟨name, cause, m'', (Action.bind_of_ok hinstall).trans h, Or.inr hl⟩
    · refine Or.inr ⟨d.name, .missingBase b, m', Action.bind_of_error hinstall, Or.inl ?_⟩
      exact Classical.byContradiction fun hnone => hn (hbases.2 hnone b hb)

/-- A list with a class that loses a base has classes before it, which are installed: there is a function that was not there. -/
theorem exists_new_of_losesBase (hm : m.Unshared False) {classes : List (ClassDescriptor χ)}
    (hc : m.checkClasses [] classes = .ok ()) (hl : LosesBase [] classes) :
    ∃ r, ¬m.heap.contains r = true ∧ (installEach classes m).2.heap.contains r = true := by
  cases classes with
  | nil => exact hl.elim
  | cons d rest =>
    obtain ⟨hd, -⟩ := Machine.checkClasses_cons_eq_ok_iff.1 hc
    have hbases := (Machine.follows_nil m).bases_iff hd
    have hself : ∀ b ∈ d.bases, b ≠ d.name := fun b hb => ((Machine.checkClass_eq_ok_iff.1 hd).2.2.2.2 b hb).1
    rcases hm.install_cases hself with ⟨cls, bases, m', hinstall, hinstalls, -⟩ | ⟨b, m', -, hb, hn⟩
    · obtain ⟨T, methods, reader, writer, finalizer, -, -, -, ⟨n, hreader⟩, hfresh, -⟩ := hinstalls.table
      refine ⟨reader, hfresh, ?_⟩
      have hrest : (Machine.edits False).Next m' (installEach rest m').2 :=
        (Action.keeps_installEach id rest m' (hinstalls.unshared hm) Machine.openAll_nil).2.1
      have hlasts : (Machine.edits False : Discipline χ σ).Lasts (fun m => m.heap.contains reader = true) :=
        Machine.lasts_of_edit fun _ _ h hk => h.contains hk
      have hafter := hlasts _ _ hrest (Heap.contains_of_object? hreader)
      have heq : installEach (d :: rest) m = installEach rest m' := Action.bind_of_ok hinstall
      rw [heq]
      exact hafter
    · exact absurd (hbases.2 (by simp) b hb) hn

end ClassDescriptor

/-! ## The refusal of a list -/

/-- A list that the check refuses leaves the machine as it is. -/
theorem installAll_of_refused {m : Machine χ σ} {classes : List (ClassDescriptor χ)} {e : Fault}
    (h : m.checkClasses [] classes = .error e) : ClassDescriptor.installAll classes m = (.error e, m) := by
  show Action.bind (Action.query fun m => m.checkClasses [] classes) _ m = _
  rw [Action.query_bind, h]

theorem installAll_of_checked {m : Machine χ σ} {classes : List (ClassDescriptor χ)} (h : m.checkClasses [] classes = .ok ()) :
    ClassDescriptor.installAll classes m = ClassDescriptor.installEach classes m := by
  show Action.bind (Action.query fun m => m.checkClasses [] classes) _ m = _
  rw [Action.query_bind, h]

/-- On every machine of a run in which native code leaves the names of the registry to the binding layer: a list of classes that
the check refuses leaves the machine as it is; and a configuration fault leaves another machine exactly if the check lets the
list pass and a class in it has a base that comes earlier in the list and has the name of a metamethod. -/
theorem refusal_changes_iff {Γ : Host χ σ} (hΓ : Γ.Lawful (Machine.Spares False) (Machine.Unshared False)) {m : Machine χ σ}
    (hm : Reached Γ (Machine.Spares False) m) (classes : List (ClassDescriptor χ)) :
    (∀ e, m.checkClasses [] classes = .error e → ClassDescriptor.installAll classes m = (.error e, m)) ∧
    ((∃ name cause m', ClassDescriptor.installAll classes m = (.error (.configuration name cause), m') ∧ m' ≠ m) ↔
      m.checkClasses [] classes = .ok () ∧ ∃ earlier d later, classes = earlier ++ d :: later ∧
        ∃ b ∈ d.bases, b ∈ Registry.metamethods ∧ b ∈ earlier.map ClassDescriptor.name) := by
  have hu := hm.unshared hΓ
  have hloses : ClassDescriptor.LosesBase [] classes ↔ _ := ClassDescriptor.losesBase_iff
  simp only [List.not_mem_nil, false_or] at hloses
  rw [← hloses]
  refine ⟨fun e h => installAll_of_refused h, ?_⟩
  cases hc : m.checkClasses [] classes with
  | error e =>
    refine ⟨?_, fun h => nomatch h.1⟩
    rintro ⟨name, cause, m', h, hne⟩
    rw [installAll_of_refused hc] at h
    cases h
    exact absurd rfl hne
  | ok u =>
    rw [installAll_of_checked hc]
    simp only [true_and]
    rcases ClassDescriptor.installEach_cases hu (Machine.follows_nil m) hc with ⟨m', h, hl⟩ | ⟨name, cause, m', h, hl⟩
    · rw [h]
      refine ⟨?_, fun h => absurd h hl⟩
      rintro ⟨name, cause, m'', h, -⟩
      cases h
    · refine ⟨fun _ => hl, fun _ => ⟨name, cause, m', h, ?_⟩⟩
      obtain ⟨r, hfresh, hr⟩ := ClassDescriptor.exists_new_of_losesBase hu hc hl
      rw [h] at hr
      rintro rfl
      exact hfresh hr

/-! ## A base with the name of a metamethod -/

/-- A host whose functions do nothing. -/
def idleHost : Host Unit Unit := fun _ _ => pure []

theorem lawful_idleHost {P : Machine Unit Unit → Request Unit Unit → Prop} {I : Machine Unit Unit → Prop} :
    idleHost.Lawful P I := fun _ _ _ _ _ _ _ _ _ => trivial

/-- A class with the name of a metamethod, and one that has it as a base. -/
def metamethodClass : ClassDescriptor Unit := ⟨"__index", .empty, []⟩

def derivedClass : ClassDescriptor Unit := ⟨"D", .empty, ["A", "__index"]⟩

/-- A new machine after a class was installed, and after a handle was made for one that is not. -/
def afterOneClass : Machine Unit Unit :=
  (Request.perform (call idleHost) (.wrap 0x10 "__index")
    (Request.perform (call idleHost) (.installClasses [⟨"A", .empty, []⟩]) (.start .standard ())).2).2

theorem reached_afterOneClass : Reached idleHost (Machine.Spares False) afterOneClass :=
  ((Reached.start .standard ()).request (.installClasses _) False.elim).request (.wrap _ _) trivial

/-- What a new machine is after the two classes were refused. -/
def afterRefusal : Machine Unit Unit :=
  (ClassDescriptor.installAll [metamethodClass, ⟨"D", .empty, ["__index"]⟩] (.start .standard ())).2

/-- The check lets the classes pass, but a new machine refuses them, and has more objects afterwards. -/
theorem passes_and_refused :
    (afterOneClass.checkClasses [] [metamethodClass, derivedClass]).toOption = some () ∧
      faultOf? (ClassDescriptor.installAll [metamethodClass, (⟨"D", .empty, ["__index"]⟩ : ClassDescriptor Unit)]
        (.start .standard () : Machine Unit Unit)).1 = some (.configuration "D" (.missingBase "__index")) ∧
      afterRefusal.heap.live ≠ (Machine.start .standard () : Machine Unit Unit).heap.live := by
  decide +kernel

/-- There the two classes are refused, and the machine is another one afterwards. -/
theorem refusal_changes_afterOneClass :
    ∃ name cause m', ClassDescriptor.installAll [metamethodClass, derivedClass] afterOneClass =
      (.error (.configuration name cause), m') ∧ m' ≠ afterOneClass :=
  (refusal_changes_iff lawful_idleHost reached_afterOneClass [metamethodClass, derivedClass]).2.2
    ⟨eq_ok_of_toOption passes_and_refused.1, [metamethodClass], derivedClass, [], rfl, "__index", by decide, by decide, by decide⟩

theorem installAll_afterRefusal :
    ClassDescriptor.installAll [metamethodClass, ⟨"D", .empty, ["__index"]⟩] (.start .standard ()) =
      (.error (.configuration "D" (.missingBase "__index")), afterRefusal) :=
  Action.eq_of_fst (eq_error_of_fault passes_and_refused.2.1)

/-- That a configuration fault leaves the machine as it is is false: a new machine is another one after it. -/
theorem refusal_harmless_false :
    ¬∀ (Γ : Host Unit Unit) (m m' : Machine Unit Unit) (classes : List (ClassDescriptor Unit)) (name : String)
      (cause : ClassCause), Γ.Lawful (Machine.Spares False) (Machine.Unshared False) →
      Reached Γ (Machine.Spares False) m →
      ClassDescriptor.installAll classes m = (.error (.configuration name cause), m') → m' = m := by
  intro hall
  have hsame := hall idleHost _ _ _ _ _ lawful_idleHost (.start .standard ()) installAll_afterRefusal
  exact passes_and_refused.2.2 (congrArg (fun m => m.heap.live) hsame)

end ScriptHost

import ScriptHost.Proofs.Isolation
import ScriptHost.Proofs.Namespaces

/-!
# Classes in batches

The check of a list asks of each name only whether it is taken (`Machine.Taken`): listed before, or installed. So a list may be cut
anywhere. What the check of the whole list finds listed, the check of the second part finds installed, once the first part is
(`Machine.Follows.taken_iff`). That needs names of classes that are not those of metamethods, because a class with such a name is
not found installed, and it needs a table of its own for each name of the registry, because a class may otherwise put a method in
the place of the `true` of another one.
-/

namespace ScriptHost

variable {χ σ : Type} {closed : Prop}

namespace Machine

variable {m m' m₀ : Machine χ σ} {listed listed' : List String} {d : ClassDescriptor χ}
  {classes earlier later : List (ClassDescriptor χ)}

/-! ## The check of a part of a list -/

/-- The name is that of a class: one listed before, or one that is installed. -/
def Taken (m : Machine χ σ) (listed : List String) (name : String) : Prop := name ∈ listed ∨ m.isInstalled name = true

theorem taken_cons {first name : String} : m.Taken (first :: listed) name ↔ name = first ∨ m.Taken listed name := by
  rw [Taken, List.mem_cons, or_assoc]
  rfl

/-- A class passes the check if its name is not taken, and those of its bases are. -/
theorem checkClass_eq_ok_iff_taken :
    m.checkClass listed d = .ok () ↔ d.name ≠ "" ∧ d.name ∉ Registry.reserved ∧ ¬m.Taken listed d.name ∧
      ∀ b ∈ d.bases, b ≠ d.name ∧ m.Taken listed b := by
  rw [checkClass_eq_ok_iff, Taken, not_or, and_assoc]
  rfl

/-- What a list comes to in the check depends on the names that are taken, whether they are listed or installed. -/
theorem checkClasses_eq_ok_congr (h : ∀ name, m.Taken listed name ↔ m'.Taken listed' name) :
    m.checkClasses listed classes = .ok () ↔ m'.checkClasses listed' classes = .ok () := by
  induction classes generalizing listed listed' with
  | nil => exact Iff.rfl
  | cons d rest ih =>
    have hrest : ∀ name, m.Taken (d.name :: listed) name ↔ m'.Taken (d.name :: listed') name := fun name => by
      rw [taken_cons, taken_cons, h]
    rw [checkClasses_cons_eq_ok_iff, checkClasses_cons_eq_ok_iff, ih hrest, checkClass_eq_ok_iff_taken,
      checkClass_eq_ok_iff_taken]
    simp only [h]

/-- A list passes the check if its first part does, and the second does with the names of the first listed before. -/
theorem checkClasses_append_eq_ok_iff :
    m.checkClasses listed (earlier ++ later) = .ok () ↔ m.checkClasses listed earlier = .ok () ∧
      m.checkClasses ((earlier.map ClassDescriptor.name).reverse ++ listed) later = .ok () := by
  induction earlier generalizing listed with
  | nil => exact (and_iff_right rfl).symm
  | cons d rest ih =>
    rw [List.cons_append, checkClasses_cons_eq_ok_iff, checkClasses_cons_eq_ok_iff, ih, and_assoc, List.map_cons,
      List.reverse_cons, List.append_assoc, List.singleton_append]

/-! ## What the first part leaves -/

/-- After classes that were installed one after the other, they are installed too, except those with the name of a metamethod. -/
theorem Follows.installEach (h : m₀.Follows listed m) (hm : m.Unshared closed)
    (hself : ∀ d ∈ classes, ∀ b ∈ d.bases, b ≠ d.name) (hdone : ClassDescriptor.installEach classes m = (.ok (), m')) :
    m₀.Follows ((classes.map ClassDescriptor.name).reverse ++ listed) m' := by
  induction classes generalizing m listed with
  | nil =>
    cases hdone
    exact h
  | cons d rest ih =>
    obtain ⟨hd, hrest⟩ := List.forall_mem_cons.1 hself
    obtain ⟨u, m₁, hinstall, hdone⟩ := Action.exists_of_bind_eq_ok hdone
    rcases hm.install_cases hd with ⟨cls, bases, m₂, hinstalled, hinstalls, -⟩ | ⟨b, m₂, hfail, -⟩
    · cases hinstall.symm.trans hinstalled
      have hall := ih (h.install hm hinstalls) (hinstalls.unshared hm) hrest hdone
      rwa [List.map_cons, List.reverse_cons, List.append_assoc]
    · cases hinstall.symm.trans hfail

/-- Where no name listed is that of a metamethod, the names taken before are those of the installed classes afterwards. -/
theorem Follows.taken_iff (h : m₀.Follows listed m) (hfree : ∀ name ∈ listed, name ∉ Registry.metamethods) (name : String) :
    m₀.Taken listed name ↔ m.Taken [] name := by
  rw [Taken, Taken, h name]
  by_cases hlisted : name ∈ listed
  · simp [hlisted, hfree name hlisted]
  · simp [hlisted]

/-! ## Lists that are cut -/

theorem installAll_eq_ok_iff :
    ClassDescriptor.installAll classes m = (.ok (), m') ↔
      m.checkClasses [] classes = .ok () ∧ ClassDescriptor.installEach classes m = (.ok (), m') := by
  constructor
  · intro h
    obtain ⟨hc, hdone⟩ := checked_of_installAll (congrArg Prod.fst h)
    rw [h] at hdone
    exact ⟨hc, hdone⟩
  · rintro ⟨hc, hdone⟩
    rw [installAll_of_checked hc, hdone]

/-- A list is installed at once as its two parts are one after the other. -/
theorem Unshared.installAll_append_iff (hm : m.Unshared closed) (hfree : ∀ d ∈ earlier, d.name ∉ Registry.metamethods) :
    ClassDescriptor.installAll (earlier ++ later) m = (.ok (), m') ↔
      ∃ m₁, ClassDescriptor.installAll earlier m = (.ok (), m₁) ∧ ClassDescriptor.installAll later m₁ = (.ok (), m') := by
  have hlisted : ∀ name ∈ (earlier.map ClassDescriptor.name).reverse ++ [], name ∉ Registry.metamethods := by
    simpa using hfree
  -- the check of the second part is the same with the first part listed as with it installed
  have hsame : ∀ m₁, m.checkClasses [] earlier = .ok () → ClassDescriptor.installEach earlier m = (.ok (), m₁) →
      (m.checkClasses ((earlier.map ClassDescriptor.name).reverse ++ []) later = .ok () ↔
        m₁.checkClasses [] later = .ok ()) := by
    intro m₁ hc hdone
    have hself : ∀ d ∈ earlier, ∀ b ∈ d.bases, b ≠ d.name := fun d hd => (ClassDescriptor.checked_of_mem hc hd).2.2
    exact checkClasses_eq_ok_congr (((follows_nil m).installEach hm hself hdone).taken_iff hlisted)
  simp only [installAll_eq_ok_iff, checkClasses_append_eq_ok_iff]
  constructor
  · rintro ⟨⟨hc, hlater⟩, hall⟩
    obtain ⟨m₁, hdone, hrest⟩ := ClassDescriptor.exists_of_installEach_append hall
    exact ⟨m₁, ⟨hc, hdone⟩, (hsame m₁ hc hdone).1 hlater, hrest⟩
  · rintro ⟨m₁, ⟨hc, hdone⟩, hlater, hrest⟩
    exact ⟨⟨hc, (hsame m₁ hc hdone).2 hlater⟩, (ClassDescriptor.installEach_append_of_ok hdone).trans hrest⟩

end Machine

/-! ## In runs -/

open Machine in
/-- On every machine of a run in which native code leaves the names of the registry to the binding layer: a list of classes is
installed with success exactly if its two parts are, one after the other, and the machine is the same then, wherever the list is
cut. No class of the first part may have the name of a metamethod. -/
theorem install_in_batches {Γ : Host χ σ} (hΓ : Γ.Lawful (Spares False) (Unshared False)) {m : Machine χ σ}
    (hm : Reached Γ (Spares False) m) {earlier later : List (ClassDescriptor χ)}
    (hfree : ∀ d ∈ earlier, d.name ∉ Registry.metamethods) (m' : Machine χ σ) :
    ClassDescriptor.installAll (earlier ++ later) m = (.ok (), m') ↔
      ∃ m₁, ClassDescriptor.installAll earlier m = (.ok (), m₁) ∧ ClassDescriptor.installAll later m₁ = (.ok (), m') :=
  (hm.unshared hΓ).installAll_append_iff hfree

/-- A class on one that is there, and a class on both. -/
def basedClass : ClassDescriptor Unit := ⟨"B", .ofList [("run", ())], ["A"]⟩

def twiceBasedClass : ClassDescriptor Unit := ⟨"C", .empty, ["B", "A"]⟩

/-- They are installed one after the other as they are together. -/
theorem install_in_batches_afterOneClass :
    ∃ m₁ m', ClassDescriptor.installAll [basedClass] afterOneClass = (.ok (), m₁) ∧
      ClassDescriptor.installAll [twiceBasedClass] m₁ = (.ok (), m') ∧
      ClassDescriptor.installAll [basedClass, twiceBasedClass] afterOneClass = (.ok (), m') := by
  have hall : (ClassDescriptor.installAll [basedClass, twiceBasedClass] afterOneClass).1.toOption = some () := by
    decide +kernel
  have hdone : ClassDescriptor.installAll ([basedClass] ++ [twiceBasedClass]) afterOneClass = _ :=
    Action.eq_of_fst (eq_ok_of_toOption hall)
  obtain ⟨m₁, hfirst, hsecond⟩ := (install_in_batches lawful_idleHost reached_afterOneClass (by decide) _).1 hdone
  exact ⟨m₁, _, hfirst, hsecond, hdone⟩

/-- The registry is made the environment of a handle, and so the table of a class gets a second name without being written. -/
def tableNamedTwice : List (Request Unit Unit) :=
  [.installClasses [⟨"B", .empty, []⟩], .wrap 0x10 "B", .setEnvironment ⟨9, 0⟩ (some ⟨0, 0⟩),
    .setIndex (.userdata ⟨9, 0⟩) (.string "A") (.table ⟨2, 0⟩)]

/-- A class with the second name, which puts a method in the place of the `true` of the first. -/
def uninstallingClass : ClassDescriptor Unit := ⟨"A", .ofList [("B", ())], []⟩

/-- It is not enough that native code writes neither the registry nor tables of classes by hand: after the class with the second
name the first may be installed again, while the two are refused together. -/
theorem install_in_batches_in_every_run_false :
    ¬∀ (requests : List (Request Unit Unit)) (earlier later : List (ClassDescriptor Unit)) (m' : Machine Unit Unit),
      (∀ r ∈ requests, (∀ t key v, r ≠ .rawSet t key v) ∧ ∀ t key, r ≠ .remove t key) →
      (∀ d ∈ earlier ++ later, d.name ∉ Registry.metamethods) →
      (ClassDescriptor.installAll (earlier ++ later) (Machine.requested requests) = (.ok (), m') ↔
        ∃ m₁, ClassDescriptor.installAll earlier (Machine.requested requests) = (.ok (), m₁) ∧
          ClassDescriptor.installAll later m₁ = (.ok (), m')) := by
  intro hall
  let m := Machine.requested tableNamedTwice
  let m₁ := (ClassDescriptor.installAll [uninstallingClass] m).2
  have hfirst : ClassDescriptor.installAll [uninstallingClass] m = (.ok (), m₁) :=
    Action.eq_of_fst (eq_ok_of_toOption (by decide +kernel))
  have hsecond : ClassDescriptor.installAll [⟨"B", .empty, []⟩] m₁ =
      (.ok (), (ClassDescriptor.installAll [⟨"B", .empty, []⟩] m₁).2) :=
    Action.eq_of_fst (eq_ok_of_toOption (by decide +kernel))
  have htogether := (hall tableNamedTwice [uninstallingClass] [⟨"B", .empty, []⟩] _ (by simp [tableNamedTwice]) (by decide)).2
    ⟨m₁, hfirst, hsecond⟩
  have hrefused : faultOf? (ClassDescriptor.installAll ([uninstallingClass] ++ [⟨"B", .empty, []⟩]) m).1 =
      some (.configuration "B" .alreadyInstalled) := by
    decide +kernel
  rw [htogether] at hrefused
  cases hrefused

end ScriptHost

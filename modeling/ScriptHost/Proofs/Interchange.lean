import ScriptHost.Proofs.Footprints
import ScriptHost.Proofs.Namespaces
import ScriptHost.Proofs.Roster

/-!
# Wrapping before and after installing

An address can be wrapped under the name of a class before the class is installed: wrapping makes a blank table under the name, and
installing fills the table it finds. `wrap_install_commute` says that the order does not matter, for whole lists of classes, but for
the names of the references made on the way.

Wrapping makes a handle and then asks for the table of the name, and that table may be what installing makes as well. So it is taken
out first. Wrapping comes to the same as making the table and then wrapping with it (`Machine.Unshared.exists_wrap_named`). Wrapping
with a table that is there commutes with installing a class (`Machine.Unshared.exists_install_wrapWith`) and so with installing a list
of them, by induction on the list. And a list that begins with the table made is the list as it was, as the table can be made before
each class that comes earlier in the list (`Machine.Unshared.exists_install_named`) until the class comes that would have made it.
-/

namespace ScriptHost

variable {χ σ : Type} {closed : Prop}

namespace ClassDescriptor

theorem quiet_installEach (classes : List (ClassDescriptor χ)) : (installEach classes : Action χ σ Unit).Quiet := by
  induction classes with
  | nil => exact Action.quiet_pure _
  | cons d rest ih => exact (Action.quiet_install d).bind fun _ => ih

end ClassDescriptor

namespace Machine

open ScriptHost.Action ClassDescriptor

variable {m n n' : Machine χ σ} {ρ : Equiv.Perm Ref} {a : Address} {cls t : Ref} {classes earlier later : List (ClassDescriptor χ)}
  {d : ClassDescriptor χ} {name : String}

/-! ## On renamed machines -/

/-- Answers renamed twice. -/
theorem map_rename_rename {ρ ρ' : Ref → Ref} (x : Except Fault Value) :
    (x.map (Value.rename ρ)).map (Value.rename ρ') = x.map (Value.rename (ρ' ∘ ρ)) := by
  cases x with
  | error e => rfl
  | ok v => exact congrArg Except.ok v.rename_rename

theorem renamed_dress (h : m.Renamed ρ n) (hm : m.heap.WellFormed) (hn : n.heap.WellFormed) (handle cls : Ref) :
    (dress handle cls m).2.Renamed ρ (dress (ρ handle) (ρ cls) n).2 ∧
      (dress (ρ handle) (ρ cls) n).1 = (dress handle cls m).1.map (Value.rename ρ) :=
  h.act hm hn (quiet_dress _ _) (quiet_dress _ _) (parallel_dress (K := fun _ => True) (S := .whole ρ m) handle cls trivial) trivial

theorem renamed_wrapWith (h : m.Renamed ρ n) (hm : m.heap.WellFormed) (hn : n.heap.WellFormed) (a : Address) (cls : Ref) :
    (wrapWith a cls m).2.Renamed ρ (wrapWith a (ρ cls) n).2 ∧
      (wrapWith a (ρ cls) n).1 = (wrapWith a cls m).1.map (Value.rename ρ) :=
  h.act hm hn (quiet_wrapWith _ _) (quiet_wrapWith _ _) (parallel_wrapWith (K := fun _ => True) (S := .whole ρ m) a cls id
    (fun _ => id) (fun _ => trivial) (fun _ _ _ => trivial) fun _ => trivial) trivial

theorem renamed_installEach (h : m.Renamed ρ n) (hm : m.heap.WellFormed) (hn : n.heap.WellFormed)
    (classes : List (ClassDescriptor χ)) : (installEach classes m).2.Renamed ρ (installEach classes n).2 ∧
      (installEach classes n).1 = (installEach classes m).1 := by
  have hparallel : ∀ K : Machine χ σ → Prop,
      Parallel (.whole ρ m) K (installEach classes : Action χ σ Unit) (installEach classes) id fun _ => True := by
    induction classes with
    | nil => exact fun K => parallel_pure rfl trivial
    | cons d rest ih =>
      intro K
      refine (parallel_install d id (fun _ _ _ => id) trivial trivial fun _ _ _ _ => ⟨fun _ => trivial, trivial⟩).bind fun _ _ => ?_
      exact ih _
  obtain ⟨hrenamed, hanswer⟩ := h.act hm hn (quiet_installEach classes) (quiet_installEach classes) (hparallel fun _ => True) trivial
  refine ⟨hrenamed, hanswer.trans ?_⟩
  cases (installEach classes m).1 <;> rfl

/-- After a class is installed the rest of a list does what it does on the machine renamed. -/
theorem Renamed.installEach_cons {p : Machine χ σ} {ρ' : Equiv.Perm Ref} (h : (d.install m).2.Renamed ρ n) (hm : m.heap.WellFormed)
    (hn : n.heap.WellFormed) (hdone : (d.install m).1 = .ok ()) (hrest : (ClassDescriptor.installEach later n).2.Renamed ρ' p)
    (hdone' : (ClassDescriptor.installEach later n).1 = .ok ()) :
    (ClassDescriptor.installEach (d :: later) m).2.Renamed (ρ.trans ρ') p ∧
      (ClassDescriptor.installEach (d :: later) m).1 = .ok () := by
  obtain ⟨hboth, hanswer⟩ := renamed_installEach h ((quiet_install d).wellFormed hm) hn later
  have hcons : ClassDescriptor.installEach (d :: later) m = ClassDescriptor.installEach later (d.install m).2 :=
    bind_of_ok (eq_of_fst hdone)
  rw [hcons]
  exact ⟨hboth.trans hrest, hanswer.symm.trans hdone'⟩

/-! ## The table of a name -/

/-- The table under a name is found where there is one. -/
theorem Unshared.metatableNamed_of_registered (hm : m.Unshared closed) (ht : m.Registered name t) :
    ∃ b, metatableNamed name m = (.ok (t, b), m) := by
  obtain ⟨R, hR, -⟩ := hm.registry
  obtain ⟨s, b, m', hnamed, ⟨rfl, hs⟩ | hregisters⟩ := exists_metatableNamed hm.wellFormed hR name
  · obtain rfl := hs.eq ht
    exact ⟨b, hnamed⟩
  · exact absurd ht (hregisters.unused t)

/-- Once the table of a name is there, each name still has a table of its own, and this one has that name. -/
theorem Unshared.exists_named (hm : m.Unshared closed) (hu : m.Unforged) (name : String) :
    ∃ cls b n, metatableNamed name m = (.ok (cls, b), n) ∧ n.Registered name cls ∧ n.Unshared closed ∧ n.Unforged ∧
      n.heap.Given cls ∧ (∀ s t, m.Registered s t → n.Registered s t) ∧
      (¬m.isInstalled name = true → ¬n.isInstalled name = true) := by
  obtain ⟨R, hR, -⟩ := hm.registry
  obtain ⟨cls, b, n, hnamed, hn⟩ := exists_metatableNamed hm.wellFormed hR name
  have hunshared := (keeps_metatableNamed name m hm openAll_nil).1
  have hsafe := (safe_metatableNamed name (D := m.heap.Given) (L := [])).unforged (quiet_metatableNamed name) hm.wellFormed hu
    (fun _ h => by cases h)
  rw [hnamed] at hunshared hsafe
  have hreg : n.Registered name cls := by
    rcases hn with ⟨rfl, h⟩ | h
    · exact h
    · exact (h.registered_iff name cls).2 (Or.inl ⟨rfl, rfl⟩)
  refine ⟨cls, b, n, hnamed, hreg, hunshared, hsafe.1, hsafe.2 _ rfl cls List.mem_cons_self, fun s t ht => ?_, fun hnot hin => ?_⟩
  · rcases hn with ⟨rfl, -⟩ | hregisters
    · exact ht
    · exact hregisters.registered ht
  rcases hn with ⟨rfl, -⟩ | hregisters
  · exact hnot hin
  · -- a blank table does not say that a class is installed
    obtain ⟨t, ht⟩ := isInstalled_iff.1 hin
    obtain ⟨R', hR', -⟩ := hunshared.registry
    obtain ⟨ht, T, hT, hmark⟩ := (classTable?_eq_some_iff hR').1 ht
    obtain rfl := ht.eq hreg
    cases hregisters.table.symm.trans hT
    rw [Table.field, Table.blank, Table.get_set] at hmark
    split at hmark <;> cases hmark

/-- Where the table of a name is there, wrapping under the name gives the handle that table. -/
theorem Unshared.wrap_eq_wrapWith (hm : m.Unshared closed) (ha : a ≠ Address.null) (hname : name ∉ Registry.reserved)
    (ht : m.Registered name t) : wrap a name m = wrapWith a t m := by
  obtain ⟨r, m₁, hensure, hm₁, -, hlasts, -⟩ := hm.exists_ensureHandle a
  obtain ⟨b, hnamed⟩ := hm₁.metatableNamed_of_registered (hlasts name t hname ht)
  have hwith : wrapWith a t m = dress r t m₁ := bind_of_ok hensure
  rw [wrap, if_neg ha, bind_of_ok hensure, bind_of_ok hnamed, hwith]
  rfl

/-- Wrapping makes the handle before the table of the name. Making the table first and wrapping with it comes to the same. -/
theorem Unshared.exists_wrap_named (hm : m.Unshared closed) (hu : m.Unforged) (ha : a ≠ Address.null)
    (hname : name ∉ Registry.reserved) {b : Bool} (hnamed : metatableNamed name m = (.ok (cls, b), n))
    (hcls : n.heap.Given cls) (hn : n.Unforged) :
    ∃ ρ : Equiv.Perm Ref, (∀ r, m.heap.Given r → ρ r = r) ∧ (wrap a name m).2.Renamed ρ (wrapWith a cls n).2 ∧
      (wrapWith a cls n).1 = (wrap a name m).1.map (Value.rename ρ) := by
  have hpointers : name ≠ Registry.pointers := fun e => hname (e ▸ by decide)
  obtain ⟨r, m₁, hensure, -⟩ := hm.exists_ensureHandle a
  have hsafe := (safe_ensureHandle a (D := m.heap.Given) (L := [])).unforged (quiet_ensureHandle a) hm.wellFormed hu
    (fun _ h => by cases h)
  have hsquare := hu.exists_square hm.wellFormed (confined_ensureHandle m a) (confined_metatableNamed m name) (quiet_ensureHandle a)
    (quiet_metatableNamed name) (plainKeys_handleWrites m a) (plainKeys_nameField m name) hsafe.1 (by rwa [hnamed])
    (fun s f h => ⟨not_nameField_of_handleWrites hpointers h, not_nameField_of_handleWrites hpointers h⟩)
    (fun s f h => not_handleReads_of_nameField hpointers h)
  rw [hensure, hnamed] at hsquare
  rw [hensure] at hsafe
  obtain ⟨ρ, hfix, hrenamed, ⟨ρ₁, hfirst, hρ₁⟩, ρ₂, hsecond, hρ₂⟩ := hsquare
  have hr : ρ₁ r = ρ r := hρ₁ r (hsafe.2 r rfl r List.mem_cons_self)
  have hwrap : wrap a name m = dress r (ρ₂ cls) (metatableNamed name m₁).2 := by
    rw [wrap, if_neg ha, bind_of_ok hensure, bind_of_ok (eq_of_fst hsecond)]
    rfl
  have hwith : wrapWith a cls n = dress (ρ r) cls (ensureHandle a n).2 := by
    rw [wrapWith, bind_of_ok (eq_of_fst hfirst), ← hr]
    rfl
  have hw₁ := (quiet_ensureHandle a).wellFormed hm.wellFormed
  have hwn := (quiet_metatableNamed name).wellFormed hm.wellFormed
  rw [hensure] at hw₁
  rw [hnamed] at hwn
  have hdress := renamed_dress hrenamed ((quiet_metatableNamed name).wellFormed hw₁) ((quiet_ensureHandle a).wellFormed hwn) r
    (ρ₂ cls)
  rw [hρ₂ cls hcls, ← hwrap, ← hwith] at hdress
  exact ⟨ρ, hfix, hdress⟩

/-! ## Class after class -/

theorem Unforged.install (hu : m.Unforged) (hw : m.heap.WellFormed) (d : ClassDescriptor χ) :
    (d.install m).2.Unforged :=
  ((safe_install d (D := m.heap.Given) (L := [])).unforged (quiet_install d) hw hu (fun _ h => by cases h)).1

theorem Unshared.install (hm : m.Unshared closed) (hself : ∀ b ∈ d.bases, b ≠ d.name) (h : d.install m = (.ok (), n)) :
    n.Unshared closed ∧ ∃ cls bases, m.Installs n d cls bases := by
  rcases hm.install_cases hself with ⟨cls, bases, n₁, hdone, hinstalls, -⟩ | ⟨b, n₁, hfail, -⟩
  · cases h.symm.trans hdone
    exact ⟨hinstalls.unshared hm, cls, bases, hinstalls⟩
  · cases h.symm.trans hfail

/-- Wrapping with a table and installing a class comes to the same in either order. -/
theorem Unshared.exists_install_wrapWith (hm : m.Unshared closed) (hu : m.Unforged) (hcls : m.heap.Given cls)
    (hname : d.name ≠ Registry.pointers) (hbases : Registry.pointers ∈ d.bases → ∃ t, m.Registered Registry.pointers t)
    (h : d.install m = (.ok (), n)) :
    ∃ ρ : Equiv.Perm Ref, (∀ r, m.heap.Given r → ρ r = r) ∧ (d.install (wrapWith a cls m).2).2.Renamed ρ (wrapWith a cls n).2 ∧
      (d.install (wrapWith a cls m).2).1 = .ok () ∧ (wrapWith a cls n).1 = (wrapWith a cls m).1.map (Value.rename ρ) := by
  have hw := hm.wellFormed
  have hsafe := (safe_wrapWith a cls (D := m.heap.Given) (L := [])).unforged (quiet_wrapWith a cls) hw hu (fun _ h => by cases h)
  have hsquare := hu.exists_square hw (confined_wrapWith m a hcls) (confined_install m d) (quiet_wrapWith a cls) (quiet_install d)
    (plainKeys_wrapWrites m a) (plainKeys_classWrites m d) hsafe.1 (hu.install hw d)
    (fun s f h => hm.not_class_of_wrapWrites hname hbases h) (fun s f h => hm.not_handleReads_of_classWrites hname h)
  rw [h] at hsquare
  obtain ⟨ρ, hfix, hrenamed, ⟨ρ₁, hfirst, hρ₁⟩, ρ₂, hsecond, -⟩ := hsquare
  refine ⟨ρ, hfix, hrenamed, hsecond, hfirst.trans ?_⟩
  cases hv : (wrapWith a cls m).1 with
  | error e => rfl
  | ok v => exact congrArg Except.ok (Value.rename_congr fun r hr => hρ₁ r (hsafe.2 v hv r hr))

/-- Wrapping with a table and then installing classes comes to the same as installing them first. -/
theorem Unshared.exists_installEach_wrapWith (hm : m.Unshared closed) (hu : m.Unforged) (hcls : m.heap.Given cls)
    (hclasses : ∀ d ∈ classes, d.name ≠ Registry.pointers ∧ (∀ b ∈ d.bases, b ≠ d.name) ∧
      (Registry.pointers ∈ d.bases → ∃ t, m.Registered Registry.pointers t))
    (h : installEach classes m = (.ok (), n)) :
    ∃ ρ : Equiv.Perm Ref, (∀ r, m.heap.Given r → ρ r = r) ∧
      (installEach classes (wrapWith a cls m).2).2.Renamed ρ (wrapWith a cls n).2 ∧
      (installEach classes (wrapWith a cls m).2).1 = .ok () ∧
      (wrapWith a cls n).1 = (wrapWith a cls m).1.map (Value.rename ρ) := by
  induction classes generalizing m with
  | nil =>
    cases h
    refine ⟨Equiv.refl Ref, fun _ _ => rfl, renamed_refl _, rfl, ?_⟩
    show (wrapWith a cls n).1 = (wrapWith a cls n).1.map (Value.rename id)
    cases (wrapWith a cls n).1 with
    | error e => rfl
    | ok v => exact congrArg Except.ok v.rename_id.symm
  | cons d rest ih =>
    obtain ⟨⟨hname, hself, hbases⟩, hrest⟩ := List.forall_mem_cons.1 hclasses
    obtain ⟨_, m₁, hinstall, h⟩ := exists_of_bind_eq_ok h
    obtain ⟨ρ, hfix, hrenamed, hdone, hanswer⟩ := hm.exists_install_wrapWith hu hcls hname hbases hinstall (a := a)
    obtain ⟨hm₁, cls', bases, hinstalls⟩ := hm.install hself hinstall
    have hu₁ := hu.install hm.wellFormed d
    have hgiven := fun r => (quiet_install d).given hm.wellFormed (m := m) (r := r)
    rw [hinstall] at hu₁ hgiven
    have hrest₁ : ∀ e ∈ rest, e.name ≠ Registry.pointers ∧ (∀ b ∈ e.bases, b ≠ e.name) ∧
        (Registry.pointers ∈ e.bases → ∃ t, m₁.Registered Registry.pointers t) := by
      intro e he
      obtain ⟨hname', hself', hbases'⟩ := hrest e he
      refine ⟨hname', hself', fun hb => ?_⟩
      obtain ⟨t, ht⟩ := hbases' hb
      exact ⟨t, (hinstalls.names _ t).2 (Or.inr ⟨hname.symm, ht⟩)⟩
    obtain ⟨ρ', hfix', hrenamed', hdone', hanswer'⟩ := ih hm₁ hu₁ (hgiven cls hcls) hrest₁ h
    obtain ⟨hlist, hok⟩ := hrenamed.installEach_cons ((quiet_wrapWith a cls).wellFormed hm.wellFormed)
      ((quiet_wrapWith a cls).wellFormed hm₁.wellFormed) hdone hrenamed' hdone'
    refine ⟨ρ.trans ρ', fun r hr => ?_, hlist, hok, ?_⟩
    · rw [Equiv.trans_apply, hfix r hr, hfix' r (hgiven r hr)]
    · rw [hanswer', hanswer, map_rename_rename]
      rfl

/-- A class finds its table where it is there already. -/
theorem Unshared.install_named (hm : m.Unshared closed) (hu : m.Unforged) {found : Ref × Bool}
    (hnamed : metatableNamed d.name m = (.ok found, n)) : d.install n = d.install m := by
  obtain ⟨cls, b, n', hnamed', hreg, hn, -⟩ := hm.exists_named hu d.name
  cases hnamed.symm.trans hnamed'
  obtain ⟨b', hagain⟩ := hn.metatableNamed_of_registered hreg
  rw [ClassDescriptor.install, bind_of_ok hagain, bind_of_ok hnamed]

/-- Making the table of a name and installing a class with another name, which has no base with the name, comes to the same in either
order. -/
theorem Unshared.exists_install_named {e : ClassDescriptor χ} (hm : m.Unshared closed) (hu : m.Unforged) (hne : name ≠ e.name)
    (hbases : name ∉ e.bases) {found : Ref × Bool} (hnamed : metatableNamed name m = (.ok found, n))
    (h : e.install m = (.ok (), n')) :
    ∃ ρ : Equiv.Perm Ref, (∀ r, m.heap.Given r → ρ r = r) ∧ (e.install n).2.Renamed ρ (metatableNamed name n').2 ∧
      (e.install n).1 = .ok () := by
  have hw := hm.wellFormed
  have hsafe := (safe_metatableNamed name (D := m.heap.Given) (L := [])).unforged (quiet_metatableNamed name) hw hu
    (fun _ h => by cases h)
  have hsquare := hu.exists_square hw (confined_metatableNamed m name) (confined_install m e) (quiet_metatableNamed name)
    (quiet_install e) (plainKeys_nameField m name) (plainKeys_classWrites m e) hsafe.1 (hu.install hw e)
    (fun r f h => ⟨not_classReads_of_nameField hne hbases h, hm.not_classWrites_of_nameField hne h⟩)
    (fun r f h hname => hm.not_classWrites_of_nameField hne hname h)
  rw [hnamed, h] at hsquare
  obtain ⟨ρ, hfix, hrenamed, -, ρ₂, hsecond, -⟩ := hsquare
  exact ⟨ρ, hfix, hrenamed, hsecond⟩

/-- Making the table under the name of a class before the classes that come earlier comes to the same as making it in its turn. -/
theorem Unshared.exists_installEach_named (hm : m.Unshared closed) (hu : m.Unforged)
    (hearlier : ∀ e ∈ earlier, d.name ≠ e.name ∧ d.name ∉ e.bases ∧ ∀ b ∈ e.bases, b ≠ e.name)
    (h : installEach (earlier ++ d :: later) m = (.ok (), n')) {found : Ref × Bool}
    (hnamed : metatableNamed d.name m = (.ok found, n)) :
    ∃ ρ : Equiv.Perm Ref, (∀ r, m.heap.Given r → ρ r = r) ∧ (installEach (earlier ++ d :: later) n).2.Renamed ρ n' ∧
      (installEach (earlier ++ d :: later) n).1 = .ok () := by
  induction earlier generalizing m n found with
  | nil =>
    obtain ⟨_, m₁, hinstall, hlater⟩ := exists_of_bind_eq_ok h
    have hsame : installEach ([] ++ d :: later) n = installEach later m₁ :=
      bind_of_ok ((hm.install_named hu hnamed).trans hinstall)
    rw [hsame, hlater]
    exact ⟨Equiv.refl Ref, fun _ _ => rfl, renamed_refl n', rfl⟩
  | cons e rest ih =>
    obtain ⟨⟨hne, hbases, hself⟩, hrest⟩ := List.forall_mem_cons.1 hearlier
    obtain ⟨_, m₁, hinstall, h⟩ := exists_of_bind_eq_ok h
    obtain ⟨ρ, hfix, hrenamed, hdone⟩ := hm.exists_install_named hu hne hbases hnamed hinstall
    obtain ⟨hm₁, -⟩ := hm.install hself hinstall
    have hu₁ := hu.install hm.wellFormed e
    have hgiven := fun r => (quiet_install e).given hm.wellFormed (m := m) (r := r)
    rw [hinstall] at hu₁ hgiven
    obtain ⟨cls, b, n₁, hnamed₁, -, hn₁, -⟩ := hm₁.exists_named hu₁ d.name
    rw [hnamed₁] at hrenamed
    obtain ⟨ρ', hfix', hrenamed', hdone'⟩ := ih hm₁ hu₁ hrest h hnamed₁
    have hwn := (quiet_metatableNamed d.name).wellFormed hm.wellFormed
    rw [hnamed] at hwn
    refine ⟨ρ.trans ρ', fun r hr => ?_, hrenamed.installEach_cons hwn hn₁.wellFormed hdone hrenamed' hdone'⟩
    rw [Equiv.trans_apply, hfix r hr, hfix' r (hgiven r hr)]

/-! ## Which classes are installed -/

theorem Renamed.isInstalled (h : m.Renamed ρ n) (hm : m.heap.WellFormed) (hn : n.heap.WellFormed) (name : String) :
    n.isInstalled name = m.isInstalled name := by
  unfold Machine.isInstalled
  rw [(h.tandem hm hn).classTable? fun _ => id]
  exact Option.isSome_map

/-- What a confined action does not write under a name does not decide which class is installed under it. -/
theorem Unforged.isInstalled_confined {α : Type} {x : Action χ σ α} {R W : Ref → Field → Prop} {ren : (Ref → Ref) → α → α}
    (hu : m.Unforged) (hw : m.heap.WellFormed) (hx : x.Confined R W ren m) (hq : x.Quiet) (hW : PlainKeys W)
    (hname : ∀ t, ¬W t (.entry (.string name))) : (x m).2.isInstalled name = m.isInstalled name := by
  obtain ⟨hw₁, c, hg⟩ := (hq m).exists_gives hw
  have htandem : m.Tandem (.past m hw c W fun _ _ => False) (x m).2 := hu.tandem_past hw hx hW hw₁ hg
  unfold Machine.isInstalled
  rw [htandem.classTable? fun t h => hname t h.2]
  exact Option.isSome_map

/-- Wrapping does not install a class, and leaves the other classes installed, unless one has the name of the table of handles and
that table is made. -/
theorem Unshared.isInstalled_wrap (hm : m.Unshared closed) (hu : m.Unforged) (ha : a ≠ Address.null)
    (hname : name ∉ Registry.reserved) (hnot : ¬m.isInstalled name = true) :
    ¬(wrap a name m).2.isInstalled name = true ∧ ∀ b, b ≠ name → (b = Registry.pointers → ∃ t, m.Registered b t) →
      (wrap a name m).2.isInstalled b = m.isInstalled b := by
  have hw := hm.wellFormed
  obtain ⟨cls, c, n, hnamed, -, hn, hun, hgiven, hkept, hnot'⟩ := hm.exists_named hu name
  obtain ⟨ρ, -, hrenamed, -⟩ := hm.exists_wrap_named hu ha hname hnamed hgiven hun
  have hwrap : ∀ b, (b = Registry.pointers → ∃ t, m.Registered b t) → (wrap a name m).2.isInstalled b = n.isInstalled b := by
    intro b hb
    rw [← hrenamed.isInstalled ((quiet_wrap a name).wellFormed hw) ((quiet_wrapWith a cls).wellFormed hn.wellFormed)]
    refine hun.isInstalled_confined hn.wellFormed (confined_wrapWith n a hgiven) (quiet_wrapWith a cls)
      (plainKeys_wrapWrites n a) ?_
    rintro t ((he | ⟨⟨-, he⟩, hnone⟩) | he)
    · cases he
    · cases he
      obtain ⟨t, ht⟩ := hb rfl
      exact hnone t (hkept _ t ht)
    · cases he
  refine ⟨?_, fun b hne hb => (hwrap b hb).trans ?_⟩
  · rw [hwrap name fun e => absurd (e ▸ by decide : name ∈ Registry.reserved) hname]
    exact hnot' hnot
  · have hspared : ∀ t, ¬m.nameField name t (.entry (.string b)) := by
      intro t h
      cases h.2
      exact hne rfl
    have hsame := hu.isInstalled_confined hw (confined_metatableNamed m name) (quiet_metatableNamed name)
      (plainKeys_nameField m name) hspared
    rwa [hnamed] at hsame

/-- A list of classes that was checked is checked again where none of them is installed and their bases are. -/
theorem checkClasses_of_isInstalled {listed : List String}
    (hnot : ∀ d ∈ classes, ¬m.isInstalled d.name = true → ¬n.isInstalled d.name = true)
    (hbases : ∀ d ∈ classes, ∀ b ∈ d.bases, m.isInstalled b = true → n.isInstalled b = true)
    (h : m.checkClasses listed classes = .ok ()) : n.checkClasses listed classes = .ok () := by
  induction classes generalizing listed with
  | nil => rfl
  | cons d rest ih =>
    obtain ⟨hnot, hnot'⟩ := List.forall_mem_cons.1 hnot
    obtain ⟨hbases, hbases'⟩ := List.forall_mem_cons.1 hbases
    obtain ⟨hcheck, hrest⟩ := checkClasses_cons_eq_ok_iff.1 h
    obtain ⟨hempty, hreserved, hlisted, hfree, hbased⟩ := checkClass_eq_ok_iff.1 hcheck
    refine checkClasses_cons_eq_ok_iff.2 ⟨checkClass_eq_ok_iff.2 ⟨hempty, hreserved, hlisted, hnot hfree, fun b hb => ?_⟩,
      ih hnot' hbases' hrest⟩
    obtain ⟨hne, hin⟩ := hbased b hb
    exact ⟨hne, hin.imp_right (hbases b hb)⟩

theorem Unshared.registered_of_isInstalled (hm : m.Unshared closed) (h : m.isInstalled name = true) : ∃ t, m.Registered name t := by
  obtain ⟨R, hR, -⟩ := hm.registry
  obtain ⟨t, ht⟩ := isInstalled_iff.1 h
  exact ⟨t, ((classTable?_eq_some_iff hR).1 ht).1⟩

/-- A list of classes passes its check after an address is wrapped under the name of one of them. -/
theorem Unshared.checkClasses_wrap (hm : m.Unshared closed) (hu : m.Unforged) (ha : a ≠ Address.null) (hd : d ∈ classes)
    (h : m.checkClasses [] classes = .ok ()) : (wrap a d.name m).2.checkClasses [] classes = .ok () := by
  have hreserved : ∀ e ∈ classes, e.name ∉ Registry.reserved := by
    intro e he
    obtain ⟨earlier, later, rfl⟩ := List.append_of_mem he
    exact (checked_of_split h).1
  obtain ⟨hnot, hother⟩ := hm.isInstalled_wrap hu ha (hreserved d hd) (checked_of_mem h hd).2.1
  refine checkClasses_of_isInstalled (fun e he hfree => ?_) (fun e he b hb hin => ?_) h
  · by_cases hname : e.name = d.name
    · rwa [hname]
    · rwa [hother e.name hname fun hp => absurd (hp ▸ by decide : e.name ∈ Registry.reserved) (hreserved e he)]
  · have hne : b ≠ d.name := fun hname => (checked_of_mem h hd).2.1 (hname ▸ hin)
    rwa [hother b hne fun _ => hm.registered_of_isInstalled hin]

/-- The names of what was checked: no class before one in the list has its name or has it for a base. -/
theorem checked_before {listed : List String} (h : m.checkClasses listed (earlier ++ d :: later) = .ok ()) :
    ∀ e ∈ earlier, d.name ≠ e.name ∧ d.name ∉ e.bases ∧ ∀ b ∈ e.bases, b ≠ e.name := by
  intro e he
  have hself := (checked_of_mem h (List.mem_append_left _ he)).2.2
  obtain ⟨first, second, rfl⟩ := List.append_of_mem he
  rw [List.append_assoc, List.cons_append] at h
  obtain ⟨-, hname, hbases⟩ := checked_of_split h
  have hin : d.name ∈ (second ++ d :: later).map ClassDescriptor.name := by simp
  exact ⟨fun hsame => hname (hsame ▸ hin), fun hb => hbases _ hb hin, hself⟩

theorem ne_pointers_of_checked {listed : List String} (h : m.checkClasses listed classes = .ok ()) (hd : d ∈ classes) :
    d.name ≠ Registry.pointers := by
  obtain ⟨earlier, later, rfl⟩ := List.append_of_mem hd
  intro hp
  exact (checked_of_split h).1 (hp ▸ by decide)

/-- A base of what was checked is listed or installed. -/
theorem based_of_checked {listed : List String} (h : m.checkClasses listed classes = .ok ()) (hd : d ∈ classes) {b : String}
    (hb : b ∈ d.bases) : b ∈ listed ∨ b ∈ classes.map ClassDescriptor.name ∨ m.isInstalled b = true := by
  induction classes generalizing listed with
  | nil => cases hd
  | cons e rest ih =>
    obtain ⟨he, hrest⟩ := checkClasses_cons_eq_ok_iff.1 h
    rcases List.mem_cons.1 hd with rfl | hd
    · exact ((checkClass_eq_ok_iff.1 he).2.2.2.2 b hb).2.imp_right Or.inr
    · have hbased := ih hrest hd
      simp only [List.mem_cons, List.map_cons] at hbased ⊢
      tauto

/-- Wrapping an address under the name of a class and then installing a list with the class, and installing the list first, come to
the same. -/
theorem Unshared.exists_wrap_installAll (hm : m.Unshared False) (hu : m.Unforged) (ha : a ≠ Address.null) (hd : d ∈ classes)
    (h : installAll classes m = (.ok (), n)) :
    ∃ ρ : Equiv.Perm Ref, (∀ r, m.heap.Given r → ρ r = r) ∧ (installAll classes (wrap a d.name m).2).1 = .ok () ∧
      (wrap a d.name n).1 = (wrap a d.name m).1.map (Value.rename ρ) ∧
      (installAll classes (wrap a d.name m).2).2.Renamed ρ (wrap a d.name n).2 := by
  have hw := hm.wellFormed
  obtain ⟨hc, hdone⟩ := checked_of_installAll (congrArg Prod.fst h)
  rw [h] at hdone
  rw [installAll_of_checked (hm.checkClasses_wrap hu ha hd hc)]
  obtain ⟨earlier, later, rfl⟩ := List.append_of_mem hd
  have hname := (checked_of_split hc).1
  -- the table of the class is made first of all
  obtain ⟨cls, b, m₁, hnamed, hreg, hm₁, hu₁, hcls, hkept, -⟩ := hm.exists_named hu d.name
  have hgiven := fun r => (quiet_metatableNamed d.name).given hw (m := m) (r := r)
  rw [hnamed] at hgiven
  obtain ⟨ρ₁, hfix₁, hwrap, hanswer₁⟩ := hm.exists_wrap_named hu ha hname hnamed hcls hu₁
  obtain ⟨ρ₃, hfix₃, hinstall, hdone₁⟩ := hm.exists_installEach_named hu (checked_before hc) hdone hnamed
  obtain ⟨n₁, hn₁⟩ : ∃ n₁, n₁ = (installEach (earlier ++ d :: later) m₁).2 := ⟨_, rfl⟩
  have hlisted : ∀ e ∈ earlier ++ d :: later, e.name ≠ Registry.pointers ∧ (∀ b ∈ e.bases, b ≠ e.name) ∧
      (Registry.pointers ∈ e.bases → ∃ t, m₁.Registered Registry.pointers t) := by
    intro e he
    refine ⟨ne_pointers_of_checked hc he, (checked_of_mem hc he).2.2, fun hb => ?_⟩
    rcases based_of_checked hc he hb with hin | hin | hin
    · cases hin
    · obtain ⟨e', he', hp⟩ := List.mem_map.1 hin
      exact absurd hp (ne_pointers_of_checked hc he')
    · exact (hm.registered_of_isInstalled hin).imp fun t => hkept _ t
  obtain ⟨ρ₂, hfix₂, hboth, hdone₂, hanswer₂⟩ :=
    hm₁.exists_installEach_wrapWith hu₁ hcls hlisted (hn₁ ▸ Action.eq_of_fst hdone₁) (a := a)
  have hafter := (keeps_installEach id (earlier ++ d :: later) m₁ hm₁ openAll_nil).2.1
  have hlasts : (edits False : Discipline χ σ).Lasts fun m => m.Registered d.name cls :=
    lasts_of_edit fun _ _ h hk => h.registered hname hk
  have hreg₁ := hinstall.registered (hlasts _ _ hafter hreg)
  have hm' := (keeps_installEach id (earlier ++ d :: later) m hm openAll_nil).1
  rw [hdone] at hm'
  have hsame : wrap a d.name n = wrapWith a (ρ₃ cls) n := hm'.wrap_eq_wrapWith ha hname hreg₁
  have hwell := (quiet_wrap a d.name).wellFormed hw
  have hwell₁ := (quiet_wrapWith a cls).wellFormed hm₁.wellFormed
  obtain ⟨h₁, he₁⟩ := renamed_installEach hwrap hwell hwell₁ (earlier ++ d :: later)
  rw [← hn₁] at hinstall
  obtain ⟨h₃, he₃⟩ := renamed_wrapWith hinstall (hn₁ ▸ (quiet_installEach _).wellFormed hm₁.wellFormed) hm'.wellFormed a cls
  rw [← hsame] at h₃ he₃
  refine ⟨(ρ₁.trans ρ₂).trans ρ₃, fun r hr => ?_, he₁.symm.trans hdone₂, ?_, (h₁.trans hboth).trans h₃⟩
  · simp only [Equiv.trans_apply, hfix₁ r hr, hfix₂ r (hgiven r hr), hfix₃ r hr]
  · rw [he₃, hanswer₂, hanswer₁, map_rename_rename, map_rename_rename]
    rfl

/-! ## When wrapping succeeds -/

/-- Asking for the handle of an address gives what is listed for it, and a new userdata where nothing is. -/
theorem Unshared.ensureHandle_cases (hm : m.Unshared closed) (a : Address) : ∃ r m', ensureHandle a m = (.ok r, m') ∧
    (m' = m ∧ m.handleOf a = .ok (some r) ∨ m.handleOf a = .ok none ∧ ∃ u, m'.heap.object? r = some (.userdata u)) := by
  obtain ⟨R, hR, -⟩ := hm.registry
  obtain ⟨p, m₁, htable, ⟨rfl, hp⟩ | ⟨T, hregisters, hentries, -⟩⟩ :=
    exists_registryTable hm.wellFormed hR Registry.pointers (some "v")
  · obtain ⟨-, T, hT⟩ := hm.registered _ p hp
    have hget := rawGet_of_table hT a
    have hhandle : m₁.handleOf a = .ok (T.get (.address a)).userdata? := by
      simp only [handleOf, hm.find?_eq_some_iff.2 hp, hget]
    obtain ⟨r, e, m₂, hlist, henlists⟩ := exists_listHandle hm.wellFormed hT a
    rw [ensureHandle, bind_of_ok htable, bind_of_ok (query_of_ok hget), hhandle]
    cases T.get (.address a) with
    | userdata s => exact ⟨s, m₁, rfl, Or.inl ⟨rfl, rfl⟩⟩
    | _ => exact ⟨r, m₂, hlist, Or.inr ⟨rfl, _, henlists.handle⟩⟩
  · have hhandle : m.handleOf a = .ok none := by
      have hnone : Registry.find? m Registry.pointers = none :=
        Option.eq_none_iff_forall_ne_some.2 fun t ht => hregisters.unused t (hm.find?_eq_some_iff.1 ht)
      simp only [handleOf, hnone]
    obtain ⟨r, e, m₂, hlist, henlists⟩ := exists_listHandle hregisters.wellFormed hregisters.table a
    have hnil : T.get (.address a) = .nil := by simp [Table.get, Table.find?, hentries]
    refine ⟨r, m₂, ?_, Or.inr ⟨hhandle, _, henlists.handle⟩⟩
    rw [ensureHandle, bind_of_ok htable, bind_of_ok (query_of_ok (rawGet_of_table hregisters.table a)), hnil]
    exact hlist

/-- Wrapping an address succeeds where what is listed for it is a userdata, and where nothing is. -/
theorem Unshared.wrap_ok_iff (hm : m.Unshared closed) (ha : a ≠ Address.null) (name : String) :
    (∃ h, (wrap a name m).1 = .ok (.userdata h)) ↔
      ∀ r, m.handleOf a = .ok (some r) → ∃ u, m.heap.object? r = some (.userdata u) := by
  obtain ⟨r, m₁, hensure, hcases⟩ := hm.ensureHandle_cases a
  have hm₁ := (keeps_ensureHandle a m hm openAll_nil).1
  rw [hensure] at hm₁
  obtain ⟨t, m₂, hm₂, hwrap⟩ := hm₁.wrap_cases ha name hensure
  have hsame : ∀ u, m₂.heap.object? r = some (.userdata u) ↔ m₁.heap.object? r = some (.userdata u) := by
    intro u
    rcases hm₂ with ⟨rfl, -⟩ | hregisters
    · rfl
    · obtain ⟨R, hR, -⟩ := hm₁.registry
      exact ⟨hregisters.userdata r u, fun hu => hregisters.kept r _ (Heap.ne_of_table_of_userdata hR hu).symm hu⟩
  have hiff : (∃ h, (wrap a name m).1 = .ok (.userdata h)) ↔ ∃ u, m₁.heap.object? r = some (.userdata u) := by
    rcases hwrap with ⟨u, m₃, hdone, hu, -⟩ | ⟨hno, e, he⟩
    · simp [hdone, (hsame u).1 hu]
    · simp [he, ← hsame, hno]
  rw [hiff]
  rcases hcases with ⟨rfl, hlisted⟩ | ⟨hnone, hu⟩
  · rw [hlisted]
    constructor
    · intro hu s hs
      cases hs
      exact hu
    · intro h
      exact h r rfl
  · rw [hnone]
    constructor
    · intro _ s hs
      cases hs
    · intro _
      exact hu

end Machine

open ScriptHost.Action ClassDescriptor Machine in
/-- Take the machine at the end of a course from a new machine on, in which native code leaves the names of the registry to the binding
layer and names references that were given, and no slot is freed as often as there are generations. Take an address and a list of
classes that can be installed. After the address is wrapped under the name of one of them the list can be installed as well. The
address can be wrapped, before and after, where what is listed for it is a userdata or nothing is. In either order the same comes of
it but for the names of references that were not given before, one to one: one answer and one machine. -/
theorem wrap_install_commute {limits : Limits} {host : σ} {es : List (Event χ σ)} (h : Course (Spares False) (.start limits host) es)
    (hnamed : (start limits host).AtEvents (fun m e => ∀ r ∈ e.refs, m.heap.Given r) es)
    (hmax : ∀ i, (start limits host).freesOf i es < UInt32.size) {m n : Machine χ σ} (hm : (start limits host).follow es = m)
    {a : Address} (ha : a ≠ Address.null) {classes : List (ClassDescriptor χ)} {d : ClassDescriptor χ} (hd : d ∈ classes)
    (hn : installAll classes m = (.ok (), n)) :
    (installAll classes (wrap a d.name m).2).1 = .ok () ∧
    ((∃ r, (wrap a d.name m).1 = .ok (.userdata r)) ↔
      ∀ r, m.handleOf a = .ok (some r) → ∃ u, m.heap.object? r = some (.userdata u)) ∧
    ∃ ρ : Equiv.Perm Ref, (∀ r, m.heap.Given r → ρ r = r) ∧ (wrap a d.name n).1 = (wrap a d.name m).1.map (Value.rename ρ) ∧
      (installAll classes (wrap a d.name m).2).2.Renamed ρ (wrap a d.name n).2 := by
  have hunshared := h.keep (fun _ _ hm he => hm.after he) (unshared_start limits host)
  have hunforged := unforged_follow h hnamed hmax
  rw [hm] at hunshared hunforged
  obtain ⟨ρ, hfix, hdone, hanswer, hrenamed⟩ := hunshared.exists_wrap_installAll hunforged ha hd hn
  exact ⟨hdone, hunshared.wrap_ok_iff ha d.name, ρ, hfix, hanswer, hrenamed⟩

/-- A class and one derived from it. -/
def basedClasses : List (ClassDescriptor Bool) := [⟨"B", .ofList [("m", true)], []⟩, ⟨"D", .ofList [("m", false)], ["B"]⟩]

/-- A table is made and freed; then a handle is made and put onto the stack. -/
def handleAfterTable : List (Event Bool Unit) :=
  [.ask .newTable, .sweep, .finish ⟨1, 1, 0, 1, 2⟩, .ask (.ensureHandle 0x20), .ask (.push (.userdata ⟨4, 0⟩))]

/-- A new machine after that. -/
def afterHandle : Machine Bool Unit := (Machine.start .standard ()).follow handleAfterTable

open ScriptHost.Action ClassDescriptor Machine in
/-- Another address gets one handle if it is wrapped before and another one if it is wrapped after. The two machines differ by no more
than the like of that. -/
theorem wrap_install_afterHandle :
    (wrap 0x10 "D" afterHandle).1 = .ok (.userdata ⟨6, 0⟩) ∧
      (wrap 0x10 "D" (installAll basedClasses afterHandle).2).1 = .ok (.userdata ⟨18, 0⟩) ∧
      ∃ ρ : Equiv.Perm Ref, ρ ⟨4, 0⟩ = ⟨4, 0⟩ ∧ ρ ⟨6, 0⟩ = ⟨18, 0⟩ ∧
        (installAll basedClasses (wrap 0x10 "D" afterHandle).2).2.Renamed ρ
          (wrap 0x10 "D" (installAll basedClasses afterHandle).2).2 := by
  have hcollecting : ((start .standard ()).follow (handleAfterTable.take 1)).collecting = false := by decide +kernel
  have hcourse : Course (Spares False) (.start .standard ()) handleAfterTable :=
    ⟨⟨trivial, trivial⟩, hcollecting, trivial, ⟨trivial, trivial⟩, ⟨trivial, trivial⟩, trivial⟩
  have hnamed : (start .standard ()).AtEvents (fun m e => ∀ r ∈ e.refs, m.heap.Given r) handleAfterTable := by
    decide +kernel
  have hmax : ∀ i, (start .standard ()).freesOf i handleAfterTable < UInt32.size := fun i =>
    Nat.lt_of_le_of_lt (freesOf_le_length i) (by decide)
  have hdone : installAll basedClasses afterHandle = (.ok (), (installAll basedClasses afterHandle).2) :=
    eq_of_fst (eq_ok_of_toOption (by decide +kernel))
  have hbefore : (wrap 0x10 "D" afterHandle).1 = .ok (.userdata ⟨6, 0⟩) := eq_ok_of_toOption (by decide +kernel)
  have hafter : (wrap 0x10 "D" (installAll basedClasses afterHandle).2).1 = .ok (.userdata ⟨18, 0⟩) :=
    eq_ok_of_toOption (by decide +kernel)
  obtain ⟨-, -, ρ, hfix, hanswer, hrenamed⟩ := wrap_install_commute hcourse hnamed hmax (m := afterHandle) rfl (a := 0x10)
    (by decide) (d := ⟨"D", .ofList [("m", false)], ["B"]⟩) (by simp [basedClasses]) hdone
  refine ⟨hbefore, hafter, ρ, hfix _ (by decide +kernel), ?_, hrenamed⟩
  have hsame := hafter.symm.trans hanswer
  rw [hbefore] at hsame
  exact (Value.userdata.inj (Except.ok.inj hsame)).symm

/-- A userdata is made and freed. The table of handles becomes the shadow of a handle, and the userdata an attribute of it under an
address. -/
def staleListed : List (Event Bool Unit) :=
  [.ask (.newUserdata .unit), .sweep, .finish ⟨1, 1, 0, 1, 2⟩, .ask (.installClasses [⟨"B", .empty, []⟩]), .ask (.wrap 0x20 "B"),
    .ask (.setEnvironment ⟨9, 0⟩ (some ⟨7, 0⟩)), .write ⟨[.userdata ⟨9, 0⟩, .address 0x10, .userdata ⟨2, 0⟩], []⟩]

open ScriptHost.Action ClassDescriptor Machine in
/-- So what is listed for an address need not be there, and then wrapping fails, before and after. -/
theorem wrap_install_both_succeed_false :
    ¬∀ (es : List (Event Bool Unit)) (a : Address) (classes : List (ClassDescriptor Bool)) (d : ClassDescriptor Bool)
      (m n : Machine Bool Unit), Course (Spares False) (.start .standard ()) es →
      (start .standard ()).AtEvents (fun m e => ∀ r ∈ e.refs, m.heap.Given r) es →
      (∀ i, (start .standard ()).freesOf i es < UInt32.size) → (start .standard ()).follow es = m →
      a ≠ Address.null → d ∈ classes → installAll classes m = (.ok (), n) →
      (∃ r, (wrap a d.name m).1 = .ok (.userdata r)) ∧ (installAll classes (wrap a d.name m).2).1 = .ok () ∧
        (∃ r, (wrap a d.name n).1 = .ok (.userdata r)) ∧
        ∃ ρ : Equiv.Perm Ref, (installAll classes (wrap a d.name m).2).2.Renamed ρ (wrap a d.name n).2 := by
  intro hall
  have hcollecting : ((start .standard ()).follow (staleListed.take 1)).collecting = false := by decide +kernel
  have hwritable : ((start .standard ()).follow (staleListed.take 5)).Writable False ⟨7, 0⟩ := ⟨by decide +kernel, fun h => h.1⟩
  have hcourse : Course (Spares False) (.start .standard ()) staleListed :=
    ⟨⟨trivial, trivial⟩, hcollecting, trivial, ⟨trivial, False.elim⟩, ⟨trivial, trivial⟩,
      ⟨trivial, fun e he => Option.some.inj he ▸ hwritable⟩, trivial, trivial⟩
  have hnamed : (start .standard ()).AtEvents (fun m e => ∀ r ∈ e.refs, m.heap.Given r) staleListed := by
    decide +kernel
  obtain ⟨⟨r, hwrap⟩, -⟩ := hall staleListed 0x10 [⟨"C", .empty, []⟩] ⟨"C", .empty, []⟩ _ _ hcourse hnamed
    (fun i => Nat.lt_of_le_of_lt (freesOf_le_length i) (by decide)) rfl (by decide) (by simp)
    (eq_of_fst (eq_ok_of_toOption (by decide +kernel)))
  have hnone : (wrap 0x10 "C" ((start .standard ()).follow staleListed)).1.toOption = none := by decide +kernel
  rw [hwrap] at hnone
  cases hnone

end ScriptHost

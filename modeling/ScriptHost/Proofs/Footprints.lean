import ScriptHost.Proofs.Commuting

/-!
# What wrapping and installing read and write

Which fields of the objects that are there the handle of an address, the table of a name, the wrapping of a handle and the installing
of a class read, and which they write (`Action.Confined`). Where each name of the registry has a table of its own, what the one writes
and what the other reads or writes have nothing in common.
-/

namespace ScriptHost

variable {χ σ : Type}

namespace Action

/-- Gives a handle a table for its metatable, and answers the handle. -/
def dress (handle cls : Ref) : Action χ σ Value := do
  setMetatable (.userdata handle) (some cls)
  return .userdata handle

/-- The handle of an address with a table for its metatable. -/
def wrapWith (a : Address) (cls : Ref) : Action χ σ Value := do
  let handle ← ensureHandle a
  dress handle cls

theorem quiet_dress (handle cls : Ref) : (dress handle cls : Action χ σ Value).Quiet :=
  (quiet_setMetatable _ _).bind fun _ => quiet_pure _

theorem quiet_wrapWith (a : Address) (cls : Ref) : (wrapWith a cls : Action χ σ Value).Quiet :=
  (quiet_ensureHandle a).bind fun _ => quiet_dress _ _

theorem safe_wrapWith {D : Ref → Prop} {L : List Ref} (a : Address) (cls : Ref) :
    Safe D L (wrapWith a cls : Action χ σ Value) Value.refs :=
  (safe_ensureHandle a).bind fun handle => (safe_setMetatable _ _).bind fun _ => safe_pure (by simp [Value.refs, Value.ref?])

variable {S : Footing} {K : Machine χ σ → Prop}

theorem parallel_dress (handle cls : Ref) (hclass : S.writes handle .classOf) :
    Parallel S K (dress handle cls : Action χ σ Value) (dress (S.rename handle) (S.rename cls)) (Value.rename S.rename)
      (fun _ => True) :=
  (parallel_setMetatable_userdata handle cls hclass).bind fun _ _ => parallel_pure rfl trivial

theorem parallel_wrapWith (a : Address) (cls : Ref) (hname : ¬S.holes S.registry (.entry (.string Registry.pointers)))
    (ha : ∀ t, ¬S.holes t (.entry (.address a))) (hw : ∀ t, S.writes t (.entry (.address a)))
    (hK : ∀ m, K m → (∀ t, ¬m.Registered Registry.pointers t) → S.writes S.registry (.entry (.string Registry.pointers)))
    (hclass : ∀ r, S.writes r .classOf) :
    Parallel S K (wrapWith a cls : Action χ σ Value) (wrapWith a (S.rename cls)) (Value.rename S.rename) (fun _ => True) :=
  (parallel_ensureHandle a hname ha hw hK).bind fun handle _ => parallel_dress handle cls (hclass handle)

end Action

/-! ## The fields -/

namespace Machine

/-- What is under a name in the registry. -/
def nameField (m : Machine χ σ) (name : String) (r : Ref) (f : Field) : Prop := r = m.registry ∧ f = .entry (.string name)

/-- What asking for the handle of an address reads: the table of handles and what is under the address. -/
def handleReads (m : Machine χ σ) (a : Address) (r : Ref) (f : Field) : Prop :=
  m.nameField Registry.pointers r f ∨ f = .entry (.address a)

/-- What it writes: what is under the address, and the table of handles if there is none. -/
def handleWrites (m : Machine χ σ) (a : Address) (r : Ref) (f : Field) : Prop :=
  f = .entry (.address a) ∨ m.nameField Registry.pointers r f ∧ ∀ t, ¬m.Registered Registry.pointers t

/-- What wrapping writes: that, and the metatable of a userdata. -/
def wrapWrites (m : Machine χ σ) (a : Address) (r : Ref) (f : Field) : Prop := m.handleWrites a r f ∨ f = .classOf

/-- What installing a class reads: what is under its name in the registry, and what is under the names of its bases. -/
def classReads (m : Machine χ σ) (d : ClassDescriptor χ) (r : Ref) (f : Field) : Prop :=
  m.nameField d.name r f ∨ ∃ b ∈ d.bases, f = .entry (.string b)

/-- What it writes: what is under its name in the registry, its namespace among the globals, and its table, if there is one. -/
def classWrites (m : Machine χ σ) (d : ClassDescriptor χ) (r : Ref) (f : Field) : Prop :=
  m.nameField d.name r f ∨ r = m.globals ∧ f = .entry (.string (ClassDescriptor.namespaceName d.name)) ∨
    m.Registered d.name r ∧ (f = .metatable ∨ ∃ name, f = .entry (.string name))

variable {m : Machine χ σ} {closed : Prop} {a : Address} {d : ClassDescriptor χ} {name : String} {r : Ref} {f : Field}

theorem plainKeys_nameField (m : Machine χ σ) (name : String) : PlainKeys (m.nameField name) := by
  rintro r k ⟨-, he⟩
  cases he
  rfl

theorem plainKeys_handleWrites (m : Machine χ σ) (a : Address) : PlainKeys (m.handleWrites a) := by
  rintro r k (he | ⟨h, -⟩)
  · cases he
    rfl
  · exact plainKeys_nameField m _ r k h

theorem plainKeys_wrapWrites (m : Machine χ σ) (a : Address) : PlainKeys (m.wrapWrites a) := by
  rintro r k (h | he)
  · exact plainKeys_handleWrites m a r k h
  · cases he

theorem plainKeys_classWrites (m : Machine χ σ) (d : ClassDescriptor χ) : PlainKeys (m.classWrites d) := by
  rintro r k (h | ⟨-, he⟩ | ⟨-, he | ⟨name, he⟩⟩)
  · exact plainKeys_nameField m _ r k h
  · cases he
    rfl
  · cases he
  · cases he
    rfl

/-! ### What they have in common -/

theorem not_nameField_of_ne {name' : String} (hne : name ≠ name') (h : m.nameField name r f) : ¬m.nameField name' r f := by
  rintro ⟨-, he⟩
  cases h.2.symm.trans he
  exact hne rfl

theorem not_handleReads_of_nameField (hname : name ≠ Registry.pointers) (h : m.nameField name r f) : ¬m.handleReads a r f := by
  rintro (hpointers | he)
  · exact not_nameField_of_ne hname h hpointers
  · cases h.2.symm.trans he

theorem not_nameField_of_handleWrites (hname : name ≠ Registry.pointers) (h : m.handleWrites a r f) : ¬m.nameField name r f := by
  intro hfield
  rcases h with he | ⟨hpointers, -⟩
  · cases hfield.2.symm.trans he
  · exact not_nameField_of_ne hname hfield hpointers

/-- What is under a name in the registry is no matter of a class with another name and other bases, because the registry is neither
the globals nor the table of a class. -/
theorem Unshared.not_classWrites_of_nameField (hm : m.Unshared closed) (hne : name ≠ d.name) (h : m.nameField name r f) :
    ¬m.classWrites d r f := by
  rintro (hfield | ⟨hr, -⟩ | ⟨hr, -⟩)
  · exact not_nameField_of_ne hne h hfield
  · exact hm.globals.1 (hr.symm.trans h.1)
  · exact (hm.registered _ _ hr).1 h.1

theorem not_classReads_of_nameField (hne : name ≠ d.name) (hbases : name ∉ d.bases) (h : m.nameField name r f) :
    ¬m.classReads d r f := by
  rintro (hfield | ⟨b, hb, he⟩)
  · exact not_nameField_of_ne hne h hfield
  · cases h.2.symm.trans he
    exact hbases hb

/-- Installing a class writes nothing that asking for a handle reads. -/
theorem Unshared.not_handleReads_of_classWrites (hm : m.Unshared closed) (hname : d.name ≠ Registry.pointers)
    (h : m.classWrites d r f) : ¬m.handleReads a r f := by
  rintro (hpointers | he)
  · exact hm.not_classWrites_of_nameField hname.symm hpointers h
  · subst he
    cases plainKeys_classWrites m d r _ h
    rcases h with ⟨-, he⟩ | ⟨-, he⟩ | ⟨-, he | ⟨name, he⟩⟩ <;> cases he

/-- Wrapping writes nothing that installing a class reads or writes. -/
theorem Unshared.not_class_of_wrapWrites (hm : m.Unshared closed) (hname : d.name ≠ Registry.pointers)
    (hbases : Registry.pointers ∈ d.bases → ∃ t, m.Registered Registry.pointers t) (h : m.wrapWrites a r f) :
    ¬m.classReads d r f ∧ ¬m.classWrites d r f := by
  rcases h with (rfl | ⟨hpointers, hnone⟩) | rfl
  · refine ⟨?_, fun h => hm.not_handleReads_of_classWrites hname h (Or.inr rfl)⟩
    rintro (⟨-, he⟩ | ⟨b, -, he⟩) <;> cases he
  · refine ⟨not_classReads_of_nameField hname.symm (fun hb => ?_) hpointers, hm.not_classWrites_of_nameField hname.symm hpointers⟩
    obtain ⟨t, ht⟩ := hbases hb
    exact hnone t ht
  · constructor
    · rintro (⟨-, he⟩ | ⟨b, -, he⟩) <;> cases he
    · rintro (⟨-, he⟩ | ⟨-, he⟩ | ⟨-, he | ⟨name, he⟩⟩) <;> cases he

end Machine

/-! ## Confinement -/

namespace Action

open Machine

variable (m : Machine χ σ)

theorem confined_ensureHandle (a : Address) :
    Confined (m.handleReads a) (m.handleWrites a) (ensureHandle a : Action χ σ Ref) id m := by
  intro S n ht _ hR hW
  have hregistry : S.registry = m.registry := ht.registry.1.symm
  refine parallel_ensureHandle (K := (· = m)) a ?_ (fun t => hR t _ (Or.inr rfl)) (fun t => hW t _ (Or.inl rfl)) ?_ m n ht rfl
  · exact hR _ _ (Or.inl ⟨hregistry, rfl⟩)
  · rintro _ rfl hnone
    exact hW _ _ (Or.inr ⟨⟨hregistry, rfl⟩, hnone⟩)

theorem confined_metatableNamed (name : String) : Confined (m.nameField name) (m.nameField name)
    (metatableNamed name : Action χ σ (Ref × Bool)) (fun ρ => Prod.map ρ id) m := by
  intro S n ht _ hR hW
  have hfield : m.nameField name S.registry (.entry (.string name)) := ⟨ht.registry.1.symm, rfl⟩
  exact parallel_metatableNamed (K := fun _ => True) (Q := fun _ => True) name (hR _ _ hfield) (hW _ _ hfield) (fun _ _ => trivial)
    (fun _ _ _ _ => trivial) m n ht trivial

theorem confined_wrapWith (a : Address) {cls : Ref} (hcls : m.heap.Given cls) :
    Confined (m.handleReads a) (m.wrapWrites a) (wrapWith a cls : Action χ σ Value) Value.rename m := by
  intro S n ht hfix hR hW
  have hregistry : S.registry = m.registry := ht.registry.1.symm
  have hwrap := parallel_wrapWith (K := (· = m)) (S := S) a cls (hR _ _ (Or.inl ⟨hregistry, rfl⟩)) (fun t => hR t _ (Or.inr rfl))
    (fun t => hW t _ (Or.inl (Or.inl rfl))) (fun _ e hnone => hW _ _ (Or.inl (Or.inr ⟨⟨hregistry, rfl⟩, e ▸ hnone⟩)))
    (fun r => hW r _ (Or.inr rfl)) m n ht rfl
  rwa [hfix cls hcls] at hwrap

theorem confined_install (d : ClassDescriptor χ) :
    Confined (m.classReads d) (m.classWrites d) (d.install : Action χ σ Unit) (fun _ => id) m := by
  intro S n ht _ hR hW
  have hregistry : S.registry = m.registry := ht.registry.1.symm
  refine parallel_install (K := (· = m)) d (hR _ _ (Or.inl ⟨hregistry, rfl⟩)) (fun b hb t => hR t _ (Or.inr ⟨b, hb, rfl⟩))
    (hW _ _ (Or.inl ⟨hregistry, rfl⟩)) (hW _ _ (Or.inr (Or.inl ⟨ht.globals.1.symm, rfl⟩))) ?_ m n ht rfl
  rintro _ rfl t hreg
  exact ⟨fun name => hW t _ (Or.inr (Or.inr ⟨hreg, Or.inr ⟨name, rfl⟩⟩)), hW t _ (Or.inr (Or.inr ⟨hreg, Or.inl rfl⟩))⟩

end Action

end ScriptHost

import ScriptHost.Proofs.Guards

/-!
# A table that is watched

What the operations do to one table of the heap, which is guarded but for some keys. The operations of the binding layer spare it if
it is none of the tables they find under names of the registry; installing a class writes the globals under the name of its namespace
(`Watched.spared_install`). An event that neither writes the table by hand nor installs a class over it leaves it as it was
(`Watched.spared_after`).
-/

namespace ScriptHost

variable {χ σ : Type}

/-- The second table is the first one, apart from what it has under the keys. -/
def Table.AgreesBut (S : Key → Prop) (T T' : Table) : Prop := T'.metatable = T.metatable ∧ ∀ k, ¬S k → T'.get k = T.get k

/-- A table to be watched, the globals, the names of the registry that are not those of the table, and the keys under which the
globals may change if they are what is watched. -/
structure Watch where
  table : Ref
  globals : Ref
  foreign : String → Prop
  free : Key → Prop

/-- The watched table is all that is guarded. -/
def Watch.guard (W : Watch) {registry : Ref} (hne : W.table ≠ registry) : Guard where
  tables t := t = W.table
  free _ := W.free
  payloads _ := False
  registry := registry
  globals := W.globals
  foreign := W.foreign
  opens _ _ h := absurd h.symm hne

namespace Machine

/-- The watched table is there, it is not the registry, and it is under none of the names that are not its own. -/
structure Watched (W : Watch) (m : Machine χ σ) : Prop where
  wellFormed : m.heap.WellFormed
  globals : m.globals = W.globals
  table : ∃ T, m.heap.object? W.table = some (.table T)
  registry : W.table ≠ m.registry ∧ ∃ R, m.heap.object? m.registry = some (.table R)
  foreign : ∀ n, W.foreign n → ¬m.Registered n W.table

/-- The watched table is what it was, but for the keys under which it may change. -/
def Spared (W : Watch) (m m' : Machine χ σ) : Prop :=
  ∀ T, m.heap.object? W.table = some (.table T) → ∃ T', m'.heap.object? W.table = some (.table T') ∧ T.AgreesBut W.free T'

variable {W : Watch} {m m' : Machine χ σ}

theorem Watched.secured (hm : m.Watched W) : m.Secured (W.guard hm.registry.1) where
  wellFormed := hm.wellFormed
  registry := ⟨rfl, hm.registry.2⟩
  globals := hm.globals
  there t ht := by
    obtain ⟨T, hT⟩ := hm.table
    obtain rfl : t = W.table := ht.resolve_right id
    exact Heap.contains_of_object? hT
  foreign name t hname ht e := hm.foreign name hname (e ▸ ht)
  payload _ _ _ h := h.elim

theorem Upholds.spared {registry : Ref} {hne : W.table ≠ registry} (h : m.Upholds (W.guard hne) m') : m.Spared W m' := by
  intro T hT
  obtain ⟨T', hT', hsame⟩ := h.table (G := W.guard hne) rfl hT
  exact ⟨T', hT', hsame.1, fun k hk => hsame.get hk⟩

/-- Installing a class, also one that fails, spares a table that is not under its name. Of the globals it changes the one with the
name of its namespace. -/
theorem Watched.spared_install (hm : m.Watched W) {d : ClassDescriptor χ} (hname : W.foreign d.name)
    (hspace : W.globals = W.table → W.free (.string (ClassDescriptor.namespaceName d.name))) : m.Spared W (d.install m).2 :=
  (Action.heeds_install (G := W.guard hm.registry.1) hname hspace m hm.secured trivial).2.1.spared

/-- An event other than a collection that neither writes the watched table by hand nor installs a class over it spares it. -/
theorem Watched.spared_after (hm : m.Watched W) (hreserved : ∀ n ∈ Registry.reserved, W.foreign n) {e : Event χ σ}
    (he : ∀ r, e = .ask r → r.IsSilent) (hsweep : e ≠ .sweep) (hwrite : e.written? m W.table = none)
    (hclass : ¬e.Reclasses W.table)
    (hinstall : ∀ classes, e = .ask (.installClasses classes) → m.checkClasses [] classes = .ok () → ∀ d ∈ classes,
      W.foreign d.name ∧ (W.globals = W.table → W.free (.string (ClassDescriptor.namespaceName d.name)))) :
    m.Spared W (m.after e) := by
  have hopens : ∀ name, (W.guard hm.registry.1).Opens name := fun _ h => absurd h.symm hm.registry.1
  refine (hm.secured.upholds_after he hsweep ?_).spared
  exact {
    pointers := hreserved _ (by decide)
    enumerations := fun _ _ => hreserved _ (by decide)
    stages := fun _ => ⟨hreserved _ (by decide), hopens _⟩
    names := fun name _ => hopens name
    writes := fun t key v k ht hw => by
      obtain rfl : t = W.table := ht
      cases hwrite.symm.trans hw
    classes := fun t ht => by
      obtain rfl : t = W.table := ht
      exact hclass
    payloads := fun _ h => h.elim
    installs := hinstall }

/-! ## Runs in which the names are left to the binding layer -/

variable {closed : Prop} {e : Event χ σ} {t : Ref}

/-- Every event but a collection is a sequence of edits. -/
theorem Unshared.edits_after (hm : m.Unshared False) (he : m.Allows (Spares False) e) (hsweep : e ≠ .sweep) :
    Relation.ReflTransGen (Edit False) m (m.after e) := by
  cases e with
  | ask r => exact (Request.keeps_perform _ he.1 (fun _ _ h => h) m hm he.2).2.1
  | store s key v =>
    obtain ⟨target, hp, ht⟩ := he
    exact .single (hm.edit_rawSet (hp s ht))
  | write call => exact .single (hm.edit_write call)
  | enter | leave | queue | finish => exact .single (.still rfl rfl rfl)
  | sweep => exact absurd rfl hsweep

/-- What edits leave of a machine on which each name has a table of its own, they leave one after the other. -/
theorem Unshared.lasts_edits {K : Machine χ σ → Prop} (hm : m.Unshared closed)
    (hK : ∀ m m' : Machine χ σ, m.Unshared closed → m.Edit closed m' → K m → K m') {m' : Machine χ σ}
    (h : Relation.ReflTransGen (Edit closed) m m') (hk : K m) : m'.Unshared closed ∧ K m' :=
  lasts_of_edit (K := fun m => m.Unshared closed ∧ K m) (fun _ _ hedit h => ⟨hedit.unshared h.1, hK _ _ h.1 hedit h.2⟩) m m' h
    ⟨hm, hk⟩

theorem Unshared.after (hm : m.Unshared False) (he : m.Allows (Spares False) e) : (m.after e).Unshared False := by
  by_cases hsweep : e = .sweep
  · exact hsweep ▸ hm.swept
  · exact (hm.lasts_edits (K := fun _ => True) (fun _ _ _ _ _ => trivial) (hm.edits_after he hsweep) trivial).1

/-- Edits leave functions as they are. -/
theorem Unshared.function_edits (hm : m.Unshared closed) {m' : Machine χ σ} {f : NativeFunction χ}
    (hf : m.heap.object? t = some (.function f)) (h : Relation.ReflTransGen (Edit closed) m m') :
    m'.heap.object? t = some (.function f) := by
  refine (hm.lasts_edits (K := fun m => m.heap.object? t = some (.function f)) (fun m m' hm hedit hf => ?_) h hf).2
  refine hedit.object?_eq hf ?_ nofun nofun
  rintro rfl
  obtain ⟨R, hR, -⟩ := hm.registry
  cases hR.symm.trans hf

/-- A table other than the registry can be watched, for the names it does not have. -/
theorem Unshared.watched (hm : m.Unshared closed) (ht : ∃ T, m.heap.object? t = some (.table T)) (hne : t ≠ m.registry)
    {foreign : String → Prop} (hnames : ∀ n, foreign n → ¬m.Registered n t) (free : Key → Prop) :
    m.Watched ⟨t, m.globals, foreign, free⟩ := by
  obtain ⟨R, hR, -⟩ := hm.registry
  exact ⟨hm.wellFormed, rfl, ht, ⟨hne, R, hR⟩, hnames⟩

end Machine

end ScriptHost

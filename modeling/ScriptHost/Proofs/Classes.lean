import Mathlib.Data.List.Forall2
import ScriptHost.Proofs.Refusal

/-!
# Machines with classes

On a machine whose class tables are written by the binding layer alone, each installed class is represented by its table
(`Machine.Represents`): the table has `true` under the name of the class, its methods and its metamethods, and the function that
reads attributes has the tables of the bases bound to it, in their order. The classes are those of a history (`Machine.Classes`).
This is what edits, collections and further classes keep, so it holds of every machine that is built step by step
(`Built.classes`), and every machine of a run is (`Reached.built`).
-/

namespace ScriptHost

variable {χ σ : Type}

/-! ## The table of a class -/

namespace ClassDescriptor

/-- The names under which the table of a class has something. -/
def fields (d : ClassDescriptor χ) : List String := d.name :: "__name" :: Registry.metamethods ++ d.methods.names

/-- The table is that of the class: it is its own metatable, and has something under the names of the class, `true` under its own
name only, and a text nowhere but under `__name`. -/
structure Fills (d : ClassDescriptor χ) (cls : Ref) (T : Table) : Prop where
  metatable : T.metatable = some cls
  fields : ∀ k, T.get k ≠ .nil ↔ ∃ name ∈ d.fields, k = .string name
  mark : ∀ k, T.get k = .boolean true ↔ k = .string d.name
  texts : ∀ name s, T.field name = .string s → name = "__name"

variable {d : ClassDescriptor χ} {cls : Ref} {T : Table}

theorem get_blank (name : String) (k : Key) :
    (Table.blank name).get k = if k = .string "__name" then .string name else .nil := by
  rw [Table.blank, Table.get_set]
  rfl

/-- What there is under a key of a class table: a function under the name of a method or metamethod, `true` under the name of the
class, the name of the class under `__name`, and otherwise nothing. -/
theorem get_filled_cases (cls : Ref) (hn : d.name ∉ Registry.metamethods) {methods : List (String × Ref)}
    (hmethods : methods.map Prod.fst = d.methods.names) (reader writer finalizer : Ref) (k : Key) :
    let v := (filled d.name (.blank d.name) cls methods reader writer finalizer).get k
    (∃ f name, v = .function f ∧ name ∈ d.fields ∧ k = .string name ∧ name ≠ d.name) ∨
      (v = .boolean true ∧ k = .string d.name) ∨
      (v = .string d.name ∧ k = .string "__name" ∧ "__name" ≠ d.name) ∨
      v = .nil ∧ ∀ name ∈ d.fields, k ≠ .string name := by
  intro v
  have hv : v = _ := get_filled k
  have hmeta : ∀ name ∈ Registry.metamethods, ∀ f, k = .string name → v = .function f →
      ∃ f name, v = .function f ∧ name ∈ d.fields ∧ k = .string name ∧ name ≠ d.name := fun name hname f hk hf =>
    ⟨f, name, hf, by simp [fields, hname], hk, fun e => hn (e ▸ hname)⟩
  split at hv
  · exact Or.inl (hmeta Registry.finalizeName (by decide) _ ‹_› hv)
  split at hv
  · exact Or.inl (hmeta Registry.writeName (by decide) _ ‹_› hv)
  split at hv
  · exact Or.inl (hmeta Registry.readName (by decide) _ ‹_› hv)
  split at hv
  · exact Or.inr (Or.inl ⟨hv, ‹_›⟩)
  rename_i hfinalize hwrite hread hself
  rcases (Table.blank d.name).get_putAll methods k with ⟨e, he, hk, hget⟩ | ⟨hnone, hget⟩
  · have hname : e.1 ∈ d.methods.names := hmethods ▸ List.mem_map_of_mem he
    exact Or.inl ⟨e.2, e.1, hv.trans hget, by simp [fields, hname], hk, fun e => hself (e ▸ hk)⟩
  · rw [hget, get_blank] at hv
    split at hv
    · rename_i hk
      exact Or.inr (Or.inr (Or.inl ⟨hv, hk, fun e => hself (e ▸ hk)⟩))
    · refine Or.inr (Or.inr (Or.inr ⟨hv, fun name hname => ?_⟩))
      simp only [fields, Registry.metamethods, List.cons_append, List.nil_append, List.mem_cons, ← hmethods, List.mem_map] at hname
      rcases hname with rfl | rfl | rfl | rfl | rfl | ⟨e, he, rfl⟩
      · exact hself
      · assumption
      · exact hread
      · exact hwrite
      · exact hfinalize
      · exact hnone e he

/-- Installing a class makes its table of a blank one. -/
theorem fills_filled (hn : d.name ∉ Registry.metamethods) {methods : List (String × Ref)}
    (hmethods : methods.map Prod.fst = d.methods.names) (reader writer finalizer : Ref) :
    d.Fills cls (filled d.name (.blank d.name) cls methods reader writer finalizer) := by
  have hcases := get_filled_cases cls hn hmethods reader writer finalizer
  refine ⟨rfl, fun k => ?_, fun k => ?_, fun name s h => ?_⟩
  · rcases hcases k with ⟨f, name, hv, hname, hk, -⟩ | ⟨hv, hk⟩ | ⟨hv, hk, -⟩ | ⟨hv, hk⟩
    · exact iff_of_true (hv ▸ nofun) ⟨name, hname, hk⟩
    · exact iff_of_true (hv ▸ nofun) ⟨d.name, by simp [fields], hk⟩
    · exact iff_of_true (hv ▸ nofun) ⟨"__name", by simp [fields], hk⟩
    · exact iff_of_false (not_not_intro hv) fun ⟨name, hname, h⟩ => hk name hname h
  · rcases hcases k with ⟨f, name, hv, -, rfl, hname⟩ | ⟨hv, hk⟩ | ⟨hv, rfl, hname⟩ | ⟨hv, hk⟩
    · exact iff_of_false (hv ▸ nofun) fun e => hname (Key.string.inj e)
    · exact iff_of_true hv hk
    · exact iff_of_false (hv ▸ nofun) fun e => hname (Key.string.inj e)
    · exact iff_of_false (hv ▸ nofun) (hk d.name (by simp [fields]))
  · rcases hcases (.string name) with ⟨f, name', hv, -⟩ | ⟨hv, -⟩ | ⟨-, hk, -⟩ | ⟨hv, -⟩
    · cases hv.symm.trans h
    · cases hv.symm.trans h
    · exact Key.string.inj hk
    · cases hv.symm.trans h

/-- A class table holds nothing weakly: a class has no text under `__mode`. -/
theorem Fills.strong {m : Machine χ σ} (h : d.Fills cls T) (hT : m.heap.object? cls = some (.table T)) (letter : Char) :
    ¬m.heap.ModeSays T letter :=
  Heap.not_modeSays_of_self hT h.metatable (fun _ hmode => absurd (h.texts _ _ hmode) (by decide)) letter

end ClassDescriptor

/-! ## Machines that have the classes of a history -/

namespace Machine

/-- The class is installed: its table has its name, and the function that reads attributes is bound to the tables of its bases. -/
structure Represents (m : Machine χ σ) (d : ClassDescriptor χ) (cls : Ref) : Prop where
  registered : m.Registered d.name cls
  table : ∃ T, m.heap.object? cls = some (.table T) ∧ d.Fills cls T ∧ ∃ reader name bases,
    T.field Registry.readName = .function reader ∧
    m.heap.object? reader = some (.function ⟨name, .readAttribute, (cls :: bases).map .table⟩) ∧
    List.Forall₂ m.Registered d.bases bases

/-- The classes of the machine are those of the history. What has the name of a class that is not installed is blank, and what has
the name of a metamethod does not say that it is a class. -/
structure Classes (ds : History χ) (m : Machine χ σ) : Prop extends m.Unshared True where
  ordered : ds.Ordered
  represented : ∀ d ∈ ds, d.name ∉ Registry.metamethods → ∃ cls, m.Represents d cls
  blank : ∀ name t, name ∉ Registry.reserved → (∀ d ∈ ds, d.name ≠ name) → m.Registered name t →
    m.heap.object? t = some (.table (.blank name))
  unmarked : ∀ name t, name ∈ Registry.metamethods → m.Registered name t →
    ∃ T, m.heap.object? t = some (.table T) ∧ T.field name ≠ .boolean true

variable {ds : History χ} {m m' : Machine χ σ} {d : ClassDescriptor χ} {cls t : Ref} {name : String}

theorem Represents.mark (h : m.Represents d cls) : m.classTable? d.name = some cls := by
  obtain ⟨R, hR, -⟩ := id h.registered
  obtain ⟨T, hT, hfills, -⟩ := h.table
  exact (classTable?_eq_some_iff hR).2 ⟨h.registered, T, hT, (hfills.mark _).2 rfl⟩

/-- The installed classes are those that the history has. -/
theorem Classes.classTable?_eq_some_iff (hm : m.Classes ds) (hname : name ∉ Registry.reserved) :
    m.classTable? name = some t ↔ ds.Has name ∧ m.Registered name t := by
  constructor
  · intro h
    obtain ⟨R, hR, -⟩ := hm.registry
    obtain ⟨ht, T, hT, hmark⟩ := (Machine.classTable?_eq_some_iff hR).1 h
    refine ⟨⟨fun hmeta => ?_, ?_⟩, ht⟩
    · obtain ⟨T', hT', hn⟩ := hm.unmarked name t hmeta ht
      cases hT.symm.trans hT'
      exact hn hmark
    · refine Classical.byContradiction fun hnone => ?_
      have hblank := hm.blank name t hname (fun d hd e => hnone ⟨d, hd, e⟩) ht
      cases hT.symm.trans hblank
      rw [Table.field, ClassDescriptor.get_blank] at hmark
      split at hmark <;> cases hmark
  · rintro ⟨⟨hmeta, d, hd, rfl⟩, ht⟩
    obtain ⟨cls, hcls⟩ := hm.represented d hd hmeta
    rw [ht.eq hcls.registered]
    exact hcls.mark

/-! ## What keeps the classes -/

/-- A class stays what it is on a machine that has the tables under the names of classes as they were, and what they read with. -/
theorem Represents.of_kept (h : m.Represents d cls) (hd : d.name ∉ Registry.reserved)
    (hbases : ∀ b ∈ d.bases, b ∉ Registry.reserved)
    (names : ∀ n s, n ∉ Registry.reserved → m.Registered n s → m'.Registered n s)
    (table : ∀ T, m.heap.object? cls = some (.table T) → d.Fills cls T → m'.heap.object? cls = some (.table T))
    (function : ∀ T r f, m.heap.object? cls = some (.table T) → d.Fills cls T → T.field Registry.readName = .function r →
      m.heap.object? r = some (.function f) → m'.heap.object? r = some (.function f)) : m'.Represents d cls := by
  obtain ⟨T, hT, hfills, reader, n, bases, hread, hreader, hb⟩ := h.table
  refine ⟨names _ _ hd h.registered, T, table T hT hfills, hfills, reader, n, bases, hread,
    function T reader _ hT hfills hread hreader, ?_⟩
  exact ((List.forall₂_and_left _ _).2 ⟨hbases, hb⟩).imp fun b s h => names b s h.1 h.2

/-- A base of a class has no name of the binding layer. -/
theorem Classes.base_not_reserved (hm : m.Classes ds) (hd : d ∈ ds) {b : String} (hb : b ∈ d.bases) :
    b ∉ Registry.reserved := by
  obtain ⟨-, e, he, rfl⟩ := hm.ordered.has_base hd hb
  exact hm.ordered.not_reserved he

/-- Where the tables of classes are closed, those under their names are not open. -/
theorem not_open_of_registered (hname : name ∉ Registry.reserved) (ht : m.Registered name t) : ¬m.Open True t :=
  fun h => h.2.2 ⟨trivial, name, hname, ht⟩

/-- What has a name that a class may have is what it was after an edit. -/
theorem Classes.object?_edit (hm : m.Classes ds) (h : m.Edit True m') (hname : name ∉ Registry.reserved)
    (ht : m.Registered name t) {T : Table} (hT : m.heap.object? t = some (.table T)) :
    m'.heap.object? t = some (.table T) :=
  h.object?_eq hT (hm.registered name t ht).1 (fun _ _ => not_open_of_registered hname ht) fun _ h => by cases h

theorem Classes.edit (hm : m.Classes ds) (h : m.Edit True m') : m'.Classes ds where
  toUnshared := h.unshared hm.toUnshared
  ordered := hm.ordered
  represented d hd hn := by
    obtain ⟨cls, hcls⟩ := hm.represented d hd hn
    have hreserved := hm.ordered.not_reserved hd
    refine ⟨cls, hcls.of_kept hreserved (fun b hb => hm.base_not_reserved hd hb) (fun n s hn => h.registered hn)
      (fun T hT _ => hm.object?_edit h hreserved hcls.registered hT) fun T r f _ _ _ hf => ?_⟩
    obtain ⟨R, hR, -⟩ := hm.registry
    refine h.object?_eq hf ?_ (fun _ h => by cases h) fun _ h => by cases h
    rintro rfl
    cases hR.symm.trans hf
  blank name t hname hnone ht := by
    rcases h.registered_of ht with ht | ⟨-, -, T, hT, hblank⟩
    · exact hm.object?_edit h hname ht (hm.blank name t hname hnone ht)
    · exact hblank hname ▸ hT
  unmarked name t hname ht := by
    have hreserved : ∀ n ∈ Registry.metamethods, n ∉ Registry.reserved := by decide
    rcases h.registered_of ht with ht | ⟨-, -, T, hT, hblank⟩
    · obtain ⟨T, hT, hn⟩ := hm.unmarked name t hname ht
      exact ⟨T, hm.object?_edit h (hreserved name hname) ht hT, hn⟩
    · refine ⟨T, hT, ?_⟩
      rw [hblank (hreserved name hname), Table.field, ClassDescriptor.get_blank]
      split <;> simp

theorem Classes.swept (hm : m.Classes ds) : m.swept.Classes ds where
  toUnshared := hm.toUnshared.swept
  ordered := hm.ordered
  represented d hd hn := by
    obtain ⟨cls, hcls⟩ := hm.represented d hd hn
    have hsurvives := hm.survives hcls.registered
    refine ⟨cls, hcls.of_kept (hm.ordered.not_reserved hd) (fun b hb => hm.base_not_reserved hd hb)
      (fun n s _ hs => (hm.swept_registered_iff n s).2 hs) (fun T hT hfills => ?_) fun T r f hT hfills hread hf => ?_⟩
    · rw [swept_table hsurvives hT, remaining_of_strong (hfills.strong hT)]
    · have hentry := Table.mem_of_find? (Table.find?_of_get hread nofun)
      exact swept_function (hsurvives.held (.value hT (hfills.strong hT 'v') hentry rfl) (Heap.contains_of_object? hf)) hf
  blank name t hname hnone ht := by
    have ht' := (hm.swept_registered_iff name t).1 ht
    rw [swept_table (hm.survives ht') (hm.blank name t hname hnone ht'), remaining_of_metatable_none (by rfl)]
  unmarked name t hname ht := by
    have ht' := (hm.swept_registered_iff name t).1 ht
    obtain ⟨T, hT, hn⟩ := hm.unmarked name t hname ht'
    refine ⟨_, swept_table (hm.survives ht') hT, ?_⟩
    rcases field_remaining (m := m) (hm.wellFormed.unique t T hT) name with h | h
    · rwa [h]
    · rw [h]
      nofun

/-- It is a matter of the heap. -/
theorem Classes.of_heap_eq (hm : m.Classes ds) (hheap : m'.heap = m.heap) (hregistry : m'.registry = m.registry)
    (hglobals : m'.globals = m.globals) : m'.Classes ds :=
  hm.edit (.still hheap hregistry hglobals)

theorem classes_start (limits : Limits) (host : σ) : (start limits host : Machine χ σ).Classes [] where
  toUnshared := unshared_start limits host
  ordered := .nil
  represented _ hd := nomatch hd
  blank name t _ _ ht := (not_registered_start limits host name t ht).elim
  unmarked name t _ ht := (not_registered_start limits host name t ht).elim

/-! ## What adds to the classes -/

/-- What is under another name is what it was when a class was installed. -/
theorem Installs.object?_of_registered {bases : List Ref} (h : m.Installs m' d cls bases) (hm : m.Unshared True)
    (hname : name ≠ d.name) (ht : m.Registered name t) {o : Object χ} (ho : m.heap.object? t = some o) :
    m'.heap.object? t = some o := by
  obtain ⟨T, methods, reader, writer, finalizer, hfounds, -⟩ := h.table
  exact h.toGrows.object?_of_registered hm hfounds hname ht ho

/-- Every name keeps its table when a class is installed. -/
theorem Installs.registered {bases : List Ref} (h : m.Installs m' d cls bases) (ht : m.Registered name t) :
    m'.Registered name t := by
  obtain ⟨T, methods, reader, writer, finalizer, hfounds, -⟩ := h.table
  exact h.toGrows.registered hfounds ht

/-- So is every function. -/
theorem Installs.function {bases : List Ref} (h : m.Installs m' d cls bases) (hm : m.Unshared True) {r : Ref}
    {f : NativeFunction χ} (hf : m.heap.object? r = some (.function f)) : m'.heap.object? r = some (.function f) := by
  obtain ⟨T, methods, reader, writer, finalizer, hfounds, -⟩ := h.table
  exact h.toGrows.function hm hfounds hf

/-- A class that is not in the history has a blank table when it is installed. -/
theorem Classes.blank_of_founds (hm : m.Classes ds) {T : Table} (h : m.Founds d.name cls T)
    (hreserved : d.name ∉ Registry.reserved) (hmeta : d.name ∉ Registry.metamethods) (hnew : ¬ds.Has d.name) :
    T = .blank d.name := by
  rcases h with ⟨hr, hT⟩ | ⟨-, -, hT⟩
  · have hblank := hm.blank d.name cls hreserved (fun e he hname => hnew ⟨hmeta, e, he, hname⟩) hr
    exact Object.table.inj (Option.some.inj (hT.symm.trans hblank))
  · exact hT

/-- The class that was installed is represented. -/
theorem Classes.represents_of_installs (hm : m.Classes ds) {bases : List Ref} (h : m.Installs m' d cls bases)
    (hreserved : d.name ∉ Registry.reserved) (hmeta : d.name ∉ Registry.metamethods) (hnew : ¬ds.Has d.name)
    (hself : ∀ b ∈ d.bases, b ≠ d.name) (hbases : List.Forall₂ m.Registered d.bases bases) : m'.Represents d cls := by
  obtain ⟨T, methods, reader, writer, finalizer, hfounds, hmethods, hT', ⟨n, hreader⟩, -⟩ := h.table
  rw [hm.blank_of_founds hfounds hreserved hmeta hnew] at hT'
  refine ⟨(h.names _ _).2 (Or.inl ⟨rfl, rfl⟩), _, hT', ClassDescriptor.fills_filled hmeta hmethods _ _ _, reader, n, bases, ?_,
    hreader, ?_⟩
  · rw [Table.field, ClassDescriptor.get_filled]
    rfl
  · exact ((List.forall₂_and_left _ _).2 ⟨hself, hbases⟩).imp fun b s hb => (h.names b s).2 (Or.inr hb)

/-- A class whose bases are installed is added to the history. -/
theorem Classes.installs (hm : m.Classes ds) {bases : List Ref} (h : m.Installs m' d cls bases)
    (hreserved : d.name ∉ Registry.reserved) (hnew : ¬ds.Has d.name) (hself : ∀ b ∈ d.bases, b ≠ d.name)
    (hhas : ∀ b ∈ d.bases, ds.Has b) (hbases : List.Forall₂ m.Registered d.bases bases) : m'.Classes (d :: ds) where
  toUnshared := h.unshared hm.toUnshared
  ordered := .cons hm.ordered hreserved hnew hhas
  represented e he hmeta := by
    rcases List.mem_cons.1 he with rfl | he
    · exact ⟨cls, hm.represents_of_installs h hreserved hmeta hnew hself hbases⟩
    · obtain ⟨t, ht⟩ := hm.represented e he hmeta
      have hname : e.name ≠ d.name := fun heq => hnew (heq ▸ ⟨hmeta, e, he, rfl⟩)
      exact ⟨t, ht.of_kept (hm.ordered.not_reserved he) (fun b hb => hm.base_not_reserved he hb) (fun _ _ _ hs => h.registered hs)
        (fun _ hT _ => h.object?_of_registered hm.toUnshared hname ht.registered hT)
        fun _ _ _ _ _ _ hf => h.function hm.toUnshared hf⟩
  blank name t hname hnone ht := by
    rcases (h.names name t).1 ht with ⟨rfl, -⟩ | ⟨hn, ht⟩
    · exact absurd rfl (hnone d List.mem_cons_self)
    · exact h.object?_of_registered hm.toUnshared hn ht (hm.blank name t hname (fun e he => hnone e (List.mem_cons_of_mem _ he)) ht)
  unmarked name t hname ht := by
    rcases (h.names name t).1 ht with ⟨rfl, rfl⟩ | ⟨hn, ht⟩
    · obtain ⟨T, methods, reader, writer, finalizer, -, -, hT, -⟩ := h.table
      refine ⟨_, hT, fun hmark => ?_⟩
      obtain ⟨R, hR, -⟩ := (h.unshared hm.toUnshared).registry
      have hinstalled := (Machine.classTable?_eq_some_iff hR).2 ⟨ht, _, hT, hmark⟩
      rw [h.classTable? hm.toUnshared, if_pos rfl, if_pos hname] at hinstalled
      cases hinstalled
    · obtain ⟨T, hT, hmark⟩ := hm.unmarked name t hname ht
      exact ⟨T, h.object?_of_registered hm.toUnshared hn ht hT, hmark⟩

/-- The bases of a class have the tables that are found for them. -/
theorem Classes.forall₂_registered (hm : m.Classes ds) {names : List String} (hfree : ∀ b ∈ names, b ∉ Registry.reserved)
    {bases : List Ref} (h : names.map m.classTable? = bases.map some) :
    (∀ b ∈ names, ds.Has b) ∧ List.Forall₂ m.Registered names bases := by
  induction names generalizing bases with
  | nil =>
    cases List.map_eq_nil_iff.1 h.symm
    exact ⟨nofun, .nil⟩
  | cons b rest ih =>
    obtain ⟨hb, hrest⟩ := List.forall_mem_cons.1 hfree
    cases bases with
    | nil => cases h
    | cons t ts =>
      obtain ⟨ht, hts⟩ := List.cons.inj h
      obtain ⟨hhas, hr⟩ := (hm.classTable?_eq_some_iff hb).1 ht
      obtain ⟨hall, hforall⟩ := ih hrest hts
      exact ⟨List.forall_mem_cons.2 ⟨hhas, hall⟩, .cons hr hforall⟩

/-- Classes that are installed one after the other, after classes with the names listed, are added to the history. -/
theorem Classes.installEach {m₀ : Machine χ σ} {listed : List String} {classes : List (ClassDescriptor χ)} (hm : m.Classes ds)
    (hf : m₀.Follows listed m) (hc : m₀.checkClasses listed classes = .ok ())
    (hfree : ∀ d ∈ classes, ∀ b ∈ d.bases, b ∉ Registry.reserved)
    (h : ClassDescriptor.installEach classes m = (.ok (), m')) : m'.Classes (classes.reverse ++ ds) := by
  induction classes generalizing m ds listed with
  | nil =>
    cases h
    exact hm
  | cons d rest ih =>
    obtain ⟨hd, hrest⟩ := checkClasses_cons_eq_ok_iff.1 hc
    obtain ⟨-, hreserved, -, -, hbases⟩ := checkClass_eq_ok_iff.1 hd
    obtain ⟨hfreed, hfreerest⟩ := List.forall_mem_cons.1 hfree
    have hself : ∀ b ∈ d.bases, b ≠ d.name := fun b hb => (hbases b hb).1
    have hnew : ¬ds.Has d.name := by
      rintro hhas
      obtain ⟨hmeta, e, he, hname⟩ := id hhas
      obtain ⟨t, ht⟩ := hm.represented e he (hname ▸ hmeta)
      have hinstalled := (hm.classTable?_eq_some_iff hreserved).2 ⟨hhas, hname ▸ ht.registered⟩
      cases (hf.classTable?_eq_none hd).symm.trans hinstalled
    rcases hm.toUnshared.install_cases hself with ⟨cls, bases, m₁, hinstall, hinstalls, hmap⟩ | ⟨b, m₁, hinstall, -, -⟩
    · obtain ⟨hhas, hforall⟩ := hm.forall₂_registered hfreed hmap
      have hm₁ := hm.installs hinstalls hreserved hnew hself hhas hforall
      have hall := ih hm₁ (hf.install hm.toUnshared hinstalls) hrest hfreerest ((Action.bind_of_ok hinstall).symm.trans h)
      rwa [List.reverse_cons, List.append_assoc]
    · cases (Action.bind_of_error hinstall).symm.trans h

end Machine

/-! ## Machines built step by step -/

/-- The machines that can be built step by step, with the classes that were installed: from a new one by requests that call
nothing and write no class table by hand, by installing classes with success on bases that are no tables of the binding layer, by
what the class of a handle writes, and by the steps of calls and collections.

A table that the registry has under a name which is not one of the binding layer's own is taken for a class table here, whether
there is a class of that name or not, because a class that is installed under the name later on gets this very table. So native code
writes none of these by hand, gives none another metatable, and makes none an environment. Into the registry it writes no table of
its own, and there it replaces none. -/
inductive Built : History χ → Machine χ σ → Prop where
  | start (limits : Limits) (host : σ) : Built [] (.start limits host)
  | request {ds : History χ} {m : Machine χ σ} (hm : Built ds m) (c : Caller χ σ) (r : Request χ σ) (hr : r.IsSilent)
      (hspares : m.Spares True r) (hother : ∀ classes, r ≠ .installClasses classes) : Built ds (r.perform c m).2
  | install {ds : History χ} {m m' : Machine χ σ} (hm : Built ds m) {classes : List (ClassDescriptor χ)}
      (h : ClassDescriptor.installAll classes m = (.ok (), m'))
      (hfree : ∀ d ∈ classes, ∀ b ∈ d.bases, b ∉ Registry.reserved) : Built (classes.reverse ++ ds) m'
  | write {ds : History χ} {m : Machine χ σ} (hm : Built ds m) (call : Call) : Built ds (Attribute.write call m).2
  | enter {ds : History χ} {m : Machine χ σ} (hm : Built ds m) (f : Value) (args : List Value) : Built ds (m.enter f args)
  | leave {ds : History χ} {m : Machine χ σ} (hm : Built ds m) (height : Nat) : Built ds (m.leave height)
  | swept {ds : History χ} {m : Machine χ σ} (hm : Built ds m) : Built ds m.swept
  | queue {ds : History χ} {m : Machine χ σ} (hm : Built ds m) (rest : List Ref) : Built ds (m.queue rest)
  | finish {ds : History χ} {m : Machine χ σ} (hm : Built ds m) (s : Statistics) : Built ds (m.finish s)

namespace Machine

variable {ds : History χ} {m m' : Machine χ σ}

/-- What edits make has the same classes. -/
theorem Classes.edits (hm : m.Classes ds) (h : Relation.ReflTransGen (Edit True) m m') : m'.Classes ds := by
  induction h with
  | refl => exact hm
  | tail _ hedit ih => exact ih.edit hedit

/-- A list that is installed passed the check. -/
theorem Classes.installAll (hm : m.Classes ds) {classes : List (ClassDescriptor χ)}
    (h : ClassDescriptor.installAll classes m = (.ok (), m'))
    (hfree : ∀ d ∈ classes, ∀ b ∈ d.bases, b ∉ Registry.reserved) : m'.Classes (classes.reverse ++ ds) := by
  cases hc : m.checkClasses [] classes with
  | error e => cases (installAll_of_refused hc).symm.trans h
  | ok u =>
    rw [installAll_of_checked hc] at h
    exact hm.installEach (follows_nil m) hc hfree h

end Machine

/-- A machine that is built step by step has the classes that were installed. -/
theorem Built.classes {ds : History χ} {m : Machine χ σ} (hm : Built ds m) : m.Classes ds := by
  induction hm with
  | start limits host => exact Machine.classes_start limits host
  | request _ c r hr hspares hother ih =>
    exact ih.edits (Request.keeps_perform c hr (fun classes e => absurd e (hother classes)) _ ih.toUnshared hspares).2.1
  | install _ h hfree ih => exact ih.installAll h hfree
  | write _ call ih => exact ih.edit (ih.toUnshared.edit_write call)
  | enter _ f args ih => exact ih.of_heap_eq rfl rfl rfl
  | leave _ height ih => exact ih.of_heap_eq rfl rfl rfl
  | swept _ ih => exact ih.swept
  | queue _ rest ih => exact ih.of_heap_eq rfl rfl rfl
  | finish _ s ih => exact ih.of_heap_eq rfl rfl rfl

/-- On a machine that is built step by step the installed classes are those that were installed, except those with the name of a
metamethod. -/
theorem Built.isInstalled_iff {ds : History χ} {m : Machine χ σ} (hm : Built ds m) {name : String}
    (hname : name ∉ Registry.reserved) : m.isInstalled name = true ↔ ds.Has name := by
  have hc := hm.classes
  rw [Machine.isInstalled_iff]
  constructor
  · rintro ⟨t, ht⟩
    exact ((hc.classTable?_eq_some_iff hname).1 ht).1
  · intro h
    obtain ⟨hmeta, d, hd, rfl⟩ := id h
    obtain ⟨t, ht⟩ := hc.represented d hd hmeta
    exact ⟨t, ht.mark⟩

/-- Native code that writes no class table by hand builds machines step by step. -/
theorem stable_built : Stable (fun m : Machine χ σ => ∃ ds, Built ds m) (Machine.Spares True) where
  silent c m r hr hm hspares := by
    obtain ⟨ds, hm⟩ := hm
    by_cases hother : ∀ classes, r ≠ .installClasses classes
    · exact ⟨ds, hm.request c r hr hspares hother⟩
    · simp only [ne_eq, not_forall, not_not] at hother
      obtain ⟨classes, rfl⟩ := hother
      rcases hspares trivial with h | ⟨h, hfree⟩
      · refine ⟨ds, ?_⟩
        show Built ds (ClassDescriptor.installAll classes m).2
        rwa [h]
      · exact ⟨_, hm.install (h ▸ rfl) hfree⟩
  written m call hm := ⟨_, hm.choose_spec.write call⟩
  lands m target key v t hm hspares ht :=
    ⟨_, hm.choose_spec.request (fun _ _ => Action.fail .overflow) (.rawSet t key v) trivial (hspares t ht) nofun⟩
  swept m hm _ := ⟨_, hm.choose_spec.swept⟩
  queue _ _ _ m rest hm := ⟨_, hm.choose_spec.queue rest⟩
  finish _ _ _ m s hm := ⟨_, hm.choose_spec.finish s⟩

/-- So every machine of a run in which it does is built step by step. -/
theorem Reached.built {Γ : Host χ σ} (hΓ : Γ.Lawful (Machine.Spares True) (fun m => ∃ ds, Built ds m)) {m : Machine χ σ}
    (hm : Reached Γ (Machine.Spares True) m) : ∃ ds, Built ds m :=
  hm.keep stable_built (fun _ _ _ => trivial) hΓ (fun limits host => ⟨_, .start limits host⟩)
    (fun _ f args _ h _ => ⟨_, h.choose_spec.enter f args⟩) fun _ height h => ⟨_, h.choose_spec.leave height⟩

end ScriptHost

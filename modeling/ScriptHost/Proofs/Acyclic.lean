import Mathlib.Algebra.Order.BigOperators.Group.List
import Mathlib.Algebra.Order.Group.Nat
import ScriptHost.Proofs.Classes

/-!
# Bases without cycles

The function under `__index` of a class table has the tables of the bases bound to it, after the class table itself
(`Machine.HasBase`). A base says that it is installed, and what is installed is not installed again, so nothing that is a base of
something gets new bases: the names can be ranked with each base below what it is a base of (`Machine.Ranked`). That also goes for
what an installing that fails half way leaves behind: a table that says that it is installed, but has the bases that it had
before, or none. So no class is its own base, directly or through others (`bases_acyclic`).
-/

namespace ScriptHost

variable {χ σ : Type}

namespace Machine

/-- The tables bound to the function under `__index` of a table, after the first value. -/
def captured (m : Machine χ σ) (t : Ref) : List Ref :=
  match m.rawField t Registry.readName with
  | .ok (.function f) =>
    match m.heap.function f with
    | .ok function => (function.upvalues.drop 1).filterMap Value.table?
    | .error _ => []
  | _ => []

/-- The first table is that of a class, installed or not, and the second one is a base of it. -/
def HasBase (m : Machine χ σ) (t b : Ref) : Prop := (∃ name, name ∉ Registry.reserved ∧ m.Registered name t) ∧ b ∈ m.captured t

/-- The table under the name says that the class is installed. -/
def Says (m : Machine χ σ) (name : String) (t : Ref) : Prop :=
  ∃ T, m.heap.object? t = some (.table T) ∧ T.field name = .boolean true

/-- What a class of the rank of the name may have as a base: if it has the name of a class, then that of an installed one with a
lower rank. -/
def Under (m : Machine χ σ) (rank : String → Nat) (name : String) (b : Ref) : Prop :=
  m.heap.contains b = true ∧ ∀ n, n ∉ Registry.reserved → m.Registered n b → m.Says n b ∧ rank n < rank name

/-- The table is that of a class, complete or not: it has no metatable but itself, and a text nowhere but under `__name`. If
there is a function under `__index`, it is there, and its bases are under the name. -/
structure Frames (m : Machine χ σ) (rank : String → Nat) (name : String) (t : Ref) (T : Table) : Prop where
  metatable : T.metatable = none ∨ T.metatable = some t
  texts : ∀ n s, T.field n = .string s → n = "__name"
  reader : ∀ f, T.field Registry.readName = .function f →
    ∃ function, m.heap.object? f = some (.function function) ∧ ∀ b, .table b ∈ function.upvalues.drop 1 → m.Under rank name b

/-- What has the name of a class is the table of a class, with bases of lower ranks. -/
structure Ranked (rank : String → Nat) (m : Machine χ σ) : Prop extends m.Unshared True where
  frames : ∀ name t, name ∉ Registry.reserved → m.Registered name t →
    ∃ T, m.heap.object? t = some (.table T) ∧ m.Frames rank name t T

variable {m m' : Machine χ σ} {rank rank' : String → Nat} {name n : String} {t b cls : Ref} {T : Table}

theorem exists_of_mem_captured (h : b ∈ m.captured t) :
    ∃ T f function, m.heap.object? t = some (.table T) ∧ T.field Registry.readName = .function f ∧
      m.heap.object? f = some (.function function) ∧ .table b ∈ function.upvalues.drop 1 := by
  unfold captured rawField at h
  cases hT : m.heap.table t with
  | error e => simp [hT] at h
  | ok T =>
    simp only [hT] at h
    split at h
    · rename_i f hread
      cases hf : m.heap.function f with
      | error e => simp [hf] at h
      | ok function =>
        simp only [hf, List.mem_filterMap] at h
        obtain ⟨v, hv, hb⟩ := h
        refine ⟨T, f, function, Heap.table_eq_ok_iff.1 hT, Except.ok.inj hread, Heap.function_eq_ok_iff.1 hf, ?_⟩
        cases v <;> cases hb
        exact hv
    · cases h

/-! ## Ranks exclude cycles -/

/-- A base that has the name of a class has a lower rank. -/
theorem Ranked.lt_of_hasBase (hm : m.Ranked rank) (h : m.HasBase t b) (hname : name ∉ Registry.reserved) (ht : m.Registered name t)
    (hn : n ∉ Registry.reserved) (hb : m.Registered n b) : rank n < rank name := by
  obtain ⟨T, f, function, hT, hread, hf, hmem⟩ := exists_of_mem_captured h.2
  obtain ⟨T', hT', hframes⟩ := hm.frames name t hname ht
  cases hT.symm.trans hT'
  obtain ⟨function', hf', hunder⟩ := hframes.reader f hread
  cases hf.symm.trans hf'
  exact ((hunder b hmem).2 n hn hb).2

/-- So has whatever is a base through others. -/
theorem Ranked.lt_of_transGen (hm : m.Ranked rank) (h : Relation.TransGen m.HasBase t b) (hname : name ∉ Registry.reserved)
    (ht : m.Registered name t) (hn : n ∉ Registry.reserved) (hb : m.Registered n b) : rank n < rank name := by
  induction h generalizing n with
  | single h => exact hm.lt_of_hasBase h hname ht hn hb
  | tail _ h ih =>
    obtain ⟨n', hn', hb'⟩ := h.1
    exact Nat.lt_trans (hm.lt_of_hasBase h hn' hb' hn hb) (ih hn' hb')

theorem Ranked.acyclic (hm : m.Ranked rank) (t : Ref) : ¬Relation.TransGen m.HasBase t t := by
  intro h
  obtain ⟨b, ⟨⟨name, hname, ht⟩, -⟩, -⟩ := Relation.TransGen.head'_iff.1 h
  exact Nat.lt_irrefl _ (hm.lt_of_transGen h hname ht hname ht)

/-! ## What keeps the ranks -/

theorem frames_blank (rank : String → Nat) (name : String) (t : Ref) : m.Frames rank name t (.blank name) := by
  have hfield : ∀ n, (Table.blank name).field n = if n = "__name" then .string name else .nil := by
    intro n
    rw [Table.field, ClassDescriptor.get_blank]
    simp only [Key.string.injEq]
  refine ⟨Or.inl rfl, fun n s h => ?_, fun f h => ?_⟩
  · rw [hfield] at h
    split at h
    · assumption
    · cases h
  · rw [hfield] at h
    split at h <;> cases h

theorem ranked_start (limits : Limits) (host : σ) : (start limits host : Machine χ σ).Ranked rank where
  toUnshared := unshared_start limits host
  frames name t _ ht := (not_registered_start limits host name t ht).elim

/-- A table of a class stays one if what it reads with stays, and its bases. -/
theorem Frames.of_kept (h : m.Frames rank name t T)
    (function : ∀ f function, T.field Registry.readName = .function f → m.heap.object? f = some (.function function) →
      m'.heap.object? f = some (.function function))
    (under : ∀ b, m.Under rank name b → m'.Under rank' name b) : m'.Frames rank' name t T := by
  refine ⟨h.metatable, h.texts, fun f hf => ?_⟩
  obtain ⟨g, hg, hall⟩ := h.reader f hf
  exact ⟨g, function f g hf hg, fun b hb => under b (hall b hb)⟩

/-- What has the name of a class is what it was after an edit. -/
theorem Unshared.object?_edit (hm : m.Unshared True) (h : m.Edit True m') (hname : name ∉ Registry.reserved)
    (ht : m.Registered name t) (hT : m.heap.object? t = some (.table T)) : m'.heap.object? t = some (.table T) :=
  h.object?_eq hT (hm.registered name t ht).1 (fun _ _ => not_open_of_registered hname ht) nofun

/-- So is a function. -/
theorem Unshared.function_edit (hm : m.Unshared True) (h : m.Edit True m') {f : Ref} {function : NativeFunction χ}
    (hf : m.heap.object? f = some (.function function)) : m'.heap.object? f = some (.function function) := by
  obtain ⟨R, hR, -⟩ := hm.registry
  refine h.object?_eq hf ?_ nofun nofun
  rintro rfl
  cases hR.symm.trans hf

theorem Unshared.under_edit (hm : m.Unshared True) (h : m.Edit True m') (hb : m.Under rank name b) : m'.Under rank name b := by
  refine ⟨h.contains hb.1, fun n hn hr => ?_⟩
  rcases h.registered_of hr with hr | ⟨hfresh, -⟩
  · obtain ⟨⟨B, hB, hmark⟩, hlt⟩ := hb.2 n hn hr
    exact ⟨⟨B, hm.object?_edit h hn hr hB, hmark⟩, hlt⟩
  · exact absurd hb.1 hfresh

theorem Ranked.edit (hm : m.Ranked rank) (h : m.Edit True m') : m'.Ranked rank where
  toUnshared := h.unshared hm.toUnshared
  frames name t hname ht := by
    rcases h.registered_of ht with ht | ⟨-, -, T, hT, hblank⟩
    · obtain ⟨T, hT, hframes⟩ := hm.frames name t hname ht
      exact ⟨T, hm.object?_edit h hname ht hT,
        hframes.of_kept (fun f g _ hf => hm.function_edit h hf) fun b hb => hm.under_edit h hb⟩
    · exact ⟨T, hT, hblank hname ▸ frames_blank rank name t⟩

theorem Ranked.edits (hm : m.Ranked rank) (h : Relation.ReflTransGen (Edit True) m m') : m'.Ranked rank := by
  induction h with
  | refl => exact hm
  | tail _ hedit ih => exact ih.edit hedit

/-- It is a matter of the heap. -/
theorem Ranked.of_heap_eq (hm : m.Ranked rank) (hheap : m'.heap = m.heap) (hregistry : m'.registry = m.registry)
    (hglobals : m'.globals = m.globals) : m'.Ranked rank :=
  hm.edit (.still hheap hregistry hglobals)

/-- The table of a class holds nothing weakly. -/
theorem Frames.strong (h : m.Frames rank name t T) (hT : m.heap.object? t = some (.table T)) (letter : Char) :
    ¬m.heap.ModeSays T letter := by
  rcases h.metatable with hnone | hself
  · exact Heap.not_modeSays_of_metatable_none hnone letter
  · exact Heap.not_modeSays_of_self hT hself (fun _ hmode => absurd (h.texts _ _ hmode) (by decide)) letter

/-- It is what it was after a sweep. -/
theorem Ranked.object?_swept (hm : m.Ranked rank) (hname : name ∉ Registry.reserved) (ht : m.Registered name t)
    (hT : m.heap.object? t = some (.table T)) : m.swept.heap.object? t = some (.table T) := by
  obtain ⟨T', hT', hframes⟩ := hm.frames name t hname ht
  cases hT.symm.trans hT'
  rw [swept_table (hm.survives ht) hT, remaining_of_strong (hframes.strong hT)]

theorem Ranked.swept (hm : m.Ranked rank) : m.swept.Ranked rank where
  toUnshared := hm.toUnshared.swept
  frames name t hname ht := by
    have ht' := (hm.swept_registered_iff name t).1 ht
    obtain ⟨T, hT, hframes⟩ := hm.frames name t hname ht'
    refine ⟨T, hm.object?_swept hname ht' hT, hframes.metatable, hframes.texts, fun f hread => ?_⟩
    obtain ⟨function, hf, hall⟩ := hframes.reader f hread
    have hentry := Table.mem_of_find? (Table.find?_of_get hread nofun)
    have hsurvives : m.Survives f :=
      (hm.survives ht').held (.value hT (hframes.strong hT 'v') hentry rfl) (Heap.contains_of_object? hf)
    refine ⟨function, swept_function hsurvives hf, fun b hb => ?_⟩
    obtain ⟨hc, hunder⟩ := hall b hb
    refine ⟨contains_swept_iff.2 (hsurvives.held (.upvalue hf (List.mem_of_mem_drop hb) rfl) hc), fun n hn hr => ?_⟩
    have hr' := (hm.swept_registered_iff n b).1 hr
    obtain ⟨⟨B, hB, hmark⟩, hlt⟩ := hunder n hn hr'
    exact ⟨⟨B, hm.object?_swept hn hr' hB, hmark⟩, hlt⟩

/-! ## What installing does to the ranks -/

/-- What the table under a name says is that the class is installed. -/
theorem Unshared.classTable?_of_marked (hm : m.Unshared True) (ht : m.Registered name t) (hmark : m.Says name t) :
    m.classTable? name = some t := by
  obtain ⟨R, hR, -⟩ := hm.registry
  exact (classTable?_eq_some_iff hR).2 ⟨ht, hmark⟩

/-- A class that is not installed is a base of nothing, so it may have a higher rank. -/
theorem Ranked.raise (hm : m.Ranked rank) (hnew : m.classTable? name = none) (hrank : ∀ n ≠ name, rank' n = rank n)
    (hle : ∀ n, rank n ≤ rank' n) : m.Ranked rank' where
  toUnshared := hm.toUnshared
  frames n t hn ht := by
    obtain ⟨T, hT, hframes⟩ := hm.frames n t hn ht
    refine ⟨T, hT, hframes.of_kept (fun _ _ _ hf => hf) fun b hb => ⟨hb.1, fun n' hn' hr => ?_⟩⟩
    obtain ⟨hmark, hlt⟩ := hb.2 n' hn' hr
    have hne : n' ≠ name := by
      rintro rfl
      cases hnew.symm.trans (hm.classTable?_of_marked hr hmark)
    rw [hrank n' hne]
    exact ⟨hmark, Nat.lt_of_lt_of_le hlt (hle n)⟩

/-- It may have one that is higher than those of its bases. -/
theorem Ranked.exists_raised (hm : m.Ranked rank) (hnew : m.classTable? name = none) {bases : List String}
    (hself : ∀ b ∈ bases, b ≠ name) : ∃ rank', m.Ranked rank' ∧ ∀ b ∈ bases, rank' b < rank' name := by
  have hother : ∀ n ≠ name, Function.update rank name (rank name + (bases.map rank).sum + 1) n = rank n :=
    fun n hn => Function.update_of_ne hn _ _
  refine ⟨_, hm.raise hnew hother fun n => ?_, fun b hb => ?_⟩
  · by_cases hn : n = name
    · subst hn
      rw [Function.update_self]
      omega
    · exact Nat.le_of_eq (hother n hn).symm
  · have hle := List.le_sum_of_mem (List.mem_map_of_mem (f := rank) hb)
    rw [hother b (hself b hb), Function.update_self]
    omega

/-- What was under a name is under it when a class that is not installed has got a table of its own. -/
theorem Under.grows (hb : m.Under rank n b) (hm : m.Unshared True) (h : m.Grows m' name cls) (hfounds : m.Founds name cls T)
    (hname : name ∉ Registry.reserved) (hnew : m.classTable? name = none) (hcls : ∃ T', m'.heap.object? cls = some (.table T')) :
    m'.Under rank n b := by
  obtain ⟨T', hT'⟩ := hcls
  refine ⟨h.contains (Heap.contains_of_object? hT') hb.1, fun n' hn' hr => ?_⟩
  rcases (h.names n' b).1 hr with ⟨rfl, rfl⟩ | ⟨hne, hr⟩
  · rcases hfounds with ⟨hr, -⟩ | ⟨-, hfresh, -⟩
    · cases hnew.symm.trans (hm.classTable?_of_marked hr (hb.2 _ hname hr).1)
    · exact absurd hb.1 hfresh
  · obtain ⟨⟨B, hB, hmark⟩, hlt⟩ := hb.2 n' hn' hr
    exact ⟨⟨B, h.object?_of_registered hm hfounds hne hr hB, hmark⟩, hlt⟩

/-- A class that is not installed may get any table of a class, with bases under its name. -/
theorem Ranked.grows (hm : m.Ranked rank) (h : m.Grows m' name cls) (hfounds : m.Founds name cls T)
    (hname : name ∉ Registry.reserved) (hnew : m.classTable? name = none) {T' : Table}
    (hT' : m'.heap.object? cls = some (.table T')) (hframes : m'.Frames rank name cls T') : m'.Ranked rank where
  toUnshared := h.unshared hm.toUnshared hfounds ⟨T', hT'⟩
  frames n t hn ht := by
    rcases (h.names n t).1 ht with ⟨rfl, rfl⟩ | ⟨hne, ht⟩
    · exact ⟨T', hT', hframes⟩
    · obtain ⟨S, hS, hS'⟩ := hm.frames n t hn ht
      exact ⟨S, h.object?_of_registered hm.toUnshared hfounds hne ht hS,
        hS'.of_kept (fun f g _ hf => h.function hm.toUnshared hfounds hf)
          fun b hb => hb.grows hm.toUnshared h hfounds hname hnew ⟨T', hT'⟩⟩

/-- What the table of a class is made of is a table of a class, while it grows too. -/
theorem Ranked.frames_of_founds (hm : m.Ranked rank) (h : m.Grows m' name cls) (hfounds : m.Founds name cls T)
    (hname : name ∉ Registry.reserved) (hnew : m.classTable? name = none) (hcls : ∃ T', m'.heap.object? cls = some (.table T')) :
    m'.Frames rank name cls T := by
  rcases id hfounds with ⟨hr, hT⟩ | ⟨-, -, rfl⟩
  · obtain ⟨T', hT', hframes⟩ := hm.frames name cls hname hr
    cases hT.symm.trans hT'
    exact hframes.of_kept (fun f g _ hf => h.function hm.toUnshared hfounds hf)
      fun b hb => hb.grows hm.toUnshared h hfounds hname hnew hcls
  · exact frames_blank rank name cls

end Machine

/-- Functions put under their names leave the metatable. -/
theorem Table.metatable_putAll (T : Table) (methods : List (String × Ref)) : (T.putAll methods).metatable = T.metatable := by
  induction methods generalizing T with
  | nil => rfl
  | cons e rest ih => exact (ih _).trans (Table.metatable_set _ _ _)

namespace Machine

variable {m m' : Machine χ σ} {rank rank' : String → Nat} {name n : String} {t b cls : Ref} {T : Table}
  {entries : List (String × χ)} {methods : List (String × Ref)} {d : ClassDescriptor χ}

/-- A function made for a method has nothing bound to it. -/
theorem exists_of_isMethod (h : List.Forall₂ (m.IsMethod name) entries methods) {e : String × Ref} (he : e ∈ methods) :
    ∃ function, m.heap.object? e.2 = some (.function function) ∧ function.upvalues = [] := by
  induction h with
  | nil => cases he
  | cons h _ ih =>
    rcases List.mem_cons.1 he with rfl | he
    · exact ⟨_, h.2, rfl⟩
    · exact ih he

/-- The methods and the mark of a class leave its table that of a class. -/
theorem Frames.prepared (h : m.Frames rank name cls T)
    (hmethods : ∀ e ∈ methods, ∃ function, m.heap.object? e.2 = some (.function function) ∧ function.upvalues = []) :
    m.Frames rank name cls ((T.putAll methods).set (.string name) (.boolean true)) := by
  have hfield : ∀ n v, ((T.putAll methods).set (.string name) (.boolean true)).field n = v →
      v = .boolean true ∨ (∃ e ∈ methods, v = .function e.2) ∨ T.field n = v := by
    rintro n v rfl
    rw [Table.field, Table.get_set]
    split
    · exact Or.inl rfl
    · rcases T.get_putAll methods (.string n) with ⟨e, he, -, hget⟩ | ⟨-, hget⟩
      · exact Or.inr (Or.inl ⟨e, he, hget⟩)
      · exact Or.inr (Or.inr hget.symm)
  refine ⟨?_, fun n s hs => ?_, fun f hf => ?_⟩
  · rw [Table.metatable_set, Table.metatable_putAll]
    exact h.metatable
  · rcases hfield n _ hs with hv | ⟨e, -, hv⟩ | hv
    · cases hv
    · cases hv
    · exact h.texts n s hv
  · rcases hfield _ _ hf with hv | ⟨e, he, hv⟩ | hv
    · cases hv
    · cases hv
      obtain ⟨function, hfunction, hempty⟩ := hmethods e he
      exact ⟨function, hfunction, fun b hb => by simp [hempty] at hb⟩
    · exact h.reader f hv

/-- So do its metamethods, if the bases that are bound to the one that reads are under the name. -/
theorem Frames.filled (h : m.Frames rank name cls T)
    (hmethods : ∀ e ∈ methods, ∃ function, m.heap.object? e.2 = some (.function function) ∧ function.upvalues = [])
    {reader writer finalizer : Ref} {bases : List Ref}
    (hreader : ∃ n, m.heap.object? reader = some (.function ⟨n, .readAttribute, (cls :: bases).map .table⟩))
    (hbases : ∀ b ∈ bases, m.Under rank name b) :
    m.Frames rank name cls (ClassDescriptor.filled name T cls methods reader writer finalizer) := by
  have hprepared := h.prepared hmethods
  refine ⟨Or.inr rfl, fun n s hs => ?_, fun f hf => ?_⟩
  · rw [Table.field, ClassDescriptor.get_filled, ← Table.get_set (T.putAll methods)] at hs
    split at hs
    · cases hs
    split at hs
    · cases hs
    split at hs
    · cases hs
    · exact hprepared.texts n s hs
  · rw [Table.field, ClassDescriptor.get_filled, if_neg (by decide), if_neg (by decide), if_pos rfl] at hf
    cases hf
    obtain ⟨n, hreader⟩ := hreader
    refine ⟨_, hreader, fun b hb => hbases b ?_⟩
    simpa using hb

/-- The table that is found for a base of a lower rank is under the name. -/
theorem Ranked.under_of_classTable? (hm : m.Ranked rank) {base : String} (hb : m.classTable? base = some b)
    (hlt : rank base < rank name) : m.Under rank name b := by
  obtain ⟨R, hR, -⟩ := hm.registry
  obtain ⟨hr, B, hB, hmark⟩ := (classTable?_eq_some_iff hR).1 hb
  refine ⟨Heap.contains_of_object? hB, fun n _ hn => ?_⟩
  cases hm.single n base b hn hr
  exact ⟨⟨B, hB, hmark⟩, hlt⟩

/-- A class that is not installed leaves the names ranked when it is installed, and also when that fails half way. -/
theorem Ranked.install (hm : m.Ranked rank) (hname : d.name ∉ Registry.reserved) (hnew : m.classTable? d.name = none)
    (hself : ∀ b ∈ d.bases, b ≠ d.name) : ∃ rank', (d.install m).2.Ranked rank' := by
  obtain ⟨rank', hm, hlt⟩ := hm.exists_raised hnew hself
  obtain ⟨cls, T, methods, m₁, hinstall, hfounds, hmethods, hgrown, hT⟩ := hm.exists_prepare d
  rw [hinstall]
  refine ⟨rank', ?_⟩
  rcases m₁.baseTables_cases d.bases with ⟨bases, hbases, hmap⟩ | ⟨b, -, herror, -⟩
  · obtain ⟨m', hcomplete, hinstalls⟩ := hgrown.exists_complete hm.toUnshared hfounds hmethods hT hbases
    rw [hcomplete]
    obtain ⟨T, methods, reader, writer, finalizer, hfounds, -, hT', hreader, -, hequips⟩ := hinstalls.table
    have hgrown' := hinstalls.toGrows
    refine hm.grows hgrown' hfounds hname hnew hT' ?_
    refine (hm.frames_of_founds hgrown' hfounds hname hnew ⟨_, hT'⟩).filled (fun e he => exists_of_isMethod hequips.method he)
      hreader fun b hb => ?_
    obtain ⟨base, hbase, hfound⟩ : ∃ base ∈ d.bases, m₁.classTable? base = some b :=
      List.mem_map.1 (hmap ▸ List.mem_map_of_mem hb)
    rw [hgrown.classTable? hm.toUnshared ‹_› (hself base hbase)] at hfound
    exact (hm.under_of_classTable? hfound (hlt base hbase)).grows hm.toUnshared hgrown' hfounds hname hnew ⟨_, hT'⟩
  · rw [complete_of_missing herror]
    exact hm.grows hgrown hfounds hname hnew hT
      ((hm.frames_of_founds hgrown hfounds hname hnew ⟨_, hT⟩).prepared fun e he => exists_of_isMethod hmethods he)

/-- So do classes that are installed one after the other, after classes with the names listed, wherever that ends. -/
theorem Ranked.installEach {m₀ : Machine χ σ} {listed : List String} {classes : List (ClassDescriptor χ)} (hm : m.Ranked rank)
    (hf : m₀.Follows listed m) (hc : m₀.checkClasses listed classes = .ok ()) :
    ∃ rank', (ClassDescriptor.installEach classes m).2.Ranked rank' := by
  induction classes generalizing m rank listed with
  | nil => exact ⟨rank, hm⟩
  | cons d rest ih =>
    obtain ⟨hd, hrest⟩ := checkClasses_cons_eq_ok_iff.1 hc
    obtain ⟨-, hreserved, -, -, hbases⟩ := checkClass_eq_ok_iff.1 hd
    have hself : ∀ b ∈ d.bases, b ≠ d.name := fun b hb => (hbases b hb).1
    obtain ⟨rank', hranked⟩ := hm.install hreserved (hf.classTable?_eq_none hd) hself
    rcases hm.toUnshared.install_cases hself with ⟨cls, bases, m₁, hinstall, hinstalls, -⟩ | ⟨b, m₁, hinstall, -, -⟩
    · rw [hinstall] at hranked
      have hall := ih hranked (hf.install hm.toUnshared hinstalls) hrest
      have heq : ClassDescriptor.installEach (d :: rest) m = ClassDescriptor.installEach rest m₁ := Action.bind_of_ok hinstall
      rwa [heq]
    · rw [hinstall] at hranked
      have heq : ClassDescriptor.installEach (d :: rest) m = (.error (.configuration d.name (.missingBase b)), m₁) :=
        Action.bind_of_error hinstall
      rw [heq]
      exact ⟨rank', hranked⟩

/-- Whatever list of classes is to be installed, the names can be ranked afterwards. -/
theorem Ranked.installAll (hm : m.Ranked rank) (classes : List (ClassDescriptor χ)) :
    ∃ rank', (ClassDescriptor.installAll classes m).2.Ranked rank' := by
  cases hc : m.checkClasses [] classes with
  | error e =>
    rw [installAll_of_refused hc]
    exact ⟨rank, hm⟩
  | ok u =>
    rw [installAll_of_checked hc]
    exact hm.installEach (follows_nil m) hc

/-- The request leaves the registry and the tables of classes to the binding layer. Any classes may be installed, with success or
not. -/
def SparesClasses (m : Machine χ σ) (r : Request χ σ) : Prop := (∃ classes, r = .installClasses classes) ∨ m.Spares True r

end Machine

/-! ## Runs -/

variable {Γ : Host χ σ}

/-- Native code that leaves the tables of classes to the binding layer leaves the names ranked. -/
theorem stable_ranked : Stable (fun m : Machine χ σ => ∃ rank, m.Ranked rank) Machine.SparesClasses where
  silent c m r hr hm hspares := by
    obtain ⟨rank, hm⟩ := hm
    by_cases hclasses : ∃ classes, r = .installClasses classes
    · obtain ⟨classes, rfl⟩ := hclasses
      exact hm.installAll classes
    · have hkeeps : (Machine.edits True).Keeps (fun m => m.Spares True r) (r.perform c) fun _ _ => True :=
        Request.keeps_perform c hr fun classes e => absurd ⟨classes, e⟩ hclasses
      exact ⟨rank, hm.edits (hkeeps m hm.toUnshared (hspares.resolve_left hclasses)).2.1⟩
  written m call := fun ⟨rank, hm⟩ => ⟨rank, hm.edit (hm.toUnshared.edit_write call)⟩
  lands m target key v t := fun ⟨rank, hm⟩ hspares ht => by
    rcases hspares with ⟨classes, h⟩ | hspares
    · cases h
    · exact ⟨rank, hm.edit (hm.toUnshared.edit_rawSet (hspares t ht))⟩
  swept m := fun ⟨rank, hm⟩ _ => ⟨rank, hm.swept⟩
  queue _ _ _ m rest := fun ⟨rank, hm⟩ => ⟨rank, hm.of_heap_eq rfl rfl rfl⟩
  finish _ _ _ m s := fun ⟨rank, hm⟩ => ⟨rank, hm.of_heap_eq rfl rfl rfl⟩

theorem Reached.ranked (hΓ : Γ.Lawful Machine.SparesClasses fun m => ∃ rank, m.Ranked rank) {m : Machine χ σ}
    (hm : Reached Γ Machine.SparesClasses m) : ∃ rank, m.Ranked rank :=
  hm.keep stable_ranked (fun _ _ _ => Or.inr trivial) hΓ (fun limits host => ⟨fun _ => 0, Machine.ranked_start limits host⟩)
    (fun _ _ _ _ ⟨rank, h⟩ _ => ⟨rank, h.of_heap_eq rfl rfl rfl⟩) fun _ _ ⟨rank, h⟩ => ⟨rank, h.of_heap_eq rfl rfl rfl⟩

/-- On every machine of a run in which native code writes neither the registry nor the tables of classes by hand, whatever lists of
classes are installed in it, with success or with a failure at any class, whatever handles are made and whenever collections
run: no class is a base of itself, directly or through others. -/
theorem bases_acyclic (hΓ : Γ.Lawful Machine.SparesClasses fun m => ∃ rank, m.Ranked rank) {m : Machine χ σ}
    (hm : Reached Γ Machine.SparesClasses m) (t : Ref) : ¬Relation.TransGen m.HasBase t t := by
  obtain ⟨rank, hranked⟩ := hm.ranked hΓ
  exact hranked.acyclic t

/-! ## A class that is a base although it was refused -/

/-- A new machine after a handle was made for a class, which is refused after its table was begun, after a collection, and after a
class was installed that has it as a base, next to a class with a base of its own. -/
def tangled : Machine Unit Unit :=
  let m := (Request.perform (call idleHost) (.wrap 0x10 "D") (.start .standard ())).2
  let m := (Request.perform (call idleHost) (.installClasses [⟨"A", .empty, []⟩, ⟨"B", .empty, ["A"]⟩]) m).2
  let m := (Request.perform (call idleHost) (.installClasses [metamethodClass, derivedClass]) m).2
  let m := (Request.perform (call idleHost) .collect m).2
  (Request.perform (call idleHost) (.installClasses [⟨"E", .empty, ["D", "B"]⟩]) m).2

theorem reached_tangled : Reached idleHost Machine.SparesClasses tangled :=
  ((((((Reached.start .standard ()).request (.wrap _ _) (Or.inr trivial)).request (.installClasses _) (Or.inl ⟨_, rfl⟩)).request
    (.installClasses _) (Or.inl ⟨_, rfl⟩)).request .collect (Or.inr trivial)).request (.installClasses _) (Or.inl ⟨_, rfl⟩))

/-- The class that was refused is a base, and no class of the machine is a base of itself. -/
theorem bases_acyclic_tangled :
    Registry.find? tangled "A" = some ⟨7, 0⟩ ∧ Registry.find? tangled "B" = some ⟨12, 0⟩ ∧
    Registry.find? tangled "D" = some ⟨6, 0⟩ ∧ Registry.find? tangled "E" = some ⟨5, 1⟩ ∧
    tangled.HasBase ⟨12, 0⟩ ⟨7, 0⟩ ∧ tangled.HasBase ⟨5, 1⟩ ⟨6, 0⟩ ∧ tangled.HasBase ⟨5, 1⟩ ⟨12, 0⟩ ∧
    ∀ t, ¬Relation.TransGen tangled.HasBase t t := by
  obtain ⟨rank, hm⟩ := reached_tangled.ranked lawful_idleHost
  have hb : Registry.find? tangled "B" = some ⟨12, 0⟩ := by decide +kernel
  have he : Registry.find? tangled "E" = some ⟨5, 1⟩ := by decide +kernel
  exact ⟨by decide +kernel, hb, by decide +kernel, he,
    ⟨⟨"B", by decide, hm.find?_eq_some_iff.1 hb⟩, by decide +kernel⟩,
    ⟨⟨"E", by decide, hm.find?_eq_some_iff.1 he⟩, by decide +kernel⟩,
    ⟨⟨"E", by decide, hm.find?_eq_some_iff.1 he⟩, by decide +kernel⟩,
    fun t => bases_acyclic lawful_idleHost reached_tangled t⟩

end ScriptHost

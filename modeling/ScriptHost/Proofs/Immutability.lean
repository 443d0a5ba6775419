import ScriptHost.Proofs.Installed
import ScriptHost.Proofs.Watched

/-!
# Class tables after registration

Nothing the binding layer does changes the table of a class that is installed: not installing other classes, with success or without,
nor wrapping, nor a collection that finds nothing weak in it. A write through metamethods changes it for one reason only. Its chain
stops at a table that has the key already, before the function of the class that would take over is asked for, so a write to the class
itself, or to anything that leads there, replaces a method or metamethod that the class has, while a new key is refused
(`class_table_lasts_iff`).
-/

namespace ScriptHost

variable {χ σ : Type} {closed : Prop}

/-- What is under a key of a table that is written depends on what was under the keys. -/
theorem Table.get_put_congr {T T' : Table} (h : ∀ k, T'.get k = T.get k) (key v : Value) (k : Key) :
    (T'.put key v).get k = (T.put key v).get k := by
  unfold Table.put
  cases Key.ofValue key with
  | error cause => exact h k
  | ok k' => rw [Table.get_set, Table.get_set, h]

/-- The table has something under the key. -/
def Table.Has (T : Table) (key : Value) : Prop := ∃ k, Key.ofValue key = .ok k ∧ T.get k ≠ .nil

theorem Table.metatable_put (T : Table) (key v : Value) : (T.put key v).metatable = T.metatable := by
  unfold Table.put
  cases Key.ofValue key with
  | error cause => rfl
  | ok k => exact Table.metatable_set T k v

namespace Machine

/-- The class has the table, with what it had when the class was installed and the metatable it had then, and the function that
reads its attributes is what it was, with what is bound to it. -/
structure Stands (m : Machine χ σ) (name : String) (t : Ref) (T : Table) (reader : Ref) (R : NativeFunction χ) : Prop where
  classTable? : m.classTable? name = some t
  table : ∃ T', m.heap.object? t = some (.table T') ∧ T'.metatable = T.metatable ∧ ∀ k, T'.get k = T.get k
  reader : m.heap.object? reader = some (.function R)

/-- What the event puts into the table is there already, and a collection takes nothing out of it. -/
structure Preserves (m : Machine χ σ) (t : Ref) (T : Table) (e : Event χ σ) : Prop where
  write : ∀ key v, e.written? m t = some (key, v) → ∀ k, (T.put key v).get k = T.get k
  sweep : e = .sweep → ∀ k, T.get k ≠ .nil → ¬m.Loses T (k, T.get k)

variable {m m' : Machine χ σ} {name : String} {t reader : Ref} {T T' : Table} {R : NativeFunction χ} {e : Event χ σ}
  {es : List (Event χ σ)}

theorem preserves_of_not_written (h : e.written? m t = none) (hsweep : e ≠ .sweep) : m.Preserves t T e := by
  refine ⟨fun key v hw => ?_, fun he => absurd he hsweep⟩
  cases h.symm.trans hw

theorem preserves_sweep_iff : m.Preserves t T .sweep ↔ ∀ k, T.get k ≠ .nil → ¬m.Loses T (k, T.get k) := by
  refine ⟨fun h => h.sweep rfl, fun h => ⟨fun key v hw => ?_, fun _ => h⟩⟩
  cases hw

/-! ## Collections -/

/-- A collection takes the same out of tables with one metatable. -/
theorem loses_congr (h : T'.metatable = T.metatable) (e : Key × Value) : m.Loses T' e ↔ m.Loses T e := by
  unfold Loses Heap.ModeSays
  rw [h]

/-- A table that loses no entry to a collection has what it had. -/
theorem get_remaining (hT : T.Unique) (hkept : ∀ k, T.get k ≠ .nil → ¬m.Loses T (k, T.get k)) (k : Key) :
    Table.get { T with entries := m.remaining T } k = T.get k := by
  cases hfind : T.find? k with
  | none =>
    have hnone := hT.find?_filter (fun e => !m.flagged.losesEntry m.survivors (m.flagged.weakMode T) e) k
    rw [hfind, Option.filter_none] at hnone
    unfold Table.get remaining
    rw [hnone, hfind]
  | some v =>
    have hget : T.get k = v := by rw [Table.get, hfind, Option.getD_some]
    by_cases hlost : m.Loses T (k, v)
    · have hnil : T.get k = .nil := Classical.byContradiction fun hne => hkept k hne (hget ▸ hlost)
      rw [Table.get, (find?_remaining hT hfind).1 hlost, Option.getD_none, hnil]
    · rw [Table.get, (find?_remaining hT hfind).2 hlost, Option.getD_some, hget]

/-- What a table that survives does not lose survives. -/
theorem Survives.of_entry (ht : m.Survives t) (hT : m.heap.object? t = some (.table T)) {k : Key} (hget : T.get k = .function reader)
    (hkept : ¬m.Loses T (k, .function reader)) (hc : m.heap.contains reader = true) : m.Survives reader := by
  by_cases hweak : m.heap.ModeSays T 'v'
  · refine Classical.byContradiction fun hn => hkept (Or.inr ⟨hweak, reader, rfl, Or.inl hn⟩)
  · exact ht.held (.value hT hweak (Table.mem_of_find? (Table.find?_of_get hget (by simp))) rfl) hc

/-! ## Event after event -/

theorem Stands.registered (h : m.Stands name t T reader R) (hm : m.Unshared closed) : m.Registered name t ∧ T.field name = .boolean true := by
  obtain ⟨R', hR', -⟩ := hm.registry
  obtain ⟨hr, T₁, hT₁, hmark⟩ := (classTable?_eq_some_iff hR').1 h.classTable?
  obtain ⟨T', hT', -, hget⟩ := h.table
  cases hT₁.symm.trans hT'
  exact ⟨hr, (hget _).symm.trans hmark⟩

theorem Stands.of_table (hm : m.Unshared closed) (hr : m.Registered name t) (hmark : T.field name = .boolean true)
    (hT : m.heap.object? t = some (.table T')) (hmt : T'.metatable = T.metatable) (hget : ∀ k, T'.get k = T.get k)
    (hreader : m.heap.object? reader = some (.function R)) : m.Stands name t T reader R := by
  obtain ⟨R', hR', -⟩ := hm.registry
  exact ⟨(classTable?_eq_some_iff hR').2 ⟨hr, T', hT, (hget _).trans hmark⟩, ⟨T', hT, hmt, hget⟩, hreader⟩

/-- After a collection a class has the table it had exactly if the collection took nothing out of it. -/
theorem Stands.swept_iff (hm : m.Unshared closed) (h : m.Stands name t T reader R)
    (hread : T.field Registry.readName = .function reader) : m.swept.Stands name t T reader R ↔ m.Preserves t T .sweep := by
  obtain ⟨hr, hmark⟩ := h.registered hm
  obtain ⟨T', hT', hmt, hget⟩ := h.table
  have hsurvives := hm.survives hr
  have hswept := swept_table hsurvives hT'
  have hunique := hm.wellFormed.unique _ _ hT'
  rw [preserves_sweep_iff]
  constructor
  · intro h' k hne hlost
    refine hne ?_
    obtain ⟨T'', hT'', -, hget''⟩ := h'.table
    cases hT''.symm.trans hswept
    rw [← hget] at hne hlost
    rw [← hget'' k, Table.get, (find?_remaining hunique (Table.find?_of_get rfl hne)).1 ((loses_congr hmt _).2 hlost)]
    rfl
  · intro h'
    have hkept : ∀ k, T'.get k ≠ .nil → ¬m.Loses T' (k, T'.get k) := by
      intro k hne
      rw [hget] at hne ⊢
      rw [loses_congr hmt]
      exact h' k hne
    refine .of_table hm.swept ((hm.swept_registered_iff name t).2 hr) hmark hswept hmt
      (fun k => (get_remaining hunique hkept k).trans (hget k)) (swept_function ?_ h.reader)
    have hread' : T'.get (.string Registry.readName) = .function reader := (hget _).trans hread
    refine hsurvives.of_entry hT' hread' ?_ (Heap.contains_of_object? h.reader)
    rw [← hread']
    refine hkept _ ?_
    rw [hread']
    simp

/-- After an event a class has the table it had exactly if the event put nothing new into it and took nothing out of it. -/
theorem Stands.after_iff (hm : m.Unshared False) (h : m.Stands name t T reader R) (hname : name ∉ Registry.reserved)
    (hread : T.field Registry.readName = .function reader) (he : m.Allows (Spares False) e) (hclass : ¬e.Reclasses t) :
    (m.after e).Stands name t T reader R ↔ m.Preserves t T e := by
  by_cases hsweep : e = .sweep
  · exact hsweep ▸ h.swept_iff hm hread
  obtain ⟨hr, hmark⟩ := h.registered hm
  obtain ⟨T', hT', hmt, hget⟩ := h.table
  have hedits := hm.edits_after he hsweep
  have hm' := hm.after he
  have hreader := hm.function_edits h.reader hedits
  have hr' : (m.after e).Registered name t :=
    (hm.lasts_edits (K := fun m => m.Registered name t) (fun _ _ _ hedit hr => hedit.registered hname hr) hedits hr).2
  have hsilent : ∀ r, e = .ask r → r.IsSilent := by
    rintro r rfl
    exact he.1
  cases hwritten : e.written? m t with
  | some w =>
    have hafter := object?_after_of_written hm.wellFormed hsilent hT' hwritten
    constructor
    · intro h'
      obtain ⟨T'', hT'', -, hget''⟩ := h'.table
      cases hT''.symm.trans hafter
      refine ⟨fun key v hw k => ?_, fun h => absurd h hsweep⟩
      cases hwritten.symm.trans hw
      rw [← Table.get_put_congr hget, hget'']
    · intro h'
      refine .of_table hm' hr' hmark hafter ((Table.metatable_put T' _ _).trans hmt) (fun k => ?_) hreader
      rw [Table.get_put_congr hget, h'.write _ _ hwritten]
  | none =>
    have hne : m.globals ≠ t := by
      rintro rfl
      exact hm.globals.2.1 name hr
    -- then the table is spared, because a class that is installed is not installed again
    have hwatched : m.Watched ⟨t, m.globals, fun n => n ≠ name, fun _ => False⟩ :=
      hm.watched ⟨T', hT'⟩ (hm.registered name t hr).1 (fun n hn hr' => hn (hm.single n name t hr' hr)) _
    have hspared := hwatched.spared_after (fun n hn e => hname (e ▸ hn)) hsilent hsweep hwritten hclass fun classes _ hc d hd =>
      ⟨fun e => (ClassDescriptor.checked_of_mem hc hd).2.1 (isInstalled_iff.2 ⟨t, e ▸ h.classTable?⟩),
        fun hglobals => (hne hglobals).elim⟩
    obtain ⟨T'', hT'', hmt'', hget''⟩ := hspared T' hT'
    exact iff_of_true (.of_table hm' hr' hmark hT'' (hmt''.trans hmt) (fun k => (hget'' k id).trans (hget k)) hreader)
      (preserves_of_not_written hwritten hsweep)

/-- A class has the table it had all along a course exactly if every event on the way puts nothing new into it and takes nothing out
of it. -/
theorem Stands.follow_iff (hm : m.Unshared False) (h : m.Stands name t T reader R) (hname : name ∉ Registry.reserved)
    (hread : T.field Registry.readName = .function reader) (hes : Course (Spares False) m es)
    (hclass : ∀ e ∈ es, ¬e.Reclasses t) :
    (∀ es₁ es₂, es = es₁ ++ es₂ → (m.follow es₁).Stands name t T reader R) ↔ m.AtEvents (fun m e => m.Preserves t T e) es := by
  induction es generalizing m with
  | nil =>
    refine iff_of_true (fun es₁ es₂ hsplit => ?_) atEvents_nil
    obtain ⟨rfl, -⟩ := List.append_eq_nil_iff.1 hsplit.symm
    exact h
  | cons e es ih =>
    obtain ⟨he, hclass⟩ := List.forall_mem_cons.1 hclass
    have hstep := h.after_iff hm hname hread hes.1 he
    rw [atEvents_cons, ← hstep]
    constructor
    · intro hall
      have hhead : (m.after e).Stands name t T reader R := hall [e] es rfl
      refine ⟨hhead, (ih (hm.after hes.1) hhead hes.2 hclass).1 fun es₁ es₂ hsplit => ?_⟩
      exact hall (e :: es₁) es₂ (by rw [hsplit]; rfl)
    · rintro ⟨hhead, htail⟩ es₁ es₂ hsplit
      cases es₁ with
      | nil => exact h
      | cons e' es₁ =>
        cases hsplit
        exact (ih (hm.after hes.1) hhead hes.2 hclass).2 htail es₁ es₂ rfl

/-! ## Writes through metamethods -/

/-- A write stops at a table that has the key. -/
theorem writeHop_of_has (hT : m.heap.object? t = some (.table T)) {key : Value} (hkey : T.Has key) :
    m.writeHop (.table t) key = .ok (.stop (.table t)) := by
  obtain ⟨k, hk, hne⟩ := hkey
  have hfound : ¬(T.get k).isNil = true := by
    cases hv : T.get k with
    | nil => exact absurd hv hne
    | _ => exact Bool.false_ne_true
  simp only [writeHop, rawGet, Heap.table_eq_ok_iff.2 hT, hk, if_neg hfound]

/-- At a class table that does not have the key the function for writes takes over. -/
theorem writeHop_of_not_has (hT : m.heap.object? t = some (.table T)) (hmt : T.metatable = some t) {writer : Ref}
    (hwrite : T.field Registry.writeName = .function writer) {key : Value} (hkey : ¬T.Has key) :
    m.writeHop (.table t) key = .ok (.enter (.function writer)) := by
  have hfound : m.rawGet t key = .ok .nil := by
    unfold rawGet
    rw [Heap.table_eq_ok_iff.2 hT]
    cases hk : Key.ofValue key with
    | error cause => rfl
    | ok k => exact congrArg Except.ok (Classical.byContradiction fun hne => hkey ⟨k, hk, hne⟩)
  have hhandler : m.metafield (.table t) "__newindex" = .ok (.function writer) := by
    simp only [metafield, metatable, Heap.table_eq_ok_iff.2 hT, hmt, rawField]
    exact congrArg Except.ok hwrite
  simp only [writeHop, hfound, hhandler]
  rfl

/-- A write stops where it is. -/
theorem eq_of_writeHop_stop {current key v : Value} (h : m.writeHop current key = .ok (.stop v)) : v = current := by
  have hhandler : ∀ w : Value, m.handlerHop w "__newindex" ≠ .ok (.stop v) := by
    intro w hw
    unfold handlerHop at hw
    split at hw
    · cases hw
    · split at hw
      · cases hw
      · unfold Hop.ofHandler at hw
        split at hw <;> cases hw
  cases current with
  | table t =>
    simp only [writeHop] at h
    split at h
    · cases h
    · split at h
      · split at h
        · cases h
        · split at h
          · exact (Hop.stop.inj (Except.ok.inj h)).symm
          · unfold Hop.ofHandler at h
            split at h <;> cases h
      · exact (Hop.stop.inj (Except.ok.inj h)).symm
  | _ =>
    simp only [writeHop] at h
    exact absurd h (hhandler _)

/-- The chain of a write that comes to an end at a class table has found the key in it. -/
theorem has_of_landsOn (hT : m.heap.object? t = some (.table T)) (hmt : T.metatable = some t) {writer : Ref}
    (hwrite : T.field Registry.writeName = .function writer) {key target : Value} {hops : Nat}
    (h : m.landsOn key hops target = some t) : T.Has key := by
  induction hops generalizing target with
  | zero => cases h
  | succ hops ih =>
    unfold landsOn at h
    split at h
    · rename_i hstop
      cases h
      rw [← eq_of_writeHop_stop hstop] at hstop
      refine Classical.byContradiction fun hkey => ?_
      rw [writeHop_of_not_has hT hmt hwrite hkey] at hstop
      cases hstop
    · exact ih h
    · cases h

/-- A write to the class itself ends at it exactly if it has the key. -/
theorem landsOn_class_iff (hT : m.heap.object? t = some (.table T)) (hmt : T.metatable = some t) {writer : Ref}
    (hwrite : T.field Registry.writeName = .function writer) (key : Value) (hops : Nat) :
    m.landsOn key (hops + 1) (.table t) = some t ↔ T.Has key := by
  refine ⟨has_of_landsOn hT hmt hwrite, fun hkey => ?_⟩
  rw [landsOn, writeHop_of_has hT hkey]

/-- As long as a class has the table it had when it was installed, every write through metamethods that ends at it replaces something
the table has, and one that begins there ends there exactly then. -/
theorem Stands.landsOn (h : m.Stands name t T reader R) (hmt : T.metatable = some t) {writer : Ref}
    (hwrite : T.field Registry.writeName = .function writer) (key : Value) (hops : Nat) :
    (∀ target, m.landsOn key hops target = some t → T.Has key) ∧ (m.landsOn key (hops + 1) (.table t) = some t ↔ T.Has key) := by
  obtain ⟨T', hT', hmt', hget⟩ := h.table
  have hwrite' : T'.field Registry.writeName = .function writer := (hget _).trans hwrite
  have hhas : T'.Has key ↔ T.Has key := by simp only [Table.Has, hget]
  simp only [← hhas]
  exact ⟨fun _ => has_of_landsOn hT' (hmt'.trans hmt) hwrite', landsOn_class_iff hT' (hmt'.trans hmt) hwrite' key hops⟩

end Machine

open Machine in
/-- On a machine of a run in which native code leaves the names of the registry to the binding layer install a list of classes with
success, and take a class of it that does not have the name of a metamethod. Its table is its own metatable, and the function in it
that reads attributes has the class and its bases bound to it. Now let anything happen that native code may do, except that it gives
the table another metatable by hand. All along the class has the same table, with the same under every key and the same metatable, and
the function has the same bound to it, exactly if each event that writes the table puts there what is there, and no collection takes
an entry out of it. Until then the chain of a write through metamethods, whatever it begins at, ends at the table only if the table
has the key, and one that begins at the table does end there if it has. -/
theorem class_table_lasts_iff {Γ : Host χ σ} (hΓ : Γ.Lawful (Spares False) (Unshared False)) {m m' : Machine χ σ}
    (hm : Reached Γ (Spares False) m) {classes : List (ClassDescriptor χ)} {d : ClassDescriptor χ}
    (h : ClassDescriptor.installAll classes m = (.ok (), m')) (hd : d ∈ classes) (hname : d.name ∉ Registry.metamethods)
    {es : List (Event χ σ)} (hes : Course (Spares False) m' es) (hclass : ∀ t, m'.classTable? d.name = some t → ∀ e ∈ es, ¬e.Reclasses t) :
    ∃ t T reader n bases, m'.Stands d.name t T reader ⟨n, .readAttribute, (t :: bases).map .table⟩ ∧ T.metatable = some t ∧
      T.field Registry.readName = .function reader ∧ d.bases.map m'.classTable? = bases.map some ∧
      ((∀ es₁ es₂, es = es₁ ++ es₂ → (m'.follow es₁).Stands d.name t T reader ⟨n, .readAttribute, (t :: bases).map .table⟩) ↔
        m'.AtEvents (fun m e => m.Preserves t T e) es) ∧
      ∀ es₁ es₂, es = es₁ ++ es₂ → (m'.follow es₁).Stands d.name t T reader ⟨n, .readAttribute, (t :: bases).map .table⟩ →
        ∀ key hops, (∀ target, (m'.follow es₁).landsOn key hops target = some t → T.Has key) ∧
          ((m'.follow es₁).landsOn key (hops + 1) (.table t) = some t ↔ T.Has key) := by
  obtain ⟨earlier, later, rfl⟩ := List.append_of_mem hd
  obtain ⟨m₀, m₁, t, bases, -, hm₀, hinstalls, hbases, hm₁, hm', hgains, hreserved, hlater, hlater'⟩ :=
    ClassDescriptor.exists_installs (hm.unshared hΓ) h
  obtain ⟨T₀, methods, reader, writer, finalizer, -, -, hT, ⟨n, hreader⟩, -, -⟩ := hinstalls.table
  have ht : m₁.Registered d.name t := (hinstalls.names d.name t).2 (Or.inl ⟨rfl, rfl⟩)
  have hread : (ClassDescriptor.filled d.name T₀ t methods reader writer finalizer).field Registry.readName = .function reader := by
    rw [ClassDescriptor.field_filled, if_neg (by decide), if_neg (by decide), if_pos rfl]
  have hwrite : (ClassDescriptor.filled d.name T₀ t methods reader writer finalizer).field Registry.writeName = .function writer := by
    rw [ClassDescriptor.field_filled, if_neg (by decide), if_pos rfl]
  have hfound : m'.classTable? d.name = some t := by
    rw [hgains.classTable? _ hlater, hinstalls.classTable? hm₀, if_pos rfl, if_neg hname]
  have hstands : m'.Stands d.name t (ClassDescriptor.filled d.name T₀ t methods reader writer finalizer) reader
      ⟨n, .readAttribute, (t :: bases).map .table⟩ :=
    ⟨hfound, ⟨_, hgains.table hm₁ hlater ht hT, rfl, fun _ => rfl⟩, hgains.function hm₁ hreader⟩
  refine ⟨t, _, reader, n, bases, hstands, rfl, hread, ?_, hstands.follow_iff hm' hreserved hread hes (hclass t hfound), ?_⟩
  · rw [← hbases]
    exact List.map_congr_left fun b hb => hgains.classTable? b (hlater' b hb)
  · exact fun es₁ es₂ _ hstands' key hops => hstands'.landsOn rfl hwrite key hops

/-- A class with a method. -/
def methodClass : ClassDescriptor Bool := ⟨"C", .ofList [("m", true)], []⟩

/-- A new machine after the class was installed. -/
def afterMethodClass : Machine Bool Unit := (ClassDescriptor.installAll [methodClass] (.start .standard ())).2

theorem installAll_methodClass : ClassDescriptor.installAll [methodClass] (.start .standard ()) = (.ok (), afterMethodClass) :=
  Action.eq_of_fst (eq_ok_of_toOption (by decide +kernel))

/-- An address is wrapped as an object of the class, and a class derived from it is installed. -/
def wrapAndDerive : List (Event Bool Unit) := [.ask (.wrap 0x10 "C"), .ask (.installClasses [⟨"D", .empty, ["C"]⟩])]

open Machine in
/-- After that and a collection the class has the table it had. -/
theorem class_table_afterDerived :
    ∃ t T reader R, afterMethodClass.Stands "C" t T reader R ∧
      (afterMethodClass.follow (wrapAndDerive ++ [.sweep])).Stands "C" t T reader R := by
  have hcollecting : (afterMethodClass.follow wrapAndDerive).collecting = false := by decide +kernel
  have hcourse : Course (Spares False) afterMethodClass (wrapAndDerive ++ [.sweep]) :=
    course_append.2 ⟨⟨⟨trivial, trivial⟩, ⟨trivial, False.elim⟩, trivial⟩, hcollecting, trivial⟩
  obtain ⟨t, T, reader, n, bases, hstands, hmt, -, -, hiff, -⟩ := class_table_lasts_iff lawful_quietHost (.start .standard ())
    installAll_methodClass (d := methodClass) (by simp) (by decide) hcourse (by simp [wrapAndDerive, Event.Reclasses, Request.Reclasses])
  have ht : afterMethodClass.classTable? "C" = some ⟨2, 0⟩ := by decide +kernel
  cases hstands.classTable?.symm.trans ht
  refine ⟨_, T, reader, _, hstands, hiff.2 ?_ _ [] (by simp)⟩
  have hmode : ((afterMethodClass.follow wrapAndDerive).rawField ⟨2, 0⟩ "__mode").toOption = some .nil := by decide +kernel
  have hstrong : ∀ letter, ¬(afterMethodClass.follow wrapAndDerive).heap.ModeSays T letter := by
    rintro letter ⟨mt, M, mode, hmt', hM, hsays, -⟩
    cases hmt.symm.trans hmt'
    rw [rawField, Heap.table_eq_ok_iff.2 hM] at hmode
    cases (Option.some.inj hmode).symm.trans hsays
  have hwrap : afterMethodClass.Preserves ⟨2, 0⟩ T (.ask (.wrap 0x10 "C")) := preserves_of_not_written rfl (by simp)
  have hderive : ∀ m : Machine Bool Unit, m.Preserves ⟨2, 0⟩ T (.ask (.installClasses [⟨"D", .empty, ["C"]⟩])) :=
    fun _ => preserves_of_not_written rfl (by simp)
  refine atEvents_append.2 ⟨atEvents_cons.2 ⟨hwrap, atEvents_cons.2 ⟨hderive _, atEvents_nil⟩⟩,
    atEvents_cons.2 ⟨preserves_sweep_iff.2 fun k _ hlost => ?_, atEvents_nil⟩⟩
  exact hlost.elim (fun h => hstrong _ h.1) fun h => hstrong _ h.1

open Machine in
/-- That no write through metamethods changes the table of a class is false: one to the class itself replaces its method. -/
theorem class_tables_immutable_false :
    ¬∀ (m : Machine Bool Unit) (classes : List (ClassDescriptor Bool)) (d : ClassDescriptor Bool) (t reader : Ref) (T : Table)
      (R : NativeFunction Bool) (target key v : Value), ClassDescriptor.installAll classes (.start .standard ()) = (.ok (), m) →
      d ∈ classes → d.name ∉ Registry.metamethods → m.Stands d.name t T reader R →
      (Action.setIndex (call quietHost) target key v m).2.Stands d.name t T reader R := by
  intro hall
  have hnone : Course (Spares False) afterMethodClass [] := trivial
  obtain ⟨t, T, reader, n, bases, hstands, -⟩ := class_table_lasts_iff lawful_quietHost (.start .standard ())
    installAll_methodClass (d := methodClass) (by simp) (by decide) hnone (by simp)
  have hafter := hall _ _ methodClass t reader T _ (.table ⟨2, 0⟩) (.string "m") (.integer 5) installAll_methodClass (by simp)
    (by decide) hstands
  have ht : afterMethodClass.classTable? "C" = some ⟨2, 0⟩ := by decide +kernel
  cases hstands.classTable?.symm.trans ht
  obtain ⟨T₁, hT₁, -, hget₁⟩ := hstands.table
  obtain ⟨T₂, hT₂, -, hget₂⟩ := hafter.table
  have hfield₁ : (afterMethodClass.rawField ⟨2, 0⟩ "m").toOption = some (.function ⟨3, 0⟩) := by decide +kernel
  have hfield₂ : ((Action.setIndex (call quietHost) (.table ⟨2, 0⟩) (.string "m") (.integer 5) afterMethodClass).2.rawField ⟨2, 0⟩
      "m").toOption = some (.integer 5) := by decide +kernel
  rw [rawField, Heap.table_eq_ok_iff.2 hT₁] at hfield₁
  rw [rawField, Heap.table_eq_ok_iff.2 hT₂] at hfield₂
  have hsame := (hget₁ (.string "m")).trans (hget₂ (.string "m")).symm
  cases (Option.some.inj hfield₁).symm.trans (hsame.trans (Option.some.inj hfield₂))

end ScriptHost

import ScriptHost.Proofs.Reclaim
import ScriptHost.Proofs.Runs
import ScriptHost.Proofs.Tidy

/-!
# Metatables that are there

A metatable is looked up before it is set, a table stays a table, and an object keeps its metatable alive. So on every machine of a
run the metatable of an object is a table that is there (`Reached.grounded`), whatever native code asks for. Only setting a metatable
has to be looked at for that: every other operation leaves the metatables of the objects that are there, and makes objects without
one (`Action.Grounds`).
-/

namespace ScriptHost

variable {χ σ α β : Type}

/-- The metatable of an object; a function has none. -/
def Object.metatable : Object χ → Option Ref
  | .table t => t.metatable
  | .userdata u => u.metatable
  | .function _ => none

namespace Machine

/-- The metatable of every object is a table that is there. -/
def Grounded (m : Machine χ σ) : Prop :=
  ∀ r o mt, m.heap.object? r = some o → o.metatable = some mt → ∃ M, m.heap.object? mt = some (.table M)

variable {m m' : Machine χ σ} {r : Ref} {o : Object χ}

/-- Writing an object keeps that, if a table stays a table and the metatable of the object is a table. -/
theorem Grounded.written (hm : m.Grounded) (h : m.Written m' r o)
    (hkind : ∀ T, m.heap.object? r = some (.table T) → ∃ T', o = .table T')
    (hmt : ∀ mt, o.metatable = some mt → ∃ M, m.heap.object? mt = some (.table M)) : m'.Grounded := by
  have hkeeps : ∀ s M, m.heap.object? s = some (.table M) → ∃ M', m'.heap.object? s = some (.table M') := by
    intro s M hM
    by_cases hs : s = r
    · subst hs
      obtain ⟨T', rfl⟩ := hkind M hM
      exact ⟨T', h.self⟩
    · exact ⟨M, (h.other hs).trans hM⟩
  intro s p mt hp hclass
  have hbefore : ∃ M, m.heap.object? mt = some (.table M) := by
    by_cases hs : s = r
    · subst hs
      cases h.self.symm.trans hp
      exact hmt mt hclass
    · exact hm s p mt ((h.other hs).symm.trans hp) hclass
  obtain ⟨M, hM⟩ := hbefore
  exact hkeeps mt M hM

/-- A new machine has no metatables. -/
theorem grounded_start (limits : Limits) (host : σ) : (start limits host : Machine χ σ).Grounded := by
  intro r o mt ho hmt
  cases eq_empty_of_start ho
  cases hmt

end Machine

namespace Action

open Machine

/-- The action leaves every metatable a table that is there, on a well-formed heap that stays so. -/
def Grounds (x : Action χ σ α) : Prop :=
  ∀ m : Machine χ σ, m.heap.WellFormed → m.Grounded → (x m).2.heap.WellFormed ∧ (x m).2.Grounded

theorem grounds_of_heap_eq {x : Action χ σ α} (h : ∀ m, (x m).2.heap = m.heap) : Grounds x := by
  intro m hw hm
  unfold Grounded
  rw [h]
  exact ⟨hw, hm⟩

theorem grounds_pure (a : α) : Grounds (pure a : Action χ σ α) := grounds_of_heap_eq fun _ => rfl

theorem grounds_fail (e : Fault) : Grounds (fail e : Action χ σ α) := grounds_of_heap_eq fun _ => rfl

theorem grounds_look : Grounds (look : Action χ σ (Machine χ σ)) := grounds_of_heap_eq fun _ => rfl

theorem grounds_query (f : Machine χ σ → Except Fault α) : Grounds (query f) := grounds_of_heap_eq fun _ => rfl

theorem Grounds.bind {x : Action χ σ α} {f : α → Action χ σ β} (hx : Grounds x) (hf : ∀ a, Grounds (f a)) :
    Grounds (x >>= f) := by
  intro m hw hm
  obtain ⟨hw', hm'⟩ := hx m hw hm
  cases hxm : x m with
  | mk result m' =>
    rw [hxm] at hw' hm'
    cases result with
    | ok a =>
      rw [bind_of_ok hxm]
      exact hf a m' hw' hm'
    | error e =>
      rw [bind_of_error hxm]
      exact ⟨hw', hm'⟩

theorem grounds_allocate {o : Object χ} (ho : o.IsNew) : Grounds (allocate o : Action χ σ Ref) := by
  intro m hw hm
  have hbare : o.metatable = none ∧ ∀ t, o = .table t → t.Unique := by
    cases o with
    | table t =>
      cases ho
      exact ⟨rfl, fun _ e => Object.table.inj e ▸ Table.unique_empty⟩
    | userdata u =>
      rw [ho]
      exact ⟨rfl, nofun⟩
    | function f => exact ⟨rfl, nofun⟩
  obtain ⟨r, m', h, hfresh, hwritten⟩ := exists_allocate hw hbare.2
  rw [h]
  refine ⟨hwritten.wellFormed, hm.written hwritten (fun T hT => absurd rfl (ne_of_not_contains hfresh hT)) ?_⟩
  rw [hbare.1]
  nofun

/-- Changing a table, with the metatable it has or one that is a table. -/
theorem grounds_changeTable_to (r : Ref) {f : Table → Table} (hf : ∀ T, T.Unique → (f T).Unique) {m : Machine χ σ}
    (hmt : ∀ T, (f T).metatable = T.metatable ∨ ∀ mt, (f T).metatable = some mt → ∃ M, m.heap.object? mt = some (.table M))
    (hw : m.heap.WellFormed) (hm : m.Grounded) :
    (onHeap (fun h => h.changeTable r f) m).2.heap.WellFormed ∧ (onHeap (fun h => h.changeTable r f) m).2.Grounded := by
  refine onHeap_elim (P := fun m' => m'.heap.WellFormed ∧ m'.Grounded) ⟨hw, hm⟩ fun h' hc => ?_
  obtain ⟨T, hT, rfl⟩ := Heap.changeTable_eq_ok_iff.1 hc
  have hwritten := written_put hw (Heap.contains_of_object? hT) (o := .table (f T))
    fun _ e => Object.table.inj e ▸ hf T (hw.unique r T hT)
  refine ⟨hwritten.wellFormed, hm.written hwritten (fun _ _ => ⟨_, rfl⟩) fun mt h => ?_⟩
  rcases hmt T with hsame | hto
  · exact hm r _ mt hT (hsame.symm.trans h)
  · exact hto mt h

theorem grounds_changeUserdata_to (r : Ref) {f : Userdata → Userdata} {m : Machine χ σ}
    (hmt : ∀ u, (f u).metatable = u.metatable ∨ ∀ mt, (f u).metatable = some mt → ∃ M, m.heap.object? mt = some (.table M))
    (hw : m.heap.WellFormed) (hm : m.Grounded) :
    (onHeap (fun h => h.changeUserdata r f) m).2.heap.WellFormed ∧
      (onHeap (fun h => h.changeUserdata r f) m).2.Grounded := by
  refine onHeap_elim (P := fun m' => m'.heap.WellFormed ∧ m'.Grounded) ⟨hw, hm⟩ fun h' hc => ?_
  obtain ⟨u, hu, rfl⟩ := Heap.changeUserdata_eq_ok_iff.1 hc
  have hwritten := written_put hw (Heap.contains_of_object? hu) (o := .userdata (f u)) nofun
  refine ⟨hwritten.wellFormed, hm.written hwritten (fun T hT => nomatch hu.symm.trans hT) fun mt h => ?_⟩
  rcases hmt u with hsame | hto
  · exact hm r _ mt hu (hsame.symm.trans h)
  · exact hto mt h

/-! ## Raw access -/

theorem grounds_newTable : Grounds (newTable : Action χ σ Ref) := grounds_allocate rfl

theorem grounds_newUserdata (p : Payload) : Grounds (newUserdata p : Action χ σ Ref) := grounds_allocate rfl

theorem grounds_newFunction (name : String) (code : Code χ) (upvalues : List Value) :
    Grounds (newFunction name code upvalues : Action χ σ Ref) := grounds_allocate trivial

theorem grounds_store (t : Ref) (k : Key) (v : Value) :
    Grounds (onHeap (fun h => h.changeTable t (fun T => T.set k v)) : Action χ σ Unit) :=
  fun _ => grounds_changeTable_to t (fun _ hu => hu.set k v) fun T => Or.inl (Table.metatable_set T k v)

theorem grounds_setField (t : Ref) (name : String) (v : Value) : Grounds (setField t name v : Action χ σ Unit) :=
  grounds_store t (.string name) v

theorem grounds_setAt (t : Ref) (i : Int64) (v : Value) : Grounds (setAt t i v : Action χ σ Unit) :=
  grounds_store t (.integer i) v

theorem grounds_rawSet (t : Ref) (k v : Value) : Grounds (rawSet t k v : Action χ σ Unit) := by
  unfold rawSet
  split
  · exact grounds_fail _
  · exact grounds_store t _ v

theorem grounds_remove (t : Ref) (k : Value) : Grounds (remove t k : Action χ σ (Option Value)) := by
  unfold remove
  split
  · exact grounds_fail _
  · refine (grounds_query _).bind fun T => Grounds.bind (fun _ => ?_) fun _ => grounds_pure _
    exact grounds_changeTable_to t (fun _ hu => hu.erase _) fun _ => Or.inl rfl

/-- The metatable that is set is looked up first, so it is a table. -/
theorem grounds_setMetatable (v : Value) (mt : Option Ref) : Grounds (setMetatable v mt : Action χ σ Unit) := by
  intro m hw hm
  have hstill := requireTable_still mt m
  cases hrequire : requireTable mt m with
  | mk result m' =>
    rw [hrequire] at hstill
    subst hstill
    cases result with
    | error e =>
      have hfail : setMetatable v mt m' = (.error e, m') := bind_of_error hrequire
      rw [hfail]
      exact ⟨hw, hm⟩
    | ok u =>
      have hgoes : setMetatable v mt m' = _ := bind_of_ok hrequire
      have htable : ∀ s, mt = some s → ∃ M, m'.heap.object? s = some (.table M) := by
        rintro s rfl
        exact isTable_of_requireTable (congrArg Prod.fst hrequire)
      rw [hgoes]
      cases v with
      | table t =>
        exact grounds_changeTable_to t (f := fun T => { T with metatable := mt }) (fun _ hu => hu) (fun _ => Or.inr htable) hw hm
      | userdata r =>
        exact grounds_changeUserdata_to r (f := fun u => { u with metatable := mt }) (fun _ => Or.inr htable) hw hm
      | _ => exact ⟨hw, hm⟩

theorem grounds_changeUserdata (r : Ref) {f : Userdata → Userdata} (hf : ∀ u, (f u).metatable = u.metatable) :
    Grounds (onHeap (fun h => h.changeUserdata r f) : Action χ σ Unit) :=
  fun _ => grounds_changeUserdata_to r fun u => Or.inl (hf u)

theorem grounds_setEnvironment (u : Ref) (env : Option Ref) : Grounds (setEnvironment u env : Action χ σ Unit) :=
  (grounds_of_heap_eq fun m => by rw [requireTable_still]).bind fun _ => grounds_changeUserdata u fun _ => rfl

theorem grounds_setPayload (u : Ref) (p : Payload) : Grounds (setPayload u p : Action χ σ Bool) := by
  refine (grounds_query _).bind fun held => ?_
  split
  · exact (grounds_changeUserdata u (f := fun u => { u with payload := p }) fun _ => rfl).bind fun _ => grounds_pure _
  · exact grounds_pure _

theorem grounds_setRegistry (name : String) (v : Value) : Grounds (setRegistry name v : Action χ σ Unit) :=
  grounds_look.bind fun _ => grounds_setField _ _ _

theorem grounds_setGlobal (name : String) (v : Value) : Grounds (setGlobal name v : Action χ σ Unit) :=
  grounds_look.bind fun _ => grounds_setField _ _ _

theorem grounds_metatableNamed (name : String) : Grounds (metatableNamed name : Action χ σ (Ref × Bool)) := by
  refine (grounds_query _).bind fun v => ?_
  split
  · exact grounds_pure _
  · exact grounds_newTable.bind fun mt => (grounds_setField _ _ _).bind fun _ => (grounds_setRegistry _ _).bind fun _ =>
      grounds_pure _

/-! ## The binding layer -/

theorem grounds_registryTable (name : String) (mode : Option String) :
    Grounds (Registry.table name mode : Action χ σ Ref) := by
  refine (grounds_query _).bind fun v => ?_
  split
  · exact grounds_pure _
  · refine Grounds.bind ?_ fun t => (grounds_setRegistry _ _).bind fun _ => grounds_pure _
    cases mode with
    | none => exact grounds_newTable
    | some mode =>
      exact grounds_newTable.bind fun t => grounds_newTable.bind fun mt => (grounds_setField _ _ _).bind fun _ =>
        (grounds_setMetatable _ _).bind fun _ => grounds_pure _

theorem grounds_ensureHandle (a : Address) : Grounds (ensureHandle a : Action χ σ Ref) := by
  refine (grounds_registryTable _ _).bind fun pointers => (grounds_query _).bind fun v => ?_
  split
  · exact grounds_pure _
  · exact (grounds_newUserdata _).bind fun handle => grounds_newTable.bind fun shadow =>
      (grounds_setEnvironment _ _).bind fun _ => (grounds_rawSet _ _ _).bind fun _ => grounds_pure _

theorem grounds_unregister (a : Address) : Grounds (unregister a : Action χ σ Unit) := by
  have hforget : ∀ u : Userdata, u.forgetAddress.metatable = u.metatable := by
    intro u
    unfold Userdata.forgetAddress
    split <;> rfl
  refine grounds_look.bind fun m => ?_
  split
  · exact grounds_pure _
  · refine (grounds_query _).bind fun v => ?_
    split
    · exact (grounds_changeUserdata _ hforget).bind fun _ => grounds_rawSet _ _ _
    · exact grounds_pure _

theorem grounds_wrap (a : Address) (name : String) : Grounds (wrap a name : Action χ σ Value) := by
  unfold wrap
  split
  · exact grounds_pure _
  · refine (grounds_ensureHandle a).bind fun handle => (grounds_metatableNamed name).bind fun found => ?_
    exact (grounds_setMetatable _ _).bind fun _ => grounds_pure _

theorem grounds_writeAttribute (c : Call) : Grounds (Attribute.write c : Action χ σ (List Value)) := by
  refine (grounds_query _).bind fun shadow => ?_
  split
  · exact grounds_pure _
  · exact (grounds_rawSet _ _ _).bind fun _ => grounds_pure _

theorem grounds_installMethods (cls : Ref) (name : String) (methods : List (String × χ)) :
    Grounds (ClassDescriptor.installMethods cls name methods : Action χ σ _) := by
  induction methods with
  | nil => exact grounds_pure _
  | cons e rest ih =>
    exact (grounds_newFunction _ _ _).bind fun f => (grounds_setField _ _ _).bind fun _ => ih.bind fun _ => grounds_pure _

theorem grounds_publish (t : Ref) (methods : List (String × Ref)) :
    Grounds (ClassDescriptor.publish t methods : Action χ σ Unit) := by
  induction methods with
  | nil => exact grounds_pure _
  | cons e rest ih => exact (grounds_setField _ _ _).bind fun _ => ih

theorem grounds_install (d : ClassDescriptor χ) : Grounds (d.install : Action χ σ Unit) := by
  refine (grounds_metatableNamed _).bind fun found => (grounds_installMethods _ _ _).bind fun methods => ?_
  refine (grounds_setField _ _ _).bind fun _ => (grounds_query _).bind fun bases => ?_
  refine (grounds_newFunction _ _ _).bind fun reader => (grounds_newFunction _ _ _).bind fun writer => ?_
  refine (grounds_newFunction _ _ _).bind fun finalizer => (grounds_setField _ _ _).bind fun _ => ?_
  refine (grounds_setField _ _ _).bind fun _ => (grounds_setField _ _ _).bind fun _ => ?_
  refine (grounds_setMetatable _ _).bind fun _ => grounds_newTable.bind fun space => ?_
  exact (grounds_publish _ _).bind fun _ => grounds_setGlobal _ _

theorem grounds_installAll (classes : List (ClassDescriptor χ)) :
    Grounds (ClassDescriptor.installAll classes : Action χ σ Unit) := by
  refine (grounds_query _).bind fun _ => ?_
  induction classes with
  | nil => exact grounds_pure _
  | cons d rest ih => exact (grounds_install d).bind fun _ => ih

theorem grounds_fillEnumeration (t : Ref) (members : List (String × Int64)) :
    Grounds (EnumDescriptor.fill t members : Action χ σ Unit) := by
  induction members with
  | nil => exact grounds_pure _
  | cons e rest ih => exact (grounds_setField _ _ _).bind fun _ => (grounds_setAt _ _ _).bind fun _ => ih

theorem grounds_defineAll (enums : List EnumDescriptor) : Grounds (EnumDescriptor.defineAll enums : Action χ σ Unit) := by
  induction enums with
  | nil => exact grounds_pure _
  | cons d rest ih =>
    refine Grounds.bind ?_ fun _ => ih
    exact (grounds_registryTable _ _).bind fun all => grounds_newTable.bind fun t =>
      (grounds_fillEnumeration _ _).bind fun _ => grounds_setField _ _ _

theorem grounds_stage (p : Payload) : Grounds (Cell.stage p : Action χ σ Ref) := by
  refine (grounds_registryTable _ _).bind fun cells => (grounds_newUserdata _).bind fun cell =>
    Grounds.bind ?_ fun place => ?_
  · exact (grounds_query _).bind fun _ => (grounds_setRegistry _ _).bind fun _ => grounds_pure _
  · exact (grounds_setAt _ _ _).bind fun _ => grounds_pure _

theorem grounds_stageArguments (v : Value) : Grounds (Arguments.ofValue v : Action χ σ StagedArguments) := by
  unfold Arguments.ofValue
  split
  · exact (grounds_query _).bind fun _ => (grounds_stage _).bind fun _ => grounds_pure _
  · exact grounds_fail _

theorem grounds_newTexts (texts : List String) : Grounds (Arguments.toTable texts : Action χ σ Ref) := by
  have hfill : ∀ t n, Grounds (Arguments.fill t n texts : Action χ σ Unit) := by
    intro t n
    induction texts generalizing n with
    | nil => exact grounds_pure _
    | cons s rest ih => exact (grounds_setAt _ _ _).bind fun _ => ih _
  exact grounds_newTable.bind fun t => (hfill t 0).bind fun _ => grounds_pure _

end Action

open ScriptHost.Action in
/-- So does every request that calls nothing. -/
theorem Request.grounds_perform (c : Caller χ σ) {r : Request χ σ} (hr : r.IsSilent) : (r.perform c).Grounds := by
  cases r with
  | rawSet t k v => exact grounds_rawSet t k v
  | remove t k => exact grounds_remove t k
  | newTable => exact grounds_newTable
  | newUserdata p => exact grounds_newUserdata p
  | newFunction name code upvalues => exact grounds_newFunction name code upvalues
  | setMetatable v mt => exact grounds_setMetatable v mt
  | setEnvironment u env => exact grounds_setEnvironment u env
  | setPayload u p => exact grounds_setPayload u p
  | metatableNamed name => exact grounds_metatableNamed name
  | ensureHandle a => exact grounds_ensureHandle a
  | unregister a => exact grounds_unregister a
  | wrap a name => exact grounds_wrap a name
  | installClasses classes => exact grounds_installAll classes
  | newReader name cls bases => exact grounds_newFunction _ _ _
  | defineEnums enums => exact grounds_defineAll enums
  | stage p => exact grounds_stage p
  | stageInteger v => exact (grounds_stage _).bind fun _ => grounds_pure _
  | stageArguments v => exact grounds_stageArguments v
  | newTexts texts => exact grounds_newTexts texts
  | look | keep | push | pop | setTop | pin | unpin => exact grounds_of_heap_eq fun _ => rfl
  | index | setIndex | call | callMethod | collect | isKindOf => exact hr.elim

/-! ## Runs -/

namespace Machine

variable {m : Machine χ σ}

/-- A collection leaves metatables where they are, because an object keeps its metatable alive. -/
theorem Grounded.swept (hm : m.Grounded) : m.swept.Grounded := by
  intro r o mt ho hmt
  have hr := contains_swept_iff.1 (Heap.contains_of_object? ho)
  have hstays : (∃ M, m.heap.object? mt = some (.table M)) → m.heap.Holds r mt →
      ∃ M, m.swept.heap.object? mt = some (.table M) := by
    rintro ⟨M, hM⟩ hholds
    exact ⟨_, swept_table (hr.held hholds (Heap.contains_of_object? hM)) hM⟩
  obtain ⟨p, hp⟩ := Heap.contains_iff.1 hr.contains
  cases p with
  | table T =>
    cases (swept_table hr hp).symm.trans ho
    exact hstays (hm r _ mt hp hmt) (.metatable hp hmt)
  | userdata u =>
    cases (swept_userdata hr hp).symm.trans ho
    exact hstays (hm r _ mt hp hmt) (.classOf hp hmt)
  | function f =>
    cases (swept_function hr hp).symm.trans ho
    cases hmt

end Machine

theorem stable_grounded : Stable (fun m : Machine χ σ => m.heap.WellFormed ∧ m.Grounded) (fun _ _ => True) where
  silent c m _ hr hm _ := Request.grounds_perform c hr m hm.1 hm.2
  written m call hm := Action.grounds_writeAttribute call m hm.1 hm.2
  lands m _ key v t hm _ _ := Action.grounds_rawSet t key v m hm.1 hm.2
  swept _ hm _ := ⟨Machine.wellFormed_swept hm.1, hm.2.swept⟩
  queue _ _ _ _ _ hm := hm
  finish _ _ _ _ _ hm := hm

/-- The metatable of every object is a table that is there, on every machine of a run. -/
theorem Reached.grounded {Γ : Host χ σ} {P : Machine χ σ → Request χ σ → Prop} {m : Machine χ σ} (hm : Reached Γ P m) :
    m.Grounded :=
  (hm.keep_all stable_grounded (fun limits host => ⟨Machine.wellFormed_start limits host, Machine.grounded_start limits host⟩)
    (fun _ _ _ _ h _ => h) fun _ _ h => h).2

end ScriptHost

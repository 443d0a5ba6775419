import ScriptHost.Proofs.Reordering
import ScriptHost.Proofs.Writes

/-!
# Operations that respect reordering

An operation that looks things up by their keys cannot tell a machine from the same machine reordered, and what it does to the one
it does to the other (`Action.SteadyAt`). This holds on all machines of all operations that neither call anything nor touch the
stack, the pins or what the host keeps; these change nothing but the heap (`Action.Respects`, `Request.respects_perform`).
-/

namespace ScriptHost

variable {χ σ α β : Type}

namespace Action

/-! ## Actions that do the same on a machine reordered -/

/-- The action answers the same on the machine and on the machine reordered, and leads to a machine and that machine reordered. -/
def SteadyAt (x : Action χ σ α) (m : Machine χ σ) : Prop :=
  ∀ n, m.Reordered n → (x n).1 = (x m).1 ∧ (x m).2.Reordered (x n).2

variable {x : Action χ σ α} {m : Machine χ σ}

theorem steadyAt_pure (a : α) : SteadyAt (pure a) m := fun _ h => ⟨rfl, h⟩

theorem steadyAt_fail (e : Fault) : SteadyAt (fail e : Action χ σ α) m := fun _ h => ⟨rfl, h⟩

theorem SteadyAt.bind {f : α → Action χ σ β} (hx : x.SteadyAt m) (hf : ∀ a, (x m).1 = .ok a → (f a).SteadyAt (x m).2) :
    (x >>= f).SteadyAt m := by
  intro n h
  obtain ⟨hanswer, hend⟩ := hx n h
  rcases hm : x m with ⟨answer, m'⟩
  rcases hn : x n with ⟨answer', n'⟩
  rw [hm, hn] at hanswer hend
  rw [hm] at hf
  cases hanswer
  cases answer with
  | error e =>
    rw [bind_of_error hm, bind_of_error hn]
    exact ⟨rfl, hend⟩
  | ok a =>
    rw [bind_of_ok hm, bind_of_ok hn]
    exact hf a rfl n' hend

/-- What follows on reading something that the order does not matter for. -/
theorem SteadyAt.query {q : Machine χ σ → Except Fault α} {f : α → Action χ σ β} (hq : ∀ n, m.Reordered n → q n = q m)
    (hf : ∀ a, q m = .ok a → (f a).SteadyAt m) : (Action.query q >>= f).SteadyAt m :=
  SteadyAt.bind (fun n h => ⟨hq n h, h⟩) hf

/-- What follows on looking at the machine, if it depends on nothing that the order matters for. -/
theorem SteadyAt.look {f : Machine χ σ → Action χ σ β} (hsame : ∀ n, m.Reordered n → f n = f m) (hf : (f m).SteadyAt m) :
    (Action.look >>= f).SteadyAt m := by
  intro n h
  rw [bind_of_ok (look_eq m), bind_of_ok (look_eq n), hsame n h]
  exact hf n h

/-- The action changes nothing but the heap, and does the same on every machine and that machine reordered. -/
structure Respects (x : Action χ σ α) : Prop where
  onlyHeap : ∀ m, (x m).2 = { m with heap := (x m).2.heap }
  reordered : ∀ m, x.SteadyAt m

theorem respects_pure (a : α) : Respects (pure a : Action χ σ α) := ⟨fun _ => rfl, fun _ => steadyAt_pure a⟩

theorem respects_fail (e : Fault) : Respects (fail e : Action χ σ α) := ⟨fun _ => rfl, fun _ => steadyAt_fail e⟩

theorem Respects.bind {x : Action χ σ α} {f : α → Action χ σ β} (hx : Respects x) (hf : ∀ a, Respects (f a)) :
    Respects (x >>= f) := by
  refine ⟨fun m => ?_, fun m => (hx.reordered m).bind fun a _ => (hf a).reordered _⟩
  have hheap := hx.onlyHeap m
  rcases hm : x m with ⟨e | a, m'⟩ <;> rw [hm] at hheap
  · rw [bind_of_error hm]
    exact hheap
  · rw [bind_of_ok hm]
    refine ((hf a).onlyHeap m').trans ?_
    simp only at hheap
    rw [hheap]

theorem Respects.query {q : Machine χ σ → Except Fault α} {f : α → Action χ σ β} (hq : ∀ m n, m.Reordered n → q n = q m)
    (hf : ∀ a, Respects (f a)) : Respects (Action.query q >>= f) :=
  Respects.bind ⟨fun _ => rfl, fun m n h => ⟨hq m n h, h⟩⟩ hf

theorem Respects.look {f : Machine χ σ → Action χ σ β} (hsame : ∀ m n : Machine χ σ, m.Reordered n → f n = f m)
    (hf : ∀ m, Respects (f m)) : Respects (Action.look >>= f) := by
  refine ⟨fun m => ?_, fun m => .look (hsame m) ((hf m).reordered m)⟩
  rw [bind_of_ok (look_eq m)]
  exact (hf m).onlyHeap m

/-! ## Objects -/

theorem respects_allocate {o : Object χ} (ho : o.IsNew) : Respects (allocate o : Action χ σ Ref) := by
  refine ⟨fun _ => rfl, fun m n h => ?_⟩
  obtain ⟨hr, hheap⟩ := h.heap.allocate ho.reordered
  refine ⟨congrArg Except.ok hr, hheap, ?_⟩
  show { n with heap := (n.heap.allocate o).2 } = { m with heap := (n.heap.allocate o).2 }
  rw [h.rest]

/-- Two changes of the heap that both succeed or both fail with one fault. -/
theorem respects_onHeap {f : Heap χ → Except Fault (Heap χ)}
    (hf : ∀ h h' : Heap χ, h.Reordered h' → (∃ g g', f h = .ok g ∧ f h' = .ok g' ∧ g.Reordered g') ∨
      ∃ e, f h = .error e ∧ f h' = .error e) : Respects (onHeap f : Action χ σ Unit) := by
  refine ⟨fun m => ?_, fun m n h => ?_⟩
  · unfold onHeap
    cases f m.heap <;> rfl
  · unfold onHeap
    rcases hf m.heap n.heap h.heap with ⟨g, g', hg, hg', hr⟩ | ⟨e, he, he'⟩
    · rw [hg, hg']
      refine ⟨rfl, hr, ?_⟩
      show { n with heap := g' } = { m with heap := g' }
      rw [h.rest]
    · rw [he, he']
      exact ⟨rfl, h⟩

theorem respects_changeTable (r : Ref) {f : Table → Table} (hf : ∀ t t', t.Reordered t' → (f t).Reordered (f t')) :
    Respects (onHeap (fun h => h.changeTable r f) : Action χ σ Unit) := by
  refine respects_onHeap fun h h' hr => ?_
  unfold Heap.changeTable
  rcases hr.table r with ⟨t, t', hx, hy, ht, -⟩ | ⟨e, hx, hy⟩
  · rw [hx, hy]
    exact Or.inl ⟨_, _, rfl, rfl, hr.put _ (.table (hf t t' ht))⟩
  · rw [hx, hy]
    exact Or.inr ⟨e, rfl, rfl⟩

theorem respects_changeUserdata (r : Ref) (f : Userdata → Userdata) :
    Respects (onHeap (fun h => h.changeUserdata r f) : Action χ σ Unit) := by
  refine respects_onHeap fun h h' hr => ?_
  unfold Heap.changeUserdata
  rw [hr.userdata]
  cases h.userdata r with
  | ok u => exact Or.inl ⟨_, _, rfl, rfl, hr.put _ (.userdata _)⟩
  | error e => exact Or.inr ⟨e, rfl, rfl⟩

/-! ## Raw access -/

theorem respects_newTable : Respects (newTable : Action χ σ Ref) := respects_allocate rfl

theorem respects_newUserdata (p : Payload) : Respects (newUserdata p : Action χ σ Ref) := respects_allocate rfl

theorem respects_newFunction (name : String) (code : Code χ) (upvalues : List Value) :
    Respects (newFunction name code upvalues : Action χ σ Ref) := respects_allocate trivial

theorem respects_store (t : Ref) (k : Key) (v : Value) :
    Respects (onHeap (fun h => h.changeTable t (fun table => table.set k v)) : Action χ σ Unit) :=
  respects_changeTable t fun _ _ ht => ht.set k v

theorem respects_setField (t : Ref) (name : String) (v : Value) : Respects (setField t name v : Action χ σ Unit) :=
  respects_store t (.string name) v

theorem respects_setAt (t : Ref) (i : Int64) (v : Value) : Respects (setAt t i v : Action χ σ Unit) :=
  respects_store t (.integer i) v

theorem respects_rawSet (t : Ref) (k v : Value) : Respects (rawSet t k v : Action χ σ Unit) := by
  unfold rawSet
  split
  · exact respects_fail _
  · exact respects_store t _ v

theorem respects_remove (t : Ref) (k : Value) : Respects (remove t k : Action χ σ (Option Value)) := by
  unfold remove
  split
  · exact respects_fail _
  · rename_i key _
    -- what is answered was looked up before, and is the same
    have hsame : (do
        let table ← query (fun m => m.heap.table t)
        onHeap (fun h => h.changeTable t (fun table => table.erase key))
        return table.find? key : Action χ σ (Option Value)) = (do
        let found ← query (fun m => (m.heap.table t).map fun table => table.find? key)
        onHeap (fun h => h.changeTable t (fun table => table.erase key))
        return found : Action χ σ (Option Value)) := by
      funext m
      show Action.bind (Action.query _) _ m = Action.bind (Action.query _) _ m
      rw [query_bind, query_bind]
      cases m.heap.table t <;> rfl
    rw [hsame]
    refine .query (fun _ _ h => ?_) fun _ => (respects_changeTable t fun _ _ ht => ht.erase key).bind fun _ => respects_pure _
    exact h.heap.of_table t (fun found => found.map fun table => table.find? key) fun _ _ ht => by
      simp only [Except.map, ht.find?]

theorem respects_requireTable (r : Option Ref) : Respects (requireTable r : Action χ σ Unit) := by
  cases r with
  | none => exact respects_pure _
  | some r =>
    have hsame : (requireTable (some r) : Action χ σ Unit) = query fun m => (m.heap.table r).map fun _ => () := by
      funext m
      show Action.bind (Action.query fun m => m.heap.table r) _ m = _
      rw [query_bind, query]
      cases m.heap.table r <;> rfl
    rw [hsame]
    exact ⟨fun _ => rfl, fun _ _ h => ⟨h.heap.of_table r (fun found => found.map fun _ => ()) fun _ _ _ => rfl, h⟩⟩

theorem respects_setMetatable (v : Value) (mt : Option Ref) : Respects (setMetatable v mt : Action χ σ Unit) := by
  unfold setMetatable
  refine (respects_requireTable mt).bind fun _ => ?_
  split
  · exact respects_changeTable _ fun t t' ht => ⟨ht.unique, ht.entries, rfl⟩
  · exact respects_changeUserdata _ _
  · exact respects_fail _

theorem respects_setEnvironment (u : Ref) (env : Option Ref) : Respects (setEnvironment u env : Action χ σ Unit) :=
  (respects_requireTable env).bind fun _ => respects_changeUserdata _ _

theorem respects_setPayload (u : Ref) (p : Payload) : Respects (setPayload u p : Action χ σ Bool) := by
  refine .query (fun _ _ h => h.heap.userdata u) fun held => ?_
  split
  · exact (respects_changeUserdata u _).bind fun _ => respects_pure _
  · exact respects_pure _

theorem respects_setRegistry (name : String) (v : Value) : Respects (setRegistry name v : Action χ σ Unit) :=
  .look (fun _ _ h => by rw [h.registry]) fun _ => respects_setField _ _ _

theorem respects_setGlobal (name : String) (v : Value) : Respects (setGlobal name v : Action χ σ Unit) :=
  .look (fun _ _ h => by rw [h.globals]) fun _ => respects_setField _ _ _

theorem respects_metatableNamed (name : String) : Respects (metatableNamed name : Action χ σ (Ref × Bool)) := by
  refine .query (fun _ _ h => h.registryField name) fun v => ?_
  split
  · exact respects_pure _
  · exact respects_newTable.bind fun mt => (respects_setField _ _ _).bind fun _ => (respects_setRegistry _ _).bind fun _ =>
      respects_pure _

/-! ## The binding layer -/

theorem respects_registryTable (name : String) (mode : Option String) : Respects (Registry.table name mode : Action χ σ Ref) := by
  refine .query (fun _ _ h => h.registryField name) fun v => ?_
  split
  · exact respects_pure _
  · refine Respects.bind ?_ fun t => (respects_setRegistry _ _).bind fun _ => respects_pure _
    cases mode with
    | none => exact respects_newTable
    | some mode =>
      exact respects_newTable.bind fun t => respects_newTable.bind fun mt => (respects_setField _ _ _).bind fun _ =>
        (respects_setMetatable _ _).bind fun _ => respects_pure _

theorem respects_ensureHandle (a : Address) : Respects (ensureHandle a : Action χ σ Ref) := by
  refine (respects_registryTable _ _).bind fun pointers => .query (fun _ _ h => h.rawGet pointers (.address a)) fun v => ?_
  split
  · exact respects_pure _
  · exact (respects_newUserdata _).bind fun handle => respects_newTable.bind fun shadow =>
      (respects_setEnvironment _ _).bind fun _ => (respects_rawSet _ _ _).bind fun _ => respects_pure _

theorem respects_unregister (a : Address) : Respects (unregister a : Action χ σ Unit) := by
  refine .look (fun _ _ h => by rw [h.find?]) fun m => ?_
  split
  · exact respects_pure _
  · rename_i pointers _
    refine .query (fun _ _ h => h.rawGet pointers (.address a)) fun v => ?_
    split
    · exact (respects_changeUserdata _ _).bind fun _ => respects_rawSet _ _ _
    · exact respects_pure _

theorem respects_wrap (a : Address) (name : String) : Respects (wrap a name : Action χ σ Value) := by
  unfold wrap
  split
  · exact respects_pure _
  · refine (respects_ensureHandle a).bind fun handle => (respects_metatableNamed name).bind fun found => ?_
    exact (respects_setMetatable _ _).bind fun _ => respects_pure _

theorem respects_newReader (name : String) (cls : Ref) (bases : List Ref) :
    Respects (Attribute.newReader name cls bases : Action χ σ Ref) := respects_newFunction _ _ _

theorem respects_writeAttribute (c : Call) : Respects (Attribute.write c : Action χ σ (List Value)) := by
  refine .query (fun _ _ h => h.shadow? (c.arg 1)) fun shadow => ?_
  split
  · exact respects_pure _
  · exact (respects_rawSet _ _ _).bind fun _ => respects_pure _

theorem respects_installMethods (cls : Ref) (name : String) (methods : List (String × χ)) :
    Respects (ClassDescriptor.installMethods cls name methods : Action χ σ _) := by
  induction methods with
  | nil => exact respects_pure _
  | cons e rest ih =>
    exact (respects_newFunction _ _ _).bind fun f => (respects_setField _ _ _).bind fun _ => ih.bind fun _ => respects_pure _

theorem respects_publish (t : Ref) (methods : List (String × Ref)) :
    Respects (ClassDescriptor.publish t methods : Action χ σ Unit) := by
  induction methods with
  | nil => exact respects_pure _
  | cons e rest ih => exact (respects_setField _ _ _).bind fun _ => ih

theorem respects_install (d : ClassDescriptor χ) : Respects (d.install : Action χ σ Unit) := by
  refine (respects_metatableNamed _).bind fun found => (respects_installMethods _ _ _).bind fun methods => ?_
  refine (respects_setField _ _ _).bind fun _ => .query (fun _ _ h => by rw [h.baseTables]) fun bases => ?_
  refine (respects_newReader _ _ _).bind fun reader => (respects_newFunction _ _ _).bind fun writer => ?_
  refine (respects_newFunction _ _ _).bind fun finalizer => (respects_setField _ _ _).bind fun _ => ?_
  refine (respects_setField _ _ _).bind fun _ => (respects_setField _ _ _).bind fun _ => ?_
  refine (respects_setMetatable _ _).bind fun _ => respects_newTable.bind fun space => ?_
  exact (respects_publish _ _).bind fun _ => respects_setGlobal _ _

theorem respects_installAll (classes : List (ClassDescriptor χ)) :
    Respects (ClassDescriptor.installAll classes : Action χ σ Unit) := by
  refine .query (fun _ _ h => h.checkClasses [] classes) fun _ => ?_
  induction classes with
  | nil => exact respects_pure _
  | cons d rest ih => exact (respects_install d).bind fun _ => ih

theorem respects_fillEnumeration (t : Ref) (members : List (String × Int64)) :
    Respects (EnumDescriptor.fill t members : Action χ σ Unit) := by
  induction members with
  | nil => exact respects_pure _
  | cons e rest ih => exact (respects_setField _ _ _).bind fun _ => (respects_setAt _ _ _).bind fun _ => ih

theorem respects_defineAll (enums : List EnumDescriptor) : Respects (EnumDescriptor.defineAll enums : Action χ σ Unit) := by
  induction enums with
  | nil => exact respects_pure _
  | cons d rest ih =>
    refine Respects.bind ?_ fun _ => ih
    exact (respects_registryTable _ _).bind fun all => respects_newTable.bind fun t =>
      (respects_fillEnumeration _ _).bind fun _ => respects_setField _ _ _

theorem respects_stage (p : Payload) : Respects (Cell.stage p : Action χ σ Ref) := by
  refine (respects_registryTable _ _).bind fun cells => (respects_newUserdata _).bind fun cell => Respects.bind ?_ fun place => ?_
  · exact .query (fun _ _ h => h.registryField _) fun _ => (respects_setRegistry _ _).bind fun _ => respects_pure _
  · exact (respects_setAt _ _ _).bind fun _ => respects_pure _

theorem respects_stageArguments (v : Value) : Respects (Arguments.ofValue v : Action χ σ StagedArguments) := by
  unfold Arguments.ofValue
  split
  · rename_i r
    -- the table that is read lists its entries in another order, but its texts are the same
    have hsame : (do
        let t ← Action.query (fun m => m.heap.table r)
        let texts := t.leadingTexts.map Arguments.cut
        return ⟨← Cell.stage (.arguments texts), texts⟩ : Action χ σ StagedArguments) = (do
        let texts ← Action.query (fun m => (m.heap.table r).map fun t => t.leadingTexts.map Arguments.cut)
        return ⟨← Cell.stage (.arguments texts), texts⟩ : Action χ σ StagedArguments) := by
      funext m
      show Action.bind (Action.query _) _ m = Action.bind (Action.query _) _ m
      rw [query_bind, query_bind]
      cases m.heap.table r <;> rfl
    rw [hsame]
    refine .query (fun _ _ h => ?_) fun _ => (respects_stage _).bind fun _ => respects_pure _
    exact h.heap.of_table r (fun found => found.map fun t => t.leadingTexts.map Arguments.cut) fun _ _ ht => by
      simp only [Except.map, ht.leadingTexts]
  · exact respects_fail _

theorem respects_stageInteger (v : Value) : Respects (Arguments.stageInteger v : Action χ σ StagedInteger) :=
  (respects_stage _).bind fun _ => respects_pure _

theorem respects_fillTexts (t : Ref) (n : Nat) (texts : List String) :
    Respects (Arguments.fill t n texts : Action χ σ Unit) := by
  induction texts generalizing n with
  | nil => exact respects_pure _
  | cons s rest ih => exact (respects_setAt _ _ _).bind fun _ => ih _

theorem respects_newTexts (texts : List String) : Respects (Arguments.toTable texts : Action χ σ Ref) :=
  respects_newTable.bind fun _ => (respects_fillTexts _ _ _).bind fun _ => respects_pure _

end Action

/-! ## Requests for the heap -/

namespace Request

/-- The request is about the heap and calls nothing. -/
def IsForHeap : Request χ σ → Prop
  | look | keep _ | push _ | pop | setTop _ | pin _ | unpin _ => False
  | r => r.IsSilent

open ScriptHost.Action in
theorem respects_perform (c : Caller χ σ) {r : Request χ σ} (hr : r.IsForHeap) : (r.perform c).Respects := by
  cases r with
  | newTable => exact respects_newTable
  | newUserdata p => exact respects_newUserdata p
  | newFunction name code upvalues => exact respects_newFunction name code upvalues
  | rawSet t k v => exact respects_rawSet t k v
  | remove t k => exact respects_remove t k
  | setMetatable v mt => exact respects_setMetatable v mt
  | setEnvironment u env => exact respects_setEnvironment u env
  | setPayload u p => exact respects_setPayload u p
  | metatableNamed name => exact respects_metatableNamed name
  | ensureHandle a => exact respects_ensureHandle a
  | unregister a => exact respects_unregister a
  | wrap a name => exact respects_wrap a name
  | installClasses classes => exact respects_installAll classes
  | newReader name cls bases => exact respects_newReader name cls bases
  | defineEnums enums => exact respects_defineAll enums
  | stage p => exact respects_stage p
  | stageInteger v => exact respects_stageInteger v
  | stageArguments v => exact respects_stageArguments v
  | newTexts texts => exact respects_newTexts texts
  | _ => exact hr.elim

end Request

end ScriptHost

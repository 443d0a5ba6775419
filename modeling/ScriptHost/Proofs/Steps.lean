import Mathlib.Logic.Relation
import ScriptHost.Call
import ScriptHost.Proofs.Heap

/-!
# Primitive steps

Whatever native code asks for, calls and collections apart, is a sequence of primitive steps of the machine (`Machine.Step`):
an object is made, one entry of a table, one metatable or one environment is changed, or the stack, the pins or what the host
keeps of its own. A step of this kind never touches the bookkeeping of calls and collections (`Machine.frame`), so what every
primitive step keeps, every such request keeps (`Request.perform_steps`).
-/

namespace ScriptHost

variable {χ σ α β : Type}

/-! ## Steps of the heap -/

/-- An object as it is made: an empty table, a userdata around a payload, or a function. -/
def Object.IsNew : Object χ → Prop
  | .table t => t = .empty
  | .userdata u => u = .ofPayload u.payload
  | .function _ => True

/-- One primitive step of the heap. Only what is the key of a value gets an entry. No step changes a function, and none takes the
flag of a userdata away. -/
inductive Heap.Step (h : Heap χ) : Heap χ → Prop where
  | allocate (o : Object χ) (ho : o.IsNew) : Step h (h.allocate o).2
  | store {r : Ref} {t : Table} (k : Key) (v : Value) (ht : h.object? r = some (.table t)) (hk : ∃ w, Key.ofValue w = .ok k) :
      Step h (h.put r.slot (.table (t.set k v)))
  | erase {r : Ref} {t : Table} (k : Key) (ht : h.object? r = some (.table t)) :
      Step h (h.put r.slot (.table (t.erase k)))
  | tableClass {r : Ref} {t : Table} (mt : Option Ref) (ht : h.object? r = some (.table t)) :
      Step h (h.put r.slot (.table { t with metatable := mt }))
  | userdata {r : Ref} {u u' : Userdata} (hu : h.object? r = some (.userdata u)) (hf : u'.finalized = u.finalized) :
      Step h (h.put r.slot (.userdata u'))

/-! ## Steps of the machine -/

namespace Machine

/-- One primitive step of the machine. -/
inductive Step (m : Machine χ σ) : Machine χ σ → Prop where
  | heap {h : Heap χ} (hh : m.heap.Step h) : Step m { m with heap := h }
  | stack (s : Array Value) : Step m { m with stack := s }
  | pin (v : Value) : Step m { m with pins := (m.pins.pin v).2 }
  | unpin (p : Pin) : Step m { m with pins := (m.pins.unpin p).2 }
  | host (memory : σ) : Step m { m with host := memory }

/-- Primitive steps, one after the other. -/
abbrev Steps : Machine χ σ → Machine χ σ → Prop := Relation.ReflTransGen Step

/-- The bookkeeping of a machine, which only calls and collections touch. -/
structure Frame where
  registry : Ref
  globals : Ref
  limits : Limits
  depth : Nat
  pending : List Ref
  collecting : Bool
  statistics : Statistics

/-- The bookkeeping of the machine. -/
def frame (m : Machine χ σ) : Frame :=
  ⟨m.registry, m.globals, m.limits, m.depth, m.pending, m.collecting, m.statistics⟩

theorem Step.frame_eq {m m' : Machine χ σ} (h : m.Step m') : m'.frame = m.frame := by
  cases h <;> rfl

/-- What every primitive step keeps, primitive steps keep. -/
theorem Steps.keep {I : Machine χ σ → Prop} (hI : ∀ m m' : Machine χ σ, I m → m.Step m' → I m') {m m' : Machine χ σ}
    (h : m.Steps m') (hm : I m) : I m' := by
  induction h with
  | refl => exact hm
  | tail _ hs ih => exact hI _ _ ih hs

theorem Steps.frame_eq {m m' : Machine χ σ} (h : m.Steps m') : m'.frame = m.frame :=
  h.keep (I := fun x => x.frame = m.frame) (fun _ _ hx hs => hs.frame_eq.trans hx) rfl

end Machine

/-! ## Actions made of primitive steps -/

namespace Action

/-- The action does nothing but primitive steps, whether it answers or fails. -/
def Quiet (x : Action χ σ α) : Prop := ∀ m : Machine χ σ, m.Steps (x m).2

theorem quiet_pure (a : α) : Quiet (pure a : Action χ σ α) := fun _ => .refl

theorem quiet_fail (e : Fault) : Quiet (fail e : Action χ σ α) := fun _ => .refl

theorem quiet_look : Quiet (look : Action χ σ (Machine χ σ)) := fun _ => .refl

theorem quiet_query (f : Machine χ σ → Except Fault α) : Quiet (query f) := fun _ => .refl

theorem Quiet.bind {x : Action χ σ α} {f : α → Action χ σ β} (hx : Quiet x) (hf : ∀ a, Quiet (f a)) :
    Quiet (x >>= f) := by
  intro m
  show m.Steps (Action.bind x f m).2
  have hm := hx m
  unfold Action.bind
  cases hxm : x m with
  | mk result m' =>
    rw [hxm] at hm
    cases result with
    | ok a => exact hm.trans (hf a m')
    | error e => exact hm

theorem quiet_onHeap {f : Heap χ → Except Fault (Heap χ)} (hf : ∀ h h', f h = .ok h' → h.Step h') :
    Quiet (onHeap f : Action χ σ Unit) := by
  intro m
  unfold onHeap
  cases h : f m.heap with
  | ok h' => exact .single (.heap (hf _ _ h))
  | error e => exact .refl

/-- Changing a table is quiet when the change is one of the steps. -/
theorem quiet_changeTable (r : Ref) {f : Table → Table}
    (hf : ∀ (h : Heap χ) t, h.object? r = some (.table t) → h.Step (h.put r.slot (.table (f t)))) :
    Quiet (onHeap (fun h => h.changeTable r f) : Action χ σ Unit) := by
  refine quiet_onHeap fun h h' hh => ?_
  obtain ⟨t, ht, rfl⟩ := Heap.changeTable_eq_ok_iff.1 hh
  exact hf h t ht

theorem quiet_changeUserdata (r : Ref) {f : Userdata → Userdata} (hf : ∀ u, (f u).finalized = u.finalized) :
    Quiet (onHeap (fun h => h.changeUserdata r f) : Action χ σ Unit) := by
  refine quiet_onHeap fun h h' hh => ?_
  obtain ⟨u, hu, rfl⟩ := Heap.changeUserdata_eq_ok_iff.1 hh
  exact .userdata hu (hf u)

theorem quiet_allocate {o : Object χ} (ho : o.IsNew) : Quiet (allocate o : Action χ σ Ref) :=
  fun _ => .single (.heap (.allocate o ho))

/-! ### Raw access -/

theorem quiet_newTable : Quiet (newTable : Action χ σ Ref) := quiet_allocate rfl

theorem quiet_newUserdata (p : Payload) : Quiet (newUserdata p : Action χ σ Ref) := quiet_allocate rfl

theorem quiet_newFunction (name : String) (code : Code χ) (upvalues : List Value) :
    Quiet (newFunction name code upvalues : Action χ σ Ref) := quiet_allocate trivial

theorem quiet_store (t : Ref) {k : Key} {w : Value} (hk : Key.ofValue w = .ok k) (v : Value) :
    Quiet (onHeap (fun h => h.changeTable t (fun table => table.set k v)) : Action χ σ Unit) :=
  quiet_changeTable t fun _ _ ht => .store k v ht ⟨w, hk⟩

theorem quiet_setField (t : Ref) (name : String) (v : Value) : Quiet (setField t name v : Action χ σ Unit) :=
  quiet_store t (w := .string name) rfl v

theorem quiet_setAt (t : Ref) (i : Int64) (v : Value) : Quiet (setAt t i v : Action χ σ Unit) :=
  quiet_store t (w := .integer i) rfl v

theorem quiet_rawSet (t : Ref) (k v : Value) : Quiet (rawSet t k v : Action χ σ Unit) := by
  unfold rawSet
  split
  · exact quiet_fail _
  · rename_i key hkey
    exact quiet_store t hkey v

theorem quiet_remove (t : Ref) (k : Value) : Quiet (remove t k : Action χ σ (Option Value)) := by
  unfold remove
  split
  · exact quiet_fail _
  · refine (quiet_query _).bind fun table => ?_
    exact (quiet_changeTable t fun _ _ ht => .erase _ ht).bind fun _ => quiet_pure _

theorem quiet_requireTable (r : Option Ref) : Quiet (requireTable r : Action χ σ Unit) := by
  unfold requireTable
  split
  · exact quiet_pure _
  · exact (quiet_query _).bind fun _ => quiet_pure _

theorem quiet_setMetatable (v : Value) (mt : Option Ref) : Quiet (setMetatable v mt : Action χ σ Unit) := by
  unfold setMetatable
  refine (quiet_requireTable mt).bind fun _ => ?_
  split
  · exact quiet_changeTable _ fun _ _ ht => .tableClass mt ht
  · exact quiet_changeUserdata _ fun _ => rfl
  · exact quiet_fail _

theorem quiet_setEnvironment (u : Ref) (env : Option Ref) : Quiet (setEnvironment u env : Action χ σ Unit) :=
  (quiet_requireTable env).bind fun _ => quiet_changeUserdata _ fun _ => rfl

theorem quiet_setPayload (u : Ref) (p : Payload) : Quiet (setPayload u p : Action χ σ Bool) := by
  refine (quiet_query _).bind fun held => ?_
  split
  · exact (quiet_changeUserdata u (f := fun u => { u with payload := p }) fun _ => rfl).bind fun _ => quiet_pure _
  · exact quiet_pure _

theorem quiet_setRegistry (name : String) (v : Value) : Quiet (setRegistry name v : Action χ σ Unit) :=
  quiet_look.bind fun _ => quiet_setField _ _ _

theorem quiet_setGlobal (name : String) (v : Value) : Quiet (setGlobal name v : Action χ σ Unit) :=
  quiet_look.bind fun _ => quiet_setField _ _ _

theorem quiet_metatableNamed (name : String) : Quiet (metatableNamed name : Action χ σ (Ref × Bool)) := by
  refine (quiet_query _).bind fun v => ?_
  split
  · exact quiet_pure _
  · exact quiet_newTable.bind fun mt => (quiet_setField _ _ _).bind fun _ => (quiet_setRegistry _ _).bind fun _ => quiet_pure _

theorem quiet_push (v : Value) : Quiet (push v : Action χ σ Unit) := fun _ => .single (.stack _)

theorem quiet_pop : Quiet (pop : Action χ σ Value) := fun _ => .single (.stack _)

theorem quiet_setTop (height : Nat) : Quiet (setTop height : Action χ σ Unit) := fun _ => .single (.stack _)

theorem quiet_pin (v : Value) : Quiet (pin v : Action χ σ Pin) := fun _ => .single (.pin v)

theorem quiet_unpin (p : Pin) : Quiet (unpin p : Action χ σ (Option Value)) := fun _ => .single (.unpin p)

/-! ### The binding layer -/

theorem quiet_registryTable (name : String) (mode : Option String) :
    Quiet (Registry.table name mode : Action χ σ Ref) := by
  refine (quiet_query _).bind fun v => ?_
  split
  · exact quiet_pure _
  · refine Quiet.bind ?_ fun t => (quiet_setRegistry _ _).bind fun _ => quiet_pure _
    cases mode with
    | none => exact quiet_newTable
    | some mode =>
      exact quiet_newTable.bind fun t => quiet_newTable.bind fun mt => (quiet_setField _ _ _).bind fun _ =>
        (quiet_setMetatable _ _).bind fun _ => quiet_pure _

theorem quiet_ensureHandle (a : Address) : Quiet (ensureHandle a : Action χ σ Ref) := by
  refine (quiet_registryTable _ _).bind fun pointers => (quiet_query _).bind fun v => ?_
  split
  · exact quiet_pure _
  · exact (quiet_newUserdata _).bind fun handle => quiet_newTable.bind fun shadow =>
      (quiet_setEnvironment _ _).bind fun _ => (quiet_rawSet _ _ _).bind fun _ => quiet_pure _

theorem finalized_forgetAddress (u : Userdata) : u.forgetAddress.finalized = u.finalized := by
  unfold Userdata.forgetAddress
  split <;> rfl

theorem quiet_unregister (a : Address) : Quiet (unregister a : Action χ σ Unit) := by
  refine quiet_look.bind fun m => ?_
  split
  · exact quiet_pure _
  · refine (quiet_query _).bind fun v => ?_
    split
    · exact (quiet_changeUserdata _ finalized_forgetAddress).bind fun _ => quiet_rawSet _ _ _
    · exact quiet_pure _

theorem quiet_wrap (a : Address) (name : String) : Quiet (wrap a name : Action χ σ Value) := by
  unfold wrap
  split
  · exact quiet_pure _
  · refine (quiet_ensureHandle a).bind fun handle => (quiet_metatableNamed name).bind fun found => ?_
    exact (quiet_setMetatable _ _).bind fun _ => quiet_pure _

theorem quiet_newReader (name : String) (cls : Ref) (bases : List Ref) :
    Quiet (Attribute.newReader name cls bases : Action χ σ Ref) := quiet_newFunction _ _ _

theorem quiet_writeAttribute (c : Call) : Quiet (Attribute.write c : Action χ σ (List Value)) := by
  refine (quiet_query _).bind fun shadow => ?_
  split
  · exact quiet_pure _
  · exact (quiet_rawSet _ _ _).bind fun _ => quiet_pure _

theorem quiet_installMethods (cls : Ref) (name : String) (methods : List (String × χ)) :
    Quiet (ClassDescriptor.installMethods cls name methods : Action χ σ _) := by
  induction methods with
  | nil => exact quiet_pure _
  | cons e rest ih =>
    exact (quiet_newFunction _ _ _).bind fun f => (quiet_setField _ _ _).bind fun _ => ih.bind fun _ => quiet_pure _

theorem quiet_publish (t : Ref) (methods : List (String × Ref)) :
    Quiet (ClassDescriptor.publish t methods : Action χ σ Unit) := by
  induction methods with
  | nil => exact quiet_pure _
  | cons e rest ih => exact (quiet_setField _ _ _).bind fun _ => ih

theorem quiet_install (d : ClassDescriptor χ) : Quiet (d.install : Action χ σ Unit) := by
  refine (quiet_metatableNamed _).bind fun found => (quiet_installMethods _ _ _).bind fun methods => ?_
  refine (quiet_setField _ _ _).bind fun _ => (quiet_query _).bind fun bases => ?_
  refine (quiet_newReader _ _ _).bind fun reader => (quiet_newFunction _ _ _).bind fun writer => ?_
  refine (quiet_newFunction _ _ _).bind fun finalizer => (quiet_setField _ _ _).bind fun _ => ?_
  refine (quiet_setField _ _ _).bind fun _ => (quiet_setField _ _ _).bind fun _ => ?_
  refine (quiet_setMetatable _ _).bind fun _ => quiet_newTable.bind fun space => ?_
  exact (quiet_publish _ _).bind fun _ => quiet_setGlobal _ _

theorem quiet_installAll (classes : List (ClassDescriptor χ)) :
    Quiet (ClassDescriptor.installAll classes : Action χ σ Unit) := by
  refine (quiet_query _).bind fun _ => ?_
  induction classes with
  | nil => exact quiet_pure _
  | cons d rest ih => exact (quiet_install d).bind fun _ => ih

theorem quiet_fillEnumeration (t : Ref) (members : List (String × Int64)) :
    Quiet (EnumDescriptor.fill t members : Action χ σ Unit) := by
  induction members with
  | nil => exact quiet_pure _
  | cons e rest ih => exact (quiet_setField _ _ _).bind fun _ => (quiet_setAt _ _ _).bind fun _ => ih

theorem quiet_defineAll (enums : List EnumDescriptor) : Quiet (EnumDescriptor.defineAll enums : Action χ σ Unit) := by
  induction enums with
  | nil => exact quiet_pure _
  | cons d rest ih =>
    refine Quiet.bind ?_ fun _ => ih
    exact (quiet_registryTable _ _).bind fun all => quiet_newTable.bind fun t =>
      (quiet_fillEnumeration _ _).bind fun _ => quiet_setField _ _ _

theorem quiet_stage (p : Payload) : Quiet (Cell.stage p : Action χ σ Ref) := by
  refine (quiet_registryTable _ _).bind fun cells => (quiet_newUserdata _).bind fun cell => Quiet.bind ?_ fun place => ?_
  · exact (quiet_query _).bind fun _ => (quiet_setRegistry _ _).bind fun _ => quiet_pure _
  · exact (quiet_setAt _ _ _).bind fun _ => quiet_pure _

theorem quiet_stageArguments (v : Value) : Quiet (Arguments.ofValue v : Action χ σ StagedArguments) := by
  unfold Arguments.ofValue
  split
  · exact (quiet_query _).bind fun _ => (quiet_stage _).bind fun _ => quiet_pure _
  · exact quiet_fail _

theorem quiet_stageInteger (v : Value) : Quiet (Arguments.stageInteger v : Action χ σ StagedInteger) :=
  (quiet_stage _).bind fun _ => quiet_pure _

theorem quiet_fillTexts (t : Ref) (n : Nat) (texts : List String) :
    Quiet (Arguments.fill t n texts : Action χ σ Unit) := by
  induction texts generalizing n with
  | nil => exact quiet_pure _
  | cons s rest ih => exact (quiet_setAt _ _ _).bind fun _ => ih _

theorem quiet_newTexts (texts : List String) : Quiet (Arguments.toTable texts : Action χ σ Ref) :=
  quiet_newTable.bind fun _ => (quiet_fillTexts _ _ _).bind fun _ => quiet_pure _

end Action

/-! ## Requests that call nothing -/

namespace Request

/-- The request neither calls a function nor collects. -/
def IsSilent : Request χ σ → Prop
  | index .. | setIndex .. | call .. | callMethod .. | collect | isKindOf .. => False
  | _ => True

open ScriptHost.Action in
theorem perform_steps (c : Caller χ σ) {r : Request χ σ} (hr : r.IsSilent) : (r.perform c).Quiet := by
  cases r with
  | look => exact quiet_look
  | keep memory => exact fun _ => .single (.host _)
  | newTable => exact quiet_newTable
  | newUserdata p => exact quiet_newUserdata p
  | newFunction name code upvalues => exact quiet_newFunction name code upvalues
  | push v => exact quiet_push v
  | pop => exact quiet_pop
  | setTop height => exact quiet_setTop height
  | pin v => exact quiet_pin v
  | unpin p => exact quiet_unpin p
  | rawSet t k v => exact quiet_rawSet t k v
  | remove t k => exact quiet_remove t k
  | setMetatable v mt => exact quiet_setMetatable v mt
  | setEnvironment u env => exact quiet_setEnvironment u env
  | setPayload u p => exact quiet_setPayload u p
  | metatableNamed name => exact quiet_metatableNamed name
  | ensureHandle a => exact quiet_ensureHandle a
  | unregister a => exact quiet_unregister a
  | wrap a name => exact quiet_wrap a name
  | installClasses classes => exact quiet_installAll classes
  | newReader name cls bases => exact quiet_newReader name cls bases
  | defineEnums enums => exact quiet_defineAll enums
  | stage p => exact quiet_stage p
  | stageInteger v => exact quiet_stageInteger v
  | stageArguments v => exact quiet_stageArguments v
  | newTexts texts => exact quiet_newTexts texts
  | index v key => exact hr.elim
  | setIndex target key v => exact hr.elim
  | call f args => exact hr.elim
  | callMethod v name args => exact hr.elim
  | collect => exact hr.elim
  | isKindOf v name => exact hr.elim

/-- A silent request does not depend on what calls functions. -/
theorem perform_eq_of_silent (c c' : Caller χ σ) {r : Request χ σ} (hr : r.IsSilent) :
    r.perform c = r.perform c' := by
  cases r <;> first | rfl | exact hr.elim

end Request

end ScriptHost

import ScriptHost.Proofs.Handles
import ScriptHost.Proofs.Runs

/-!
# Requests that keep the listing

Native code may ask for anything that leaves the tables of the binding layer alone (`Machine.Permits`): every operation of the
binding layer on handles and classes, everything on the stack, the pins, functions and tables of its own, calls and collections.
It makes no handles of its own, gives a handle no other metatable, and writes to no table of the binding layer. A write through
the metamethods of a handle needs no such care. The listing then lasts through a whole run (`Reached.interned`). Enumerations and
reference cells are left aside: they keep tables of their own in the registry.
-/

namespace ScriptHost

variable {χ σ : Type}

/-- The request leaves the tables of the binding layer alone. -/
def Machine.Permits (m : Machine χ σ) : Request χ σ → Prop
  | .newUserdata payload | .setPayload _ payload => ∀ a, payload ≠ .handle a
  | .rawSet t _ _ | .remove t _ | .setMetatable (.table t) _ => ¬m.Guarded t
  | .setMetatable (.userdata r) _ => m.address? r = none
  | .setEnvironment _ env => ∀ e, env = some e → ¬m.Guarded e
  | .metatableNamed name => name ≠ Registry.pointers
  | .setIndex target key _ => (m.identity? target).isSome ∨
      ∀ t, m.landsOn key m.limits.maxIndexChain target = some t → ¬m.Guarded t
  | .defineEnums _ | .stage _ | .stageInteger _ | .stageArguments _ => False
  | _ => True

/-- Only an address is of the type of addresses. -/
theorem Payload.eq_handle_of_sameType {a : Address} {p : Payload} (h : (Payload.handle a).sameType p = true) :
    ∃ b, p = .handle b := by
  cases p with
  | handle b => exact ⟨b, rfl⟩
  | _ => cases h

namespace Action

/-! ## Requests that call nothing -/

theorem tidy_modify {K : Machine χ σ → Prop} {f : Machine χ σ → Machine χ σ} (hheap : ∀ m, (f m).heap = m.heap)
    (hregistry : ∀ m, (f m).registry = m.registry) (hglobals : ∀ m, (f m).globals = m.globals) :
    Tidy K (modify f : Action χ σ Unit) :=
  tidy_of_tame fun m hm _ => Machine.tame_of_heap_eq hm.wellFormed (hheap m) (hregistry m) (hglobals m)

theorem tidy_remove {K : Machine χ σ → Prop} (t : Ref) (k : Value) (hK : ∀ m, K m → m.Interned → ¬m.Guarded t) :
    Tidy K (remove t k : Action χ σ (Option Value)) := by
  unfold remove
  split
  · exact tidy_fail _
  · rename_i key _
    refine .after_still (fun _ => rfl) fun table => ?_
    have herase : Tidy K (onHeap (fun h => h.changeTable t (fun table => table.erase key)) : Action χ σ Unit) :=
      tidy_changeTable (fun _ hT => hT.erase _) fun m hm hk _ _ hg => absurd hg (hK m hk hm)
    exact herase.answer _

theorem tidy_setEnvironment {K : Machine χ σ → Prop} (r : Ref) (env : Option Ref)
    (hK : ∀ m, K m → ∀ e, env = some e → ¬m.Guarded e) : Tidy K (setEnvironment r env : Action χ σ Unit) := by
  refine (tidy_of_still (requireTable_still env)).bind_of (Q := fun _ m => ∀ e, env = some e → m.Plain e) ?_ fun _ => ?_
  · intro m _ _ hk h e he
    subst he
    rw [requireTable_still]
    exact ⟨isTable_of_requireTable h, hK m hk e rfl⟩
  · refine tidy_changeUserdata (fun _ => rfl) fun m _ hq u _ => ⟨fun _ => .rfl, fun e he => Or.inr (hq e he), ?_⟩
    exact fun _ _ _ hmt => Or.inl hmt

/-- The payload of a userdata that is no handle becomes one that is no address. -/
theorem tidy_setPayload {K : Machine χ σ → Prop} (r : Ref) {p : Payload} (hp : ∀ a, p ≠ .handle a) :
    Tidy K (setPayload r p : Action χ σ Bool) := by
  refine (tidy_query _).bind_of (Q := fun u m => m.heap.object? r = some (.userdata u))
    (fun m u _ _ h => Heap.userdata_eq_ok_iff.1 h) fun held => ?_
  by_cases hsame : held.payload.sameType p = true
  · simp only [hsame, ↓reduceIte]
    refine Tidy.answer ?_ _
    refine tidy_changeUserdata (fun _ => rfl) fun m _ hheld u hu => ?_
    rw [hu] at hheld
    cases hheld
    refine ⟨fun a => ⟨fun h => absurd h (hp a), fun h => ?_⟩, fun e he => Or.inl he, fun a _ h => absurd h (hp a)⟩
    rw [h] at hsame
    obtain ⟨b, rfl⟩ := Payload.eq_handle_of_sameType hsame
    exact absurd rfl (hp b)
  · simp only [hsame]
    exact tidy_pure _

theorem tidy_setMetatable {K : Machine χ σ → Prop} (v : Value) (mt : Option Ref)
    (htable : ∀ t, v = .table t → ∀ m, K m → m.Interned → ¬m.Guarded t)
    (huserdata : ∀ r, v = .userdata r → ∀ m, K m → m.address? r = none) :
    Tidy K (setMetatable v mt : Action χ σ Unit) := by
  cases v with
  | table t => exact tidy_setMetatable_table t mt fun m hk hm hg => absurd hg (htable t rfl m hk hm)
  | userdata r =>
    refine tidy_setMetatable_userdata r mt fun m hk _ => Or.inl fun u a hu hpay => ?_
    have hnone := huserdata r rfl m hk
    unfold Machine.address? at hnone
    rw [Heap.userdata_eq_ok_iff.2 hu] at hnone
    obtain ⟨p, mt', env, fin⟩ := u
    cases hpay
    cases hnone
  | _ => exact .after_still (requireTable_still mt) fun _ => tidy_fail _

theorem tidy_fill (t : Ref) (n : Nat) (texts : List String) :
    Tidy (fun m : Machine χ σ => m.Plain t) (Arguments.fill t n texts) := by
  induction texts generalizing n with
  | nil => exact tidy_pure _
  | cons s rest ih =>
    exact Tidy.bind (Machine.lasting_plain t) (tidy_store_plain t _ _ fun _ h _ => h.2) fun _ => ih (n + 1)

theorem tidy_toTable {K : Machine χ σ → Prop} (texts : List String) : Tidy K (Arguments.toTable texts : Action χ σ Ref) := by
  refine tidy_newTable.bind_of (Q := fun t m => m.Plain t) (fun m t hm _ ht => plain_newTable hm ht) fun t => ?_
  exact (tidy_fill t 0 texts).answer _

end Action

/-- A permitted request that calls nothing keeps the listing. -/
theorem Request.tidy_perform (c : Caller χ σ) {r : Request χ σ} (hr : r.IsSilent) :
    Action.Tidy (fun m => m.Permits r) (r.perform c) := by
  cases r with
  | look => exact Action.tidy_look
  | keep memory => exact Action.tidy_modify (fun _ => rfl) (fun _ => rfl) (fun _ => rfl)
  | newTable => exact Action.tidy_newTable
  | newUserdata p =>
    intro m hm hp
    refine Action.tidy_allocate (K := fun _ => True) (o := .userdata (.ofPayload p)) (fun _ e => nomatch e) (fun u e => ?_) m hm
      trivial
    cases e
    exact ⟨rfl, hp⟩
  | newFunction name code upvalues => exact Action.tidy_newFunction name code upvalues
  | push v => exact Action.tidy_modify (fun _ => rfl) (fun _ => rfl) (fun _ => rfl)
  | pop => exact Action.tidy_of_tame fun m hm _ => Machine.tame_of_heap_eq hm.wellFormed rfl rfl rfl
  | setTop height => exact Action.tidy_modify (fun _ => rfl) (fun _ => rfl) (fun _ => rfl)
  | pin v => exact Action.tidy_of_tame fun m hm _ => Machine.tame_of_heap_eq hm.wellFormed rfl rfl rfl
  | unpin p => exact Action.tidy_of_tame fun m hm _ => Machine.tame_of_heap_eq hm.wellFormed rfl rfl rfl
  | rawSet t key v => exact Action.tidy_rawSet t key v fun _ h _ => h
  | remove t key => exact Action.tidy_remove t key fun _ h _ => h
  | setMetatable v mt =>
    refine Action.tidy_setMetatable v mt (fun t e m h _ => ?_) fun r e m h => ?_
    · subst e
      exact h
    · subst e
      exact h
  | setEnvironment u env => exact Action.tidy_setEnvironment u env fun _ h => h
  | setPayload u p => exact fun m hm hp => Action.tidy_setPayload (K := fun _ => True) u hp m hm trivial
  | metatableNamed name =>
    intro m hm hp
    obtain ⟨t, b, m', h, hm', he, -⟩ := Action.metatableNamed_spec hm name fun e => absurd e hp
    show ((Action.metatableNamed name : Action χ σ _) m).2.Interned ∧ m.Evolves (Action.metatableNamed name m).2
    rw [h]
    exact ⟨hm', he⟩
  | ensureHandle a =>
    intro m hm _
    obtain ⟨r, m', h, hm', he, -⟩ := Action.ensureHandle_spec hm a
    show ((Action.ensureHandle a : Action χ σ _) m).2.Interned ∧ m.Evolves (Action.ensureHandle a m).2
    rw [h]
    exact ⟨hm', he⟩
  | unregister a => exact Action.tidy_unregister a
  | wrap a name => exact Action.tidy_wrap a name
  | installClasses classes => exact Action.tidy_installAll classes
  | newReader name cls bases => exact Action.tidy_newFunction _ _ _
  | defineEnums enums => exact fun _ _ h => h.elim
  | stage p => exact fun _ _ h => h.elim
  | stageInteger v => exact fun _ _ h => h.elim
  | stageArguments v => exact fun _ _ h => h.elim
  | newTexts texts => exact Action.tidy_toTable texts
  | index | setIndex | call | callMethod | collect | isKindOf => exact hr.elim

/-! ## Writes through metamethods -/

namespace Machine

variable {m : Machine χ σ}

/-- A value with no metatable ends the chain of a write, with a fault. -/
theorem landsOn_of_plain_value {v : Value} (hv : ∀ r, v ≠ .table r ∧ v ≠ .userdata r) (key : Value) (hops : Nat) :
    m.landsOn key hops v = none := by
  cases hops with
  | zero => rfl
  | succ hops =>
    have hop : m.writeHop v key = .error (.type (.notIndexable v.typeName)) := by
      cases v with
      | table t => exact absurd rfl (hv t).1
      | userdata r => exact absurd rfl (hv r).2
      | _ => rfl
    simp only [landsOn, hop]

/-- The chain of a write to a userdata ends at no table, if its class leads no write anywhere: the class takes over, or there is a
fault. -/
theorem landsOn_userdata {r : Ref} {u : Userdata} (hu : m.heap.object? r = some (.userdata u))
    (hclass : ∀ mt, u.metatable = some mt → ∃ T, m.heap.object? mt = some (.table T) ∧ T.EndsWrites) (key : Value)
    (hops : Nat) : m.landsOn key hops (.userdata r) = none := by
  cases hops with
  | zero => rfl
  | succ hops =>
    have hop : m.writeHop (.userdata r) key = m.handlerHop (.userdata r) Registry.writeName := rfl
    have hmetatable : m.metatable (.userdata r) = .ok u.metatable := by
      simp only [metatable, Heap.userdata_eq_ok_iff.2 hu]
    unfold landsOn
    rw [hop]
    unfold handlerHop metafield
    cases hmt : u.metatable with
    | none => simp only [hmetatable, hmt, Value.isNil, ↓reduceIte]
    | some mt =>
      obtain ⟨T, hT, hends⟩ := hclass mt hmt
      simp only [hmetatable, hmt, rawField, Heap.table_eq_ok_iff.2 hT]
      have hrest := landsOn_of_plain_value (m := m) hends key hops
      cases hv : T.field Registry.writeName with
      | table t => exact absurd hv (hends t).1
      | userdata s => exact absurd hv (hends s).2
      | _ =>
        rw [hv] at hrest
        simp [Value.isNil, Hop.ofHandler, hrest]

/-- The chain of a write to a handle ends at no table. -/
theorem Interned.landsOn_handle (hm : m.Interned) {r : Ref} {a : Address} {f : Bool} (hr : m.IsHandle r a f) (key : Value)
    (hops : Nat) : m.landsOn key hops (.userdata r) = none := by
  obtain ⟨u, hu, hpay, -⟩ := hr
  refine landsOn_userdata hu (fun mt hmt => ?_) key hops
  obtain ⟨name, hname⟩ := hm.classOf r u a mt hu hpay hmt
  exact (hm.registered name mt hname).2

theorem isHandle_of_identity? {target : Value} (h : (m.identity? target).isSome) :
    ∃ r a f, target = .userdata r ∧ m.IsHandle r a f := by
  unfold identity? at h
  cases target with
  | userdata r =>
    simp only [Value.userdata?, Option.bind_some, address?] at h
    cases hu : m.heap.userdata r with
    | error e => simp [hu] at h
    | ok u =>
      obtain ⟨p, mt, env, fin⟩ := u
      cases p with
      | handle a => exact ⟨r, a, fin, rfl, _, Heap.userdata_eq_ok_iff.1 hu, rfl, rfl⟩
      | _ => simp [hu] at h
  | _ => simp [Value.userdata?] at h

end Machine

/-! ## Runs -/

/-- The class of a handle writes its shadow, and nothing else. -/
theorem Machine.Interned.write {m : Machine χ σ} (hm : m.Interned) (call : Call) :
    (Attribute.write call m).2.Interned := by
  have hwrite : Action.Tidy (fun m : Machine χ σ => m.Interned) (Attribute.write call) := by
    unfold Attribute.write
    refine (Action.tidy_query _).bind_of (Q := fun shadow m => ∀ e, shadow = some e → m.Plain e) (fun m s hm _ h e he => ?_)
      fun shadow => ?_
    · subst he
      change Attribute.shadow? m (call.arg 1) = .ok (some e) at h
      unfold Attribute.shadow? Machine.environment at h
      split at h
      · split at h
        · cases h
        · rename_i hu
          exact hm.environment _ _ e (Heap.userdata_eq_ok_iff.1 hu) (Except.ok.inj h)
      · cases h
    · cases shadow with
      | none => exact Action.tidy_pure _
      | some e => exact (Action.tidy_rawSet e _ _ fun m h _ => (h e rfl).2).answer _
  exact (hwrite m hm hm).1

/-- What is permitted keeps the listing, and so do collections. -/
theorem stable_interned : Stable (Machine.Interned : Machine χ σ → Prop) Machine.Permits where
  silent c m r hr hm hp := (Request.tidy_perform c hr m hm hp).1
  written m call hm := hm.write call
  lands m target key v t hm hp ht := by
    have hg : ¬m.Guarded t := by
      rcases hp with h | h
      · obtain ⟨r, a, f, rfl, hr⟩ := Machine.isHandle_of_identity? h
        rw [hm.landsOn_handle hr] at ht
        cases ht
      · exact h t ht
    exact (Action.tidy_rawSet t key v (fun _ h _ => h) m hm hg).1
  swept m hm _ := hm.swept
  queue _ _ _ m rest hm := hm.of_heap_eq rfl rfl rfl
  finish _ _ _ m s hm := hm.of_heap_eq rfl rfl rfl

/-- In a run in which native code leaves the tables of the binding layer alone, every machine is interned. -/
theorem Reached.interned {Γ : Host χ σ} (hΓ : Γ.Lawful Machine.Permits Machine.Interned) {m : Machine χ σ}
    (hm : Reached Γ Machine.Permits m) : m.Interned :=
  hm.keep stable_interned (fun _ _ _ => trivial) hΓ Machine.interned_start
    (fun _ _ _ _ h _ => h.of_heap_eq rfl rfl rfl)
    (fun _ _ h => h.of_heap_eq rfl rfl rfl)

end ScriptHost

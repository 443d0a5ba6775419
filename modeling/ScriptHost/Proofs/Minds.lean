import ScriptHost.Proofs.Course
import ScriptHost.Proofs.Operations
import ScriptHost.Proofs.Permitted
import ScriptHost.Proofs.Swept

/-!
# Requests that mind the binding layer

Native code may ask for every operation of the binding layer, and do what it likes with tables and userdata that are not the
binding layer's (`Machine.Minds`). It writes no sealed table and makes none an environment, makes no handles of its own, and leaves
handles with the metatable and the environment the binding layer gave them. Every such request that calls nothing is a sequence of
acts (`Request.acts_perform`), and so is every event of a course except a collection. So in every run the tables of the binding
layer are as it keeps them (`Reached.managed`), and what acts and collections keep every course keeps (`Course.frame`). A part of a
run in which an address is not asked for, or not unregistered, or a table not written, is a course in a narrower scope.
-/

namespace ScriptHost

variable {χ σ α : Type} {S : Scope}

/-- The request leaves to the binding layer what is the binding layer's, and stays in the scope. -/
def Machine.Minds (S : Scope) (m : Machine χ σ) : Request χ σ → Prop
  | .newUserdata payload | .setPayload _ payload => ∀ a, payload ≠ .handle a
  | .rawSet t _ _ | .remove t _ | .setMetatable (.table t) _ => ¬m.Sealed t ∧ ¬S.spared t
  | .setMetatable (.userdata r) _ => m.address? r = none
  | .setEnvironment u env => m.address? u = none ∧ ∀ e, env = some e → ¬m.Sealed e
  | .metatableNamed name => name ∉ Registry.reserved
  | .setIndex target key _ => (S.strict ∧ (m.identity? target).isSome) ∨
      ∀ t, m.landsOn key m.limits.maxIndexChain target = some t → ¬m.Sealed t ∧ ¬S.spared t
  | .ensureHandle a => S.lists a
  | .unregister a => S.forgets a
  | .wrap a name => a = Address.null ∨ S.lists a ∧
      (name ∉ Registry.reserved ∨ ¬S.strict ∧ (name = Registry.pointers ∨ ∃ t, m.Registered name t))
  | .stage payload => S.stages ∧ ∀ a, payload ≠ .handle a
  | .stageInteger _ | .stageArguments _ => S.stages
  | _ => True

/-- What a request puts into a table: the key and the value. -/
def Request.written? (m : Machine χ σ) (t : Ref) : Request χ σ → Option (Value × Value)
  | .rawSet t' key v => if t' = t then some (key, v) else none
  | .remove t' key => if t' = t then some (key, .nil) else none
  | .setIndex target key v => if m.landsOn key m.limits.maxIndexChain target = some t then some (key, v) else none
  | _ => none

/-- The request makes a cell, if it succeeds. -/
def Request.Stages : Request χ σ → Prop
  | .stage _ | .stageInteger _ | .stageArguments _ => True
  | _ => False

/-- The request gives a table another metatable. -/
def Request.Reclasses (t : Ref) : Request χ σ → Prop
  | .setMetatable (.table t') _ => t' = t
  | _ => False

namespace Event

/-- The event asks for the handle of an address, as it is or as an object of a class. -/
def AsksFor (a : Address) : Event χ σ → Prop
  | .ask (.ensureHandle b) | .ask (.wrap b _) => b = a
  | _ => False

/-- The event unregisters the address. -/
def Unregisters (a : Address) : Event χ σ → Prop
  | .ask (.unregister b) => b = a
  | _ => False

/-- The event makes a cell, if it succeeds. -/
def Stages : Event χ σ → Prop
  | .ask r => r.Stages
  | _ => False

/-- What an event puts into a table: the key and the value. -/
def written? (m : Machine χ σ) (t : Ref) : Event χ σ → Option (Value × Value)
  | .ask r => r.written? m t
  | .store t' key v => if t' = t then some (key, v) else none
  | .write call =>
    match Attribute.shadow? m (call.arg 1) with
    | .ok (some t') => if t' = t then some (call.arg 2, call.arg 3) else none
    | _ => none
  | _ => none

/-- The event gives a table another metatable. -/
def Reclasses (t : Ref) : Event χ σ → Prop
  | .ask r => r.Reclasses t
  | _ => False

end Event

namespace Machine

variable {m : Machine χ σ} {t : Ref}

/-- A request that minds the binding layer does so in another scope too, if that has what the request is about. -/
theorem Minds.within {S' : Scope} {r : Request χ σ} (h : m.Minds S r) (hstrict : S'.strict ↔ S.strict)
    (hstages : r.Stages → S.stages → S'.stages) (hlists : ∀ a, (Event.ask r).AsksFor a → S'.lists a)
    (hforgets : ∀ a, (Event.ask r).Unregisters a → S'.forgets a)
    (hspared : ∀ t, S'.spared t → r.written? m t = none ∧ ¬r.Reclasses t) : m.Minds S' r := by
  have hwrite : ∀ {t key v}, r.written? m t = some (key, v) → ¬S'.spared t := by
    intro t key v hw hs
    rw [(hspared t hs).1] at hw
    cases hw
  cases r with
  | rawSet t key v => exact ⟨h.1, hwrite (if_pos rfl)⟩
  | remove t key => exact ⟨h.1, hwrite (if_pos rfl)⟩
  | setMetatable v mt =>
    cases v with
    | table t => exact ⟨h.1, fun hs => (hspared t hs).2 rfl⟩
    | _ => exact h
  | setIndex target key v =>
    refine h.imp (fun h => ⟨hstrict.2 h.1, h.2⟩) fun h t ht => ⟨(h t ht).1, hwrite (if_pos ht)⟩
  | ensureHandle a => exact hlists a rfl
  | unregister a => exact hforgets a rfl
  | wrap a name =>
    refine h.imp_right fun h => ⟨hlists a rfl, h.2.imp_right fun h => ⟨fun hs => h.1 (hstrict.1 hs), h.2⟩⟩
  | stage p => exact ⟨hstages trivial h.1, h.2⟩
  | stageInteger v => exact hstages trivial h
  | stageArguments v => exact hstages trivial h
  | _ => exact h

/-- An event that minds the binding layer does so in another scope too, if that has what the event is about. -/
theorem Allows.within {S' : Scope} {e : Event χ σ} (h : m.Allows (Minds S) e) (hstrict : S'.strict ↔ S.strict)
    (hstages : e.Stages → S.stages → S'.stages) (hlists : ∀ a, e.AsksFor a → S'.lists a)
    (hforgets : ∀ a, e.Unregisters a → S'.forgets a)
    (hspared : ∀ t, S'.spared t → e.written? m t = none ∧ ¬e.Reclasses t) : m.Allows (Minds S') e := by
  cases e with
  | ask r => exact ⟨h.1, Minds.within h.2 hstrict hstages hlists hforgets hspared⟩
  | store t key v =>
    obtain ⟨target, hp, ht⟩ := h
    refine ⟨target, Minds.within hp hstrict nofun nofun nofun fun s hs => ⟨?_, id⟩, ht⟩
    refine if_neg fun hs' => ?_
    cases ht.symm.trans hs'
    simpa [Event.written?] using (hspared t hs).1
  | _ => exact h

/-! ## Raw access -/

theorem Managed.act_rawSet (hm : m.Managed S.strict) (hs : ¬m.Sealed t) (hspared : S.spared t → t = m.globals) (key v : Value) :
    m.Act S (Action.rawSet t key v m).2 := by
  unfold Action.rawSet
  cases Key.ofValue key with
  | error cause => exact act_refl m
  | ok k => exact hm.act_loose hs hspared fun _ hu => hu.set k v

theorem Managed.act_remove (hm : m.Managed S.strict) (hs : ¬m.Sealed t) (hspared : S.spared t → t = m.globals) (key : Value) :
    m.Act S (Action.remove t key m).2 := by
  unfold Action.remove
  cases Key.ofValue key with
  | error cause => exact act_refl m
  | ok k =>
    show m.Act S (Action.bind (Action.query fun m => m.heap.table t) _ m).2
    rw [Action.query_bind]
    cases m.heap.table t with
    | error e => exact act_refl m
    | ok T =>
      have herase : m.Act S (Action.onHeap (fun h => h.changeTable t (fun T => T.erase k)) m).2 :=
        hm.act_loose hs hspared fun _ hu => hu.erase k
      exact (Action.answer_snd _ (fun _ => T.find? k) m).symm ▸ herase

/-- The shadow that the class of a receiver writes is the environment of a userdata. -/
theorem exists_of_shadow? {v : Value} {e : Ref} (h : Attribute.shadow? m v = .ok (some e)) :
    ∃ r u, v = .userdata r ∧ m.heap.object? r = some (.userdata u) ∧ u.environment = some e := by
  unfold Attribute.shadow? environment at h
  split at h
  · rename_i r
    split at h
    · cases h
    · rename_i u hu
      exact ⟨r, u, rfl, Heap.userdata_eq_ok_iff.1 hu, Except.ok.inj h⟩
  · cases h

/-- What the class of a receiver does on a write: its shadow takes the value, if it has one. -/
theorem write_eq (call : Call) : (Attribute.write call m).2 = match Attribute.shadow? m (call.arg 1) with
    | .ok (some e) => (Action.rawSet e (call.arg 2) (call.arg 3) m).2
    | _ => m := by
  show (Action.bind (Action.query fun m => Attribute.shadow? m (call.arg 1)) _ m).2 = _
  rw [Action.query_bind]
  cases Attribute.shadow? m (call.arg 1) with
  | error e => rfl
  | ok shadow =>
    cases shadow with
    | none => rfl
    | some e => exact Action.answer_snd _ (fun _ => []) m

/-- The class of a handle writes its shadow, which is not sealed. -/
theorem Managed.act_write (hm : m.Managed S.strict) (call : Call)
    (hspared : ∀ e, Attribute.shadow? m (call.arg 1) = .ok (some e) → S.spared e → e = m.globals) :
    m.Act S (Attribute.write call m).2 := by
  rw [write_eq]
  split
  · rename_i e he
    obtain ⟨r, u, -, hu, henv⟩ := exists_of_shadow? he
    exact hm.act_rawSet (hm.orderly.environment r u e hu henv) (hspared e he) _ _
  · exact act_refl m

/-- Where it is strict, the chain of a write to a handle ends at no table. -/
theorem Orderly.landsOn_handle {strict : Prop} (hm : m.Orderly strict) (hs : strict) {r : Ref} {a : Address} {f : Bool}
    (hr : m.IsHandle r a f) (key : Value) (hops : Nat) : m.landsOn key hops (.userdata r) = none := by
  obtain ⟨u, hu, hpay, -⟩ := hr
  refine landsOn_userdata hu (fun mt hmt => ?_) key hops
  obtain ⟨name, hname, hclass⟩ := hm.classOf hs r u a mt hu hpay hmt
  obtain ⟨-, T, hT⟩ := hm.unshared.registered name mt hclass
  exact ⟨T, hT, hm.classes name hname mt T hclass hT⟩

/-- A write that is minded comes to a table that native code may write. -/
theorem Minds.lands (hm : m.Orderly S.strict) {target key v : Value} (h : m.Minds S (.setIndex target key v))
    (ht : m.landsOn key m.limits.maxIndexChain target = some t) : ¬m.Sealed t ∧ ¬S.spared t := by
  rcases h with ⟨hs, h⟩ | h
  · obtain ⟨r, a, f, rfl, hr⟩ := isHandle_of_identity? h
    rw [hm.landsOn_handle hs hr] at ht
    cases ht
  · exact h t ht

end Machine

namespace Action

open Discipline Machine

variable {K : Machine χ σ → Prop} {t r : Ref}

theorem acts_setMetatable_table (t : Ref) (mt : Option Ref) :
    (acts S).Keeps (fun m => ¬m.Sealed t ∧ ¬S.spared t) (setMetatable (.table t) mt : Action χ σ Unit) (fun _ _ => True) :=
  ((acts_requireTable mt).weaken (fun _ h => h) fun _ _ h => h.1).bind fun _ =>
    acts_single (fun _ hm hk => hm.act_loose hk.1 (fun h => absurd h hk.2) fun _ hu => hu) fun _ _ _ _ _ => trivial

theorem acts_setMetatable_userdata (r : Ref) (mt : Option Ref) :
    (acts S).Keeps (fun m => m.address? r = none) (setMetatable (.userdata r) mt : Action χ σ Unit) (fun _ _ => True) := by
  refine ((acts_requireTable mt).weaken (fun _ h => h) fun _ _ h => h.1).bind fun _ =>
    acts_single (fun m hm hk => ?_) fun _ _ _ _ _ => trivial
  refine hm.act_changeUserdata (fun u e he => Or.inl he) fun u m' hu => ?_
  have hpay := payload_ne_of_address? hk hu
  exact .other hpay hpay fun e he => Or.inl he

theorem acts_setEnvironment (r : Ref) (env : Option Ref) :
    (acts S).Keeps (fun m => m.address? r = none ∧ ∀ e, env = some e → ¬m.Sealed e)
      (setEnvironment r env : Action χ σ Unit) (fun _ _ => True) := by
  refine (acts_requireTable env).bind fun _ => acts_single (fun m hm hk => ?_) fun _ _ _ _ _ => trivial
  obtain ⟨⟨hnone, hs⟩, htable⟩ := hk
  refine hm.act_changeUserdata (fun u e he => Or.inr ?_) fun u m' hu => ?_
  · exact ⟨htable e he, fun h => hs e he (Or.inl h), fun h => h.1⟩
  · have hpay := payload_ne_of_address? hnone hu
    refine .other hpay hpay fun e he => Or.inr ⟨?_, hs e he⟩
    obtain ⟨T, hT⟩ := htable e he
    exact Heap.contains_of_object? hT

/-- The payload of a userdata becomes one of its type, so what was a handle stays as it is. -/
theorem acts_setPayload (r : Ref) {p : Payload} (hp : ∀ a, p ≠ .handle a) :
    (acts S).Keeps K (setPayload r p : Action χ σ Bool) (fun _ _ => True) := by
  have hheld : (acts S).Keeps K (query (fun m => m.heap.userdata r) : Action χ σ Userdata)
      (fun u m => m.heap.object? r = some (.userdata u)) :=
    keeps_query fun m u _ _ h => Heap.userdata_eq_ok_iff.1 h
  refine hheld.bind fun held => ?_
  split
  · rename_i hsame
    refine Keeps.bind (Q := fun _ _ => True) ?_ fun _ => keeps_pure fun _ _ _ => trivial
    refine acts_single (fun m hm hk => ?_) fun _ _ _ _ _ => trivial
    refine hm.act_changeUserdata (fun u e he => Or.inl he) fun u m' hu => ?_
    cases hk.symm.trans hu
    refine .other (fun a ha => ?_) hp fun e he => Or.inl he
    rw [ha] at hsame
    obtain ⟨b, rfl⟩ := Payload.eq_handle_of_sameType hsame
    exact hp b rfl
  · exact keeps_pure fun _ _ _ => trivial

end Action

/-! ## Requests that call nothing -/

open ScriptHost.Action Discipline Machine in
/-- A request that calls nothing and minds the binding layer is a sequence of acts. -/
theorem Request.acts_perform (c : Caller χ σ) {r : Request χ σ} (hr : r.IsSilent) :
    (acts S).Keeps (fun m => m.Minds S r) (r.perform c) (fun _ _ => True) := by
  have htrue : (acts S : Discipline χ σ).Lasts (fun _ => True) := fun _ _ _ h => h
  cases r with
  | look => exact acts_beside fun _ => ⟨rfl, rfl, rfl⟩
  | keep memory => exact acts_beside fun _ => ⟨rfl, rfl, rfl⟩
  | newTable => exact (acts_newTable htrue).weaken (fun _ _ => trivial) fun _ _ _ => trivial
  | newUserdata p => exact fun m hm hp => acts_newUserdata (L := fun _ => True) htrue hp m hm trivial
  | newFunction name code upvalues =>
    exact (acts_newFunction htrue name code upvalues).weaken (fun _ _ => trivial) fun _ _ h => h
  | push v => exact acts_beside fun _ => ⟨rfl, rfl, rfl⟩
  | pop => exact acts_beside fun _ => ⟨rfl, rfl, rfl⟩
  | setTop height => exact acts_beside fun _ => ⟨rfl, rfl, rfl⟩
  | pin v => exact acts_beside fun _ => ⟨rfl, rfl, rfl⟩
  | unpin p => exact acts_beside fun _ => ⟨rfl, rfl, rfl⟩
  | rawSet t key v =>
    exact acts_single (fun m hm h => hm.act_rawSet h.1 (fun hs => absurd hs h.2) key v) fun _ _ _ _ _ => trivial
  | remove t key =>
    exact acts_single (fun m hm h => hm.act_remove h.1 (fun hs => absurd hs h.2) key) fun _ _ _ _ _ => trivial
  | setMetatable v mt =>
    cases v with
    | table t => exact acts_setMetatable_table t mt
    | userdata r => exact acts_setMetatable_userdata r mt
    | _ => exact (acts_requireTable mt).bind fun _ => keeps_fail _
  | setEnvironment u env => exact acts_setEnvironment u env
  | setPayload u p => exact fun m hm hp => acts_setPayload (K := fun _ => True) u hp m hm trivial
  | metatableNamed name =>
    intro m hm hname
    obtain ⟨hi, hn, -⟩ := acts_metatableNamed (L := fun _ => name ∉ Registry.reserved) (fun _ _ _ h => h)
      (fun _ h => Or.inl h) m hm hname
    exact ⟨hi, hn, fun _ _ => trivial⟩
  | ensureHandle a =>
    intro m hm ha
    obtain ⟨hi, hn, -⟩ := acts_ensureHandle (L := fun _ => True) htrue ha m hm trivial
    exact ⟨hi, hn, fun _ _ => trivial⟩
  | unregister a => exact acts_single (fun m hm ha => act_unregister hm ha) fun _ _ _ _ _ => trivial
  | wrap a name =>
    rintro m hm (rfl | ⟨ha, hname⟩)
    · exact ⟨hm, .refl, fun _ _ => trivial⟩
    · obtain ⟨hi, hn, -⟩ := acts_wrap ha (fun _ h => h) m hm hname
      exact ⟨hi, hn, fun _ _ => trivial⟩
  | installClasses classes => exact acts_installAll classes
  | newReader name cls bases => exact (acts_newFunction htrue _ _ _).weaken (fun _ _ => trivial) fun _ _ h => h
  | defineEnums enums => exact acts_defineAll enums
  | stage p => exact fun m hm h => acts_stage (K := fun _ => True) h.1 h.2 m hm trivial
  | stageInteger v => exact fun m hm h => acts_stageInteger (K := fun _ => True) h v m hm trivial
  | stageArguments v => exact fun m hm h => acts_stageArguments (K := fun _ => True) h v m hm trivial
  | newTexts texts => exact acts_newTexts texts
  | index | setIndex | call | callMethod | collect | isKindOf => exact hr.elim

/-! ## Courses -/

namespace Machine

variable {m : Machine χ σ}

/-- An event that minds the binding layer is a sequence of acts, unless it is a collection. -/
theorem Managed.acts_after (hm : m.Managed S.strict) (hthere : ∀ t, S.spared t → m.heap.contains t = true) {e : Event χ σ}
    (he : m.Allows (Minds S) e) (hsweep : e ≠ .sweep)
    (hwrite : ∀ call s, e = .write call → Attribute.shadow? m (call.arg 1) = .ok (some s) → S.spared s → s = m.globals) :
    Acts S m (m.after e) := by
  have hbeside : ∀ {m' : Machine χ σ}, m'.heap = m.heap → m'.registry = m.registry → m'.globals = m.globals → Acts S m m' :=
    fun h₁ h₂ h₃ => .single ⟨hm, act_of_heap_eq h₁ h₂ h₃⟩
  cases e with
  | ask r => exact (Request.acts_perform _ he.1 m ⟨hm, hthere⟩ he.2).2.1
  | store t key v =>
    obtain ⟨target, hp, ht⟩ := he
    obtain ⟨hs, hspared⟩ := Minds.lands hm.orderly hp ht
    exact .single ⟨hm, hm.act_rawSet hs (fun h => absurd h hspared) key v⟩
  | write call => exact .single ⟨hm, hm.act_write call fun s => hwrite call s rfl⟩
  | enter f args => exact hbeside rfl rfl rfl
  | leave height => exact hbeside rfl rfl rfl
  | sweep => exact absurd rfl hsweep
  | queue rest => exact hbeside rfl rfl rfl
  | finish s => exact hbeside rfl rfl rfl

/-- Acts keep the machine as the binding layer keeps it. -/
theorem Acts.managed {m' : Machine χ σ} (h : Acts S m m') (hm : m.Managed S.strict) : m'.Managed S.strict :=
  lasts_of_act (K := fun m => m.Managed S.strict) (fun _ _ _ hact hm => hact.managed hm) m m' h hm

end Machine

/-- Where an address is not asked for, no handle of it is listed. -/
theorem Course.unasked {strict : Prop} {m : Machine χ σ} {es : List (Event χ σ)} {a : Address}
    (h : Course (Machine.Minds (.wide strict)) m es) (hes : ∀ e ∈ es, ¬e.AsksFor a) :
    Course (Machine.Minds { Scope.wide strict with lists := fun b => b ≠ a }) m es :=
  h.narrow fun e he _ h =>
    h.within .rfl (fun _ h => h) (fun _ hb hba => hes e he (hba ▸ hb)) (fun _ _ => trivial) fun _ hs => hs.elim

/-- Where an address is not unregistered, no handle of it is forgotten. -/
theorem Course.unforgotten {strict : Prop} {m : Machine χ σ} {es : List (Event χ σ)} {a : Address}
    (h : Course (Machine.Minds (.wide strict)) m es)
    (hes : ∀ e ∈ es, ¬e.Unregisters a) : Course (Machine.Minds { Scope.wide strict with forgets := fun b => b ≠ a }) m es :=
  h.narrow fun e he _ h =>
    h.within .rfl (fun _ h => h) (fun _ _ => trivial) (fun _ hb hba => hes e he (hba ▸ hb)) fun _ hs => hs.elim

section

open Machine

variable {m : Machine χ σ} {es : List (Event χ σ)} (hS : ∀ t, ¬S.spared t)
include hS

/-- What acts keep, and collections where a condition holds, courses keep. -/
theorem Course.frame_of {I D : Machine χ σ → Prop} (hact : ∀ m m', m.Managed S.strict → m.Act S m' → I m → I m')
    (hswept : ∀ m, m.Managed S.strict → D m → I m → I m.swept) (h : Course (Minds S) m es) (hm : m.Managed S.strict)
    (hD : m.AtSweeps D es) (hi : I m) :
    (m.follow es).Managed S.strict ∧ I (m.follow es) := by
  induction es generalizing m with
  | nil => exact ⟨hm, hi⟩
  | cons e es ih =>
    have hstep : (m.after e).Managed S.strict ∧ I (m.after e) := by
      by_cases hsweep : e = .sweep
      · subst hsweep
        exact ⟨hm.swept, hswept m hm ((atSweeps_cons.1 hD).1 rfl) hi⟩
      · have hacts := hm.acts_after (fun t ht => absurd ht (hS t)) h.1 hsweep fun _ s _ _ hs => absurd hs (hS s)
        exact ⟨hacts.managed hm, lasts_of_act hact m _ hacts hi⟩
    exact ih h.2 hstep.1 (atSweeps_cons.1 hD).2 hstep.2

/-- What acts and collections keep, courses keep. -/
theorem Course.frame {I : Machine χ σ → Prop} (hact : ∀ m m', m.Managed S.strict → m.Act S m' → I m → I m')
    (hswept : ∀ m, m.Managed S.strict → I m → I m.swept) (h : Course (Minds S) m es) (hm : m.Managed S.strict) (hi : I m) :
    (m.follow es).Managed S.strict ∧ I (m.follow es) :=
  h.frame_of hS (D := fun _ => True) hact (fun m hm _ hi => hswept m hm hi) hm (fun _ _ _ => trivial) hi

theorem Course.managed (h : Course (Minds S) m es) (hm : m.Managed S.strict) : (m.follow es).Managed S.strict :=
  (h.frame hS (I := fun _ => True) (fun _ _ _ _ h => h) (fun _ _ h => h) hm trivial).1

theorem Machine.Managed.after (hm : m.Managed S.strict) {e : Event χ σ} (he : m.Allows (Minds S) e) :
    (m.after e).Managed S.strict :=
  have hsingle : Course (Minds S) m [e] := ⟨he, trivial⟩
  hsingle.managed hS hm

/-- Native code that minds the binding layer leaves its tables as it keeps them. -/
theorem stable_managed : Stable (fun m : Machine χ σ => m.Managed S.strict) (Machine.Minds S) := by
  exact {
    silent := fun c m r hr hm hp => by
      rw [Request.perform_eq_of_silent c (fun _ _ => Action.fail .overflow) hr]
      exact hm.after hS (e := .ask r) ⟨hr, hp⟩
    written := fun m call hm => hm.after hS (e := .write call) trivial
    lands := fun m target key v t hm hp ht => hm.after hS (e := .store t key v) ⟨target, hp, ht⟩
    swept := fun _ hm _ => hm.swept
    queue := fun _ _ _ _ _ hm => hm.of_heap_eq rfl rfl rfl
    finish := fun _ _ _ _ _ hm => hm.of_heap_eq rfl rfl rfl }

/-- In a run in which native code minds the binding layer, every machine is as the binding layer keeps it. -/
theorem Reached.managed {Γ : Host χ σ} (hΓ : Γ.Lawful (Machine.Minds S) (fun m => m.Managed S.strict)) {m : Machine χ σ}
    (hm : Reached Γ (Machine.Minds S) m) : m.Managed S.strict :=
  hm.keep (stable_managed hS) (fun _ _ _ => trivial) hΓ (fun limits host => managed_start limits host)
    (fun _ _ _ _ h _ => h.of_heap_eq rfl rfl rfl) (fun _ _ h => h.of_heap_eq rfl rfl rfl)

end

end ScriptHost

import ScriptHost.Proofs.Steps
import ScriptHost.Proofs.Turns

/-!
# Actions that agree on a set of machines

Two actions agree on a set of machines when from each of them they do the same, and what they do stays in the set
(`Action.Agree`); it may be enough that they do so from the machines that a run gets to. An action that agrees with itself keeps
the set. Whatever native code runs is made of its requests and of the calls below it. So if a set of machines is kept by the
requests that native code may ask and by the phases of a collection (`Stable`), and two callers agree on it, then all code run
with the one does the same as with the other (`Stable.code`). The machines that a run gets to are given as a set that has what
comes of the requests and the machine at every turn of a collection (`Visited`).
-/

namespace ScriptHost

variable {χ σ α β : Type}

/-- The table at which the chain of a write ends, if it ends at a table and not in a call. -/
def Machine.landsOn (m : Machine χ σ) (key : Value) : Nat → Value → Option Ref
  | 0, _ => none
  | hops + 1, current =>
    match m.writeHop current key with
    | .ok (.stop (.table t)) => some t
    | .ok (.next w) => m.landsOn key hops w
    | _ => none

namespace Action

/-- From each machine of the set `I` that a run gets to, by `R`, both actions do the same, and that stays in the set. -/
def Agree (R I : Machine χ σ → Prop) (x y : Action χ σ α) : Prop := ∀ m, R m → I m → x m = y m ∧ I (x m).2

variable {R R' I : Machine χ σ → Prop}

theorem Agree.of_keep {x : Action χ σ α} (hx : ∀ m, I m → I (x m).2) : Agree R I x x := fun m _ hm => ⟨rfl, hx m hm⟩

theorem agree_pure (a : α) : Agree R I (pure a : Action χ σ α) (pure a) := .of_keep fun _ hm => hm

theorem agree_fail (e : Fault) : Agree R I (fail e : Action χ σ α) (fail e) := .of_keep fun _ hm => hm

/-- One action after another, where a run gets to the machine in between. -/
theorem Agree.bind {x y : Action χ σ α} {f g : α → Action χ σ β} (hx : Agree R I x y) (hR : ∀ m, R m → R' (x m).2)
    (hf : ∀ a, Agree R' I (f a) (g a)) : Agree R I (x >>= f) (y >>= g) := by
  intro m hr hm
  show Action.bind x f m = Action.bind y g m ∧ I (Action.bind x f m).2
  obtain ⟨he, hk⟩ := hx m hr hm
  have hr' := hR m hr
  unfold Action.bind
  rw [← he]
  cases hxm : x m with
  | mk result m' =>
    rw [hxm] at hk hr'
    cases result with
    | ok a => exact hf a m' hr' hk
    | error e => exact ⟨rfl, hk⟩

/-- What follows on looking at the machine. -/
theorem Agree.look {f g : Machine χ σ → Action χ σ β} (hf : ∀ a, Agree R I (f a) (g a)) :
    Agree R I (Action.look >>= f) (Action.look >>= g) :=
  Agree.bind (.of_keep fun _ hm => hm) (fun _ hr => hr) hf

/-- What follows on reading something off the machine. -/
theorem Agree.query {q : Machine χ σ → Except Fault α} {f g : α → Action χ σ β} (hf : ∀ a, Agree R I (f a) (g a)) :
    Agree R I (Action.query q >>= f) (Action.query q >>= g) :=
  Agree.bind (.of_keep fun _ hm => hm) (fun _ hr => hr) hf

/-- What follows on an action and does nothing any more. -/
theorem Agree.answer {x y : Action χ σ α} (hx : Agree R I x y) (f : α → β) :
    Agree R I (x >>= fun a => pure (f a)) (y >>= fun a => pure (f a)) := by
  have hrest : ∀ a, Agree (fun _ => True) I (pure (f a) : Action χ σ β) (pure (f a)) := fun _ => agree_pure _
  exact hx.bind (fun _ _ => trivial) hrest

theorem query_bind (f : Machine χ σ → Except Fault α) (g : α → Action χ σ β) (m : Machine χ σ) :
    Action.bind (Action.query f) g m = match f m with | .ok a => g a m | .error e => (.error e, m) := by
  unfold Action.bind Action.query
  cases f m <;> rfl

/-! ## What calls functions -/

section callers

variable {c c' : Caller χ σ}

theorem agree_readAlong (hc : ∀ f args, Agree R I (c f args) (c' f args)) (key : Value) (hops : Nat) (v : Value) :
    Agree R I (readAlong c key hops v) (readAlong c' key hops v) := by
  induction hops generalizing v with
  | zero => exact agree_fail _
  | succ hops ih =>
    refine .query fun hop => ?_
    cases hop with
    | stop w => exact agree_pure _
    | enter f => exact (hc _ _).answer _
    | next w => exact ih w

theorem agree_index (hc : ∀ f args, Agree R I (c f args) (c' f args)) (v key : Value) :
    Agree R I (index c v key) (index c' v key) :=
  .look fun _ => agree_readAlong hc _ _ _

/-- One hop of a read, which the machine decides alone. -/
theorem readAlong_succ (c : Caller χ σ) (key : Value) (hops : Nat) (v : Value) (m : Machine χ σ) :
    readAlong c key (hops + 1) v m =
      match m.readHop v key with
      | .error e => (.error e, m)
      | .ok (.stop w) => (.ok w, m)
      | .ok (.enter f) => (do return (← c f [v, key]).headD .nil : Action χ σ Value) m
      | .ok (.next w) => readAlong c key hops w m := by
  show Action.bind (Action.query fun m => m.readHop v key) _ m = _
  rw [query_bind]
  cases m.readHop v key with
  | error e => rfl
  | ok hop => cases hop <;> rfl

/-- One hop of a write, which the machine decides alone. -/
theorem writeAlong_succ (c : Caller χ σ) (key v : Value) (hops : Nat) (target : Value) (m : Machine χ σ) :
    writeAlong c key v (hops + 1) target m =
      match m.writeHop target key with
      | .error e => (.error e, m)
      | .ok (.stop (.table t)) => rawSet t key v m
      | .ok (.stop _) => (.ok (), m)
      | .ok (.enter f) => (discard (c f [target, key, v]) : Action χ σ Unit) m
      | .ok (.next w) => writeAlong c key v hops w m := by
  show Action.bind (Action.query fun m => m.writeHop target key) _ m = _
  rw [query_bind]
  cases m.writeHop target key with
  | error e => rfl
  | ok hop =>
    cases hop with
    | stop w => cases w <;> rfl
    | enter f => rfl
    | next w => rfl

/-- A write does what its callers do at the end of the chain, or a raw write there. -/
theorem agree_writeAlong (hc : ∀ f args, Agree R I (c f args) (c' f args)) {key v : Value} {m : Machine χ σ} (hr : R m)
    (hm : I m) (hops : Nat) (target : Value) (hset : ∀ t, m.landsOn key hops target = some t → I (rawSet t key v m).2) :
    writeAlong c key v hops target m = writeAlong c' key v hops target m ∧ I (writeAlong c key v hops target m).2 := by
  induction hops generalizing target with
  | zero => exact ⟨rfl, hm⟩
  | succ hops ih =>
    rw [writeAlong_succ, writeAlong_succ]
    unfold Machine.landsOn at hset
    cases hw : m.writeHop target key with
    | error e => exact ⟨rfl, hm⟩
    | ok hop =>
      rw [hw] at hset
      cases hop with
      | stop w =>
        cases w with
        | table t => exact ⟨rfl, hset t rfl⟩
        | _ => exact ⟨rfl, hm⟩
      | enter f => exact (hc f _).answer _ m hr hm
      | next w => exact ih w hset

theorem agree_setIndex (hc : ∀ f args, Agree R I (c f args) (c' f args)) {target key v : Value} {m : Machine χ σ} (hr : R m)
    (hm : I m) (hset : ∀ t, m.landsOn key m.limits.maxIndexChain target = some t → I (rawSet t key v m).2) :
    setIndex c target key v m = setIndex c' target key v m ∧ I (setIndex c target key v m).2 :=
  agree_writeAlong hc hr hm m.limits.maxIndexChain target hset

theorem agree_callMethod (hc : ∀ f args, Agree R I (c f args) (c' f args))
    (hR : ∀ m v key, R m → R (index c v key m).2) (v : Value) (name : String) (args : List Value) :
    Agree R I (callMethod c v name args) (callMethod c' v name args) := by
  refine (agree_index hc _ _).bind (fun m => hR m _ _) fun method => ?_
  split
  · exact agree_fail _
  · exact hc _ _

theorem agree_isKindOf (hc : ∀ f args, Agree R I (c f args) (c' f args)) (v : Value) (name : String) :
    Agree R I (isKindOf c v name) (isKindOf c' v name) := by
  refine .look fun m => ?_
  split
  · exact agree_pure _
  · refine .query fun reader => ?_
    split
    · exact agree_pure _
    · exact (agree_index hc _ _).answer _

/-- Finalizers keep what their calls keep, if taking userdata off the queue keeps it. So does the machine in front of every turn
and the one after it. -/
theorem agree_finalizeAll (hc : ∀ f args, Agree R I (c f args) (c' f args)) (hqueue : ∀ m rest, I m → I (m.queue rest))
    (refs : List Ref) (m : Machine χ σ) (hr : ∀ t ∈ turns c refs m, R t.machine) (hm : I m) :
    finalizeAll c refs m = finalizeAll c' refs m ∧ I (finalizeAll c refs m).2 ∧
      ∀ t ∈ turns c refs m, I t.machine ∧ I (t.after c) := by
  induction refs generalizing m with
  | nil => exact ⟨rfl, hm, by simp [turns]⟩
  | cons r rest ih =>
    have hq := hqueue m rest hm
    have hrest := fun t ht => hr t (List.mem_cons_of_mem _ ht)
    have hturns : ∀ m', I m' → Turn.after c ⟨r, m.queue rest⟩ = m' → (∀ t ∈ turns c rest m', I t.machine ∧ I (t.after c)) →
        ∀ t ∈ turns c (r :: rest) m, I t.machine ∧ I (t.after c) := by
      rintro m' hm' rfl h t ht
      rcases List.mem_cons.1 ht with rfl | ht
      · exact ⟨hq, hm'⟩
      · exact h t ht
    cases hf : (m.queue rest).finalizer? r with
    | none =>
      have hafter : Turn.after c ⟨r, m.queue rest⟩ = m.queue rest := by simp only [Turn.after, Turn.finalizer?, hf]
      obtain ⟨he', hk', ht'⟩ := ih _ (hafter ▸ hrest) hq
      rw [finalizeAll_skip hf, finalizeAll_skip hf]
      exact ⟨he', hk', hturns _ hq hafter ht'⟩
    | some f =>
      have hafter : Turn.after c ⟨r, m.queue rest⟩ = (c f [.userdata r] (m.queue rest)).2 := by
        simp only [Turn.after, Turn.finalizer?, hf]
      obtain ⟨he, hk⟩ := hc f [.userdata r] _ (hr _ List.mem_cons_self) hq
      obtain ⟨he', hk', ht'⟩ := ih _ (hafter ▸ hrest) hk
      rw [finalizeAll_call hf, finalizeAll_call hf, ← he, ← he']
      exact ⟨rfl, hk', hturns _ hk hafter ht'⟩

end callers

end Action

/-! ## Sets of machines that native code keeps -/

/-- Every request that a program asks from a machine on is permitted where it is asked. -/
def Prog.Obeys (P : Machine χ σ → Request χ σ → Prop) (c : Caller χ σ) : Prog χ σ α → Machine χ σ → Prop
  | .done _, _ => True
  | .fail _, _ => True
  | .ask r next, m => P m r ∧ (next (r.perform c m).1).Obeys P c (r.perform c m).2

/-- A set of machines that has what comes of the permitted requests asked on them, and of reading anything, and the machine at
every turn of a collection. -/
structure Visited (c : Caller χ σ) (P : Machine χ σ → Request χ σ → Prop) (R : Machine χ σ → Prop) : Prop where
  request : ∀ m r, R m → P m r → R (r.perform c m).2
  index : ∀ m v key, R m → R (Action.index c v key m).2
  turn : ∀ m, R m → m.collecting = false → ∀ t ∈ turns c m.swept.pending m.swept, R t.machine

/-- The set of all machines. -/
theorem visited_all (c : Caller χ σ) (P : Machine χ σ → Request χ σ → Prop) : Visited c P (fun _ => True) :=
  ⟨fun _ _ _ _ => trivial, fun _ _ _ _ => trivial, fun _ _ _ _ _ => trivial⟩

/-- A set of machines that the permitted requests keep, as far as they do not call anything, and the code of classes. If a
collection begins on a machine of the set, its phases keep the set as well. -/
structure Stable (I : Machine χ σ → Prop) (P : Machine χ σ → Request χ σ → Prop) : Prop where
  silent : ∀ c m (r : Request χ σ), r.IsSilent → I m → P m r → I (r.perform c m).2
  written : ∀ m call, I m → I (Attribute.write call m).2
  lands : ∀ m target key v t, I m → P m (.setIndex target key v) →
    m.landsOn key m.limits.maxIndexChain target = some t → I (Action.rawSet t key v m).2
  swept : ∀ m, I m → m.collecting = false → I m.swept
  queue : ∀ m₀, I m₀ → m₀.collecting = false → ∀ m rest, I m → I (m.queue rest)
  finish : ∀ m₀, I m₀ → m₀.collecting = false → ∀ m s, I m → I (m.finish s)

variable {R I : Machine χ σ → Prop} {P : Machine χ σ → Request χ σ → Prop} {c c' : Caller χ σ}

/-- Collections of callers that agree do the same. -/
theorem Stable.collect (hI : Stable I P) (hR : Visited c P R) (hc : ∀ f args, Action.Agree R I (c f args) (c' f args)) :
    Action.Agree R I (Action.collect c) (Action.collect c') := by
  intro m hr hm
  cases hcoll : m.collecting with
  | true =>
    rw [collect_of_collecting hcoll, collect_of_collecting hcoll]
    exact ⟨rfl, hm⟩
  | false =>
    obtain ⟨he, hk, -⟩ := Action.agree_finalizeAll hc (hI.queue m hm hcoll) m.swept.pending m.swept
      (hR.turn m hr hcoll) (hI.swept m hm hcoll)
    rw [collect_eq hcoll, collect_eq hcoll, ← he]
    exact ⟨rfl, hI.finish m hm hcoll _ _ hk⟩

/-- Whatever a permitted request does with callers that agree is the same. -/
theorem Stable.perform (hI : Stable I P) (hR : Visited c P R) (hc : ∀ f args, Action.Agree R I (c f args) (c' f args))
    {m : Machine χ σ} (hr : R m) (hm : I m) {r : Request χ σ} (hp : P m r) :
    r.perform c m = r.perform c' m ∧ I (r.perform c m).2 := by
  have hsilent : r.IsSilent → r.perform c m = r.perform c' m ∧ I (r.perform c m).2 := fun hs =>
    ⟨congrFun (Request.perform_eq_of_silent c c' hs) m, hI.silent c m r hs hm hp⟩
  cases r with
  | index v key => exact Action.agree_index hc v key m hr hm
  | setIndex target key v => exact Action.agree_setIndex hc hr hm fun t ht => hI.lands m target key v t hm hp ht
  | call f args => exact hc f args m hr hm
  | callMethod v name args => exact Action.agree_callMethod hc hR.index v name args m hr hm
  | collect => exact hI.collect hR hc m hr hm
  | isKindOf v name => exact Action.agree_isKindOf hc v name m hr hm
  | _ => exact hsilent trivial

/-- A program that asks what is permitted does the same with callers that agree. -/
theorem Stable.run (hI : Stable I P) (hR : Visited c P R) (hc : ∀ f args, Action.Agree R I (c f args) (c' f args))
    (p : Prog χ σ α) {m : Machine χ σ} (hr : R m) (hm : I m) (hp : p.Obeys P c m) :
    p.run c m = p.run c' m ∧ I (p.run c m).2 := by
  induction p generalizing m with
  | done a => exact ⟨rfl, hm⟩
  | fail e => exact ⟨rfl, hm⟩
  | ask r next ih =>
    obtain ⟨he, hk⟩ := hI.perform hR hc hr hm hp.1
    obtain ⟨he', hk'⟩ := ih _ (hR.request m r hr hp.1) hk hp.2
    refine ⟨?_, hk'⟩
    show (next (r.perform c m).1).run c (r.perform c m).2 = (next (r.perform c' m).1).run c' (r.perform c' m).2
    rw [← he, he']

/-! ## Code -/

theorem agree_inBases (hc : ∀ f args, Action.Agree R I (c f args) (c' f args))
    (hR : ∀ m v key, R m → R (Action.index c v key m).2) (key : Value) (bases : List Value) :
    Action.Agree R I (Attribute.inBases c key bases) (Attribute.inBases c' key bases) := by
  induction bases with
  | nil => exact Action.agree_pure _
  | cons b bases ih =>
    cases b with
    | table t =>
      refine (Action.agree_index hc _ _).bind (fun m => hR m _ _) fun found => ?_
      split
      · exact ih
      · exact Action.agree_pure _
    | _ => exact ih

theorem agree_readAttribute (hc : ∀ f args, Action.Agree R I (c f args) (c' f args))
    (hR : ∀ m v key, R m → R (Action.index c v key m).2) (call : Call) :
    Action.Agree R I (Attribute.read c call) (Attribute.read c' call) := by
  refine .query fun own => ?_
  split
  · refine Action.Agree.answer ?_ _
    cases call.upvalues with
    | nil => exact Action.agree_pure _
    | cons cls bases =>
      refine .query fun found => ?_
      split
      · exact agree_inBases hc hR _ _
      · exact Action.agree_pure _
  · exact Action.agree_pure _

theorem agree_finalizeHandle (hc : ∀ f args, Action.Agree R I (c f args) (c' f args)) (call : Call) :
    Action.Agree R I (Attribute.finalize c call) (Attribute.finalize c' call) := by
  refine .query fun shadow => ?_
  cases shadow with
  | none => exact Action.agree_pure _
  | some shadow =>
    refine .query fun found => ?_
    cases found with
    | function f => exact (hc _ _).answer _
    | _ => exact Action.agree_pure _

/-- Code does the same with callers that agree, if what it asks is permitted. -/
theorem Stable.code (hI : Stable I P) (hR : Visited c P R) (hc : ∀ f args, Action.Agree R I (c f args) (c' f args))
    {Γ : Host χ σ} (code : Code χ) (call : Call) {m : Machine χ σ} (hr : R m) (hm : I m)
    (hΓ : ∀ k, code = .host k → (Γ k call).Obeys P c m) :
    code.run Γ c call m = code.run Γ c' call m ∧ I (code.run Γ c call m).2 := by
  cases code with
  | readAttribute => exact agree_readAttribute hc hR.index call m hr hm
  | writeAttribute => exact ⟨rfl, hI.written m call hm⟩
  | finalizeHandle => exact agree_finalizeHandle hc call m hr hm
  | host k => exact hI.run hR hc _ hr hm (hΓ k rfl)

/-! ## Ways to a stable set -/

/-- What every primitive step keeps is kept by everything that calls nothing. -/
theorem Stable.of_steps (hI : ∀ m m' : Machine χ σ, I m → m.Step m' → I m')
    (hswept : ∀ m, I m → m.collecting = false → I m.swept)
    (hqueue : ∀ m₀, I m₀ → m₀.collecting = false → ∀ m rest, I m → I (m.queue rest))
    (hfinish : ∀ m₀, I m₀ → m₀.collecting = false → ∀ m s, I m → I (m.finish s)) : Stable I P where
  silent c m _ hr hm _ := (Request.perform_steps c hr m).keep hI hm
  written m call hm := (Action.quiet_writeAttribute call m).keep hI hm
  lands m _ key v t hm _ _ := (Action.quiet_rawSet t key v m).keep hI hm
  swept := hswept
  queue := hqueue
  finish := hfinish

/-- Two stable sets have a stable intersection. -/
theorem Stable.and {J : Machine χ σ → Prop} (hI : Stable I P) (hJ : Stable J P) : Stable (fun m => I m ∧ J m) P where
  silent c m r hr hm hp := ⟨hI.silent c m r hr hm.1 hp, hJ.silent c m r hr hm.2 hp⟩
  written m call hm := ⟨hI.written m call hm.1, hJ.written m call hm.2⟩
  lands m target key v t hm hp ht := ⟨hI.lands m target key v t hm.1 hp ht, hJ.lands m target key v t hm.2 hp ht⟩
  swept m hm hc := ⟨hI.swept m hm.1 hc, hJ.swept m hm.2 hc⟩
  queue m₀ hm₀ hc m rest hm := ⟨hI.queue m₀ hm₀.1 hc m rest hm.1, hJ.queue m₀ hm₀.2 hc m rest hm.2⟩
  finish m₀ hm₀ hc m s hm := ⟨hI.finish m₀ hm₀.1 hc m s hm.1, hJ.finish m₀ hm₀.2 hc m s hm.2⟩

/-- Every program obeys where everything is permitted. -/
theorem Prog.obeys_all (p : Prog χ σ α) (m : Machine χ σ) : p.Obeys (fun _ _ => True) c m := by
  induction p generalizing m with
  | done a => trivial
  | fail e => trivial
  | ask r next ih => exact ⟨trivial, ih _ _⟩

end ScriptHost

import ScriptHost.Proofs.Passing
import ScriptHost.Proofs.Runs

/-!
# No reference dangles, but for calls that come late

In a run in which native code hands over live references only, the machine is intact at every moment, in the middle of calls and
collections too, exactly if the calls that come late find their arguments alive (`intact_iff_late_live`). They need not: an object
whose methods are looked up by a function that collects is called with a table that nothing keeps, and the method begins with a
stale reference on the stack (`intact_always_false`).
-/

namespace ScriptHost

variable {χ σ α : Type}

/-- In a careful run whose late calls find their arguments alive, every moment begins and ends on a sound machine. -/
theorem Happens.sound {Γ : Host χ σ} {p : Prog χ σ α} {m : Machine χ σ} (hm : m.Sound) (hcareful : Careful Γ p m)
    (hlate : ∀ M f args m' function, Happens Γ p m M → M.Late Γ f args m' → m'.callee f args = .ok function →
      m'.Live (args.flatMap Value.refs))
    {M : Moment χ σ} (hM : Happens Γ p m M) : M.before.Sound ∧ (M.after Γ).Sound := by
  have hpassed := Moment.passed_of_ready hcareful hlate
  have htop := (Moment.passed_run p hm hcareful.top
    fun r m' h hr => (hpassed _ ⟨r, m', h, .refl⟩ hr).1).2
  obtain ⟨r, m', hask, hwithin⟩ := id hM
  have hready : M.Ready := by
    induction hwithin with
    | refl => exact htop r m' hask
    | tail hbefore hmakes ih =>
      have hN : Happens Γ p m _ := ⟨r, m', hask, hbefore⟩
      exact (hpassed _ hN (ih hN)).2 _ hmakes
  exact ⟨hready.sound, (hpassed M hM hready).1⟩

/-- In a run in which native code hands over live references only, the machine is intact at every moment, before and after every
request, call, body and queue of finalizers, exactly if the arguments of every late call that is let in are alive. -/
theorem intact_iff_late_live {Γ : Host χ σ} {p : Prog χ σ α} {limits : Limits} {host : σ}
    (hcareful : Careful Γ p (.start limits host)) :
    (∀ M, Happens Γ p (.start limits host) M → M.before.Intact ∧ (M.after Γ).Intact) ↔
      ∀ M f args m function, Happens Γ p (.start limits host) M → M.Late Γ f args m → m.callee f args = .ok function →
        m.Live (args.flatMap Value.refs) := by
  constructor
  · intro hintact M f args m function hM hlate hf
    obtain ⟨r, m₀, hask, hwithin⟩ := hM
    have hbody : Happens Γ p (.start limits host) (.body function.code ⟨args, function.upvalues⟩ (m.enter f args)) :=
      ⟨r, m₀, hask, (hwithin.trans hlate.within).tail (.enter hf)⟩
    have hroots := (hintact _ hbody).1.roots
    exact fun s hs => hroots s (Machine.isRoot_enter_iff.2 (Or.inr (Or.inr hs)))
  · intro hlate M hM
    obtain ⟨hbefore, hafter⟩ := hM.sound (Machine.sound_start limits host) hcareful hlate
    exact ⟨hbefore.intact, hafter.intact⟩

/-- Keeps one table on the stack and drops another one. -/
def keepOne : Prog Bool Unit Ref := do
  let _ ← Prog.request .newTable
  Prog.request (.push (.table ⟨2, 0⟩))
  Prog.request .newTable

/-- The machine after that. -/
def afterKeepOne : Machine Bool Unit := (keepOne.run (call fun _ _ => pure []) (.start .standard ())).2

/-- What happens when a collection follows: requests that call nothing, the collection, and its empty queue of finalizers. -/
theorem happens_keepOne {M : Moment Bool Unit}
    (hM : Happens (fun _ _ => pure []) (keepOne >>= fun _ => Prog.request .collect) (.start .standard ()) M) :
    (∃ r m, M = .request r m ∧ r.IsSilent) ∨ M = .request .collect afterKeepOne ∨ M = .finalizers afterKeepOne.swept := by
  obtain ⟨r, m, hask, hwithin⟩ := hM
  have hqueue : afterKeepOne.swept.pending = [] := by decide
  induction hwithin with
  | refl =>
    rcases Prog.asks_bind_iff.1 hask with h | ⟨_, -, h⟩
    · refine Or.inl ⟨r, m, rfl, ?_⟩
      rcases Prog.asks_bind_iff.1 h with h | ⟨_, -, h⟩
      · rw [(Prog.asks_request_iff.1 h).1]
        trivial
      · rcases Prog.asks_bind_iff.1 h with h | ⟨_, -, h⟩
        · rw [(Prog.asks_request_iff.1 h).1]
          trivial
        · rw [(Prog.asks_request_iff.1 h).1]
          trivial
    · obtain ⟨rfl, rfl⟩ := Prog.asks_request_iff.1 h
      exact Or.inr (Or.inl rfl)
  | tail _ hmakes ih =>
    rcases ih with ⟨r', m', rfl, hs⟩ | rfl | rfl
    · cases hmakes <;> exact hs.elim
    · cases hmakes with
      | sweep _ => exact Or.inr (Or.inr rfl)
    · cases hmakes with
      | turn ht _ =>
        rw [hqueue] at ht
        cases ht

/-- The queue is one of its moments, and every one of them begins and ends on an intact machine. -/
theorem intact_keepOne :
    Happens (fun _ _ => pure []) (keepOne >>= fun _ => Prog.request .collect) (.start .standard ())
      (.finalizers afterKeepOne.swept) ∧
    ∀ M, Happens (fun _ _ => pure []) (keepOne >>= fun _ => Prog.request .collect) (.start .standard ()) M →
      M.before.Intact ∧ (M.after fun _ _ => pure []).Intact := by
  have hcareful : Careful (fun _ _ => pure []) (keepOne >>= fun _ => Prog.request .collect)
      (.start .standard () : Machine Bool Unit) := by
    refine ⟨Prog.obeys_bind ?_ fun _ _ => Prog.obeys_single Machine.live_nil, fun _ _ _ _ => trivial⟩
    refine Prog.obeys_request Machine.live_nil fun _ _ => Prog.obeys_request (by decide) fun _ _ => ?_
    exact Prog.obeys_single Machine.live_nil
  have hrun : (keepOne.run (call fun _ _ => pure []) (.start .standard ())).1 = .ok ⟨3, 0⟩ :=
    eq_ok_of_toOption (by decide)
  refine ⟨⟨.collect, afterKeepOne, ?_, .single (.sweep (by decide))⟩, (intact_iff_late_live hcareful).2 ?_⟩
  · exact Prog.asks_bind_iff.2 (Or.inr ⟨⟨3, 0⟩, hrun, Prog.asks_request_iff.2 ⟨rfl, rfl⟩⟩)
  intro N f args m function hN hlate
  rcases happens_keepOne hN with ⟨r, m', rfl, hs⟩ | rfl | rfl
  · cases hlate
    exact hs.elim
  · cases hlate
  · cases hlate

/-! ## A lookup that lets go of an argument -/

/-- A host with two functions: one collects and answers with those of its bound values that are still there, the other does
nothing. -/
def droppingHost : Host Bool Unit
  | true, c => do
    let _ ← Prog.request .collect
    let m ← Prog.look
    return c.upvalues.filter (fun v => v.refs.all m.heap.contains)
  | false, _ => return []

/-- Neither function hands over any reference. -/
theorem obeys_droppingHost (k : Bool) (c : Call) (m : Machine Bool Unit) :
    (droppingHost k c).Obeys Machine.Passes (call droppingHost) m := by
  cases k with
  | true => exact Prog.obeys_request Machine.live_nil fun _ _ => Prog.obeys_request Machine.live_nil fun _ _ => trivial
  | false => trivial

/-- What they return is there. -/
theorem live_droppingHost {k : Bool} {c : Call} {m : Machine Bool Unit} {vs : List Value}
    (h : ((droppingHost k c).run (call droppingHost) m).1 = .ok vs) :
    ((droppingHost k c).run (call droppingHost) m).2.Live (vs.flatMap Value.refs) := by
  cases k with
  | true =>
    have hrun : (droppingHost true c).run (call droppingHost) m =
        match Action.collect (call droppingHost) m with
        | (.ok _, m') => (.ok (c.upvalues.filter (fun v => v.refs.all m'.heap.contains)), m')
        | (.error e, m') => (.error e, m') := by
      show (match Action.collect (call droppingHost) m with
        | (answer, m') => ((Prog.ofExcept answer).bind _).run _ m') = _
      rcases Action.collect (call droppingHost) m with ⟨e | freed, m'⟩ <;> rfl
    rw [hrun] at h ⊢
    rcases hc : Action.collect (call droppingHost) m with ⟨e | freed, m'⟩
    · rw [hc] at h
      cases h
    · rw [hc] at h
      cases h
      intro r hr
      obtain ⟨v, hv, hr⟩ := List.mem_flatMap.1 hr
      exact List.all_eq_true.1 (List.mem_filter.1 hv).2 r hr
  | false =>
    cases h
    exact Machine.live_nil

/-- Makes an object whose class looks methods up by a function that collects, keeps it on the stack, and makes a table. -/
def makeObject : Prog Bool Unit Ref := do
  let _ ← Prog.request (.newFunction "method" (.host false) [])
  let _ ← Prog.request (.newFunction "getter" (.host true) [.function ⟨2, 0⟩])
  let _ ← Prog.request .newTable
  Prog.request (.rawSet ⟨4, 0⟩ (.string "__index") (.function ⟨3, 0⟩))
  let _ ← Prog.request .newTable
  Prog.request (.setMetatable (.table ⟨5, 0⟩) (some ⟨4, 0⟩))
  Prog.request (.push (.table ⟨5, 0⟩))
  Prog.request .newTable

/-- Calls a method of the object with the table as an argument, which nothing else keeps. -/
def callWithTable : Prog Bool Unit (List Value) :=
  makeObject >>= fun argument => Prog.request (.callMethod (.table ⟨5, 0⟩) "go" [.table argument])

/-- The machine in front of the call. -/
def beforeGo : Machine Bool Unit := (makeObject.run (call droppingHost) (.start .standard ())).2

/-- The machine once the method was looked up. -/
def afterLookup : Machine Bool Unit := (Action.index (call droppingHost) (.table ⟨5, 0⟩) (.string "go") beforeGo).2

/-- The program makes the table, which is there when the method is called with it; the method is found, and then the table is
gone. -/
theorem loses_table :
    (makeObject.run (call droppingHost) (.start .standard ())).1.toOption = some ⟨6, 0⟩ ∧
      beforeGo.Passes (.callMethod (.table ⟨5, 0⟩) "go" [.table ⟨6, 0⟩]) ∧
      (Action.index (call droppingHost) (.table ⟨5, 0⟩) (.string "go") beforeGo).1.toOption = some (.function ⟨2, 0⟩) ∧
      (afterLookup.callee (.function ⟨2, 0⟩) [.table ⟨5, 0⟩, .table ⟨6, 0⟩]).toOption = some ⟨"method", .host false, []⟩ ∧
      ¬(afterLookup.enter (.function ⟨2, 0⟩) [.table ⟨5, 0⟩, .table ⟨6, 0⟩]).heap.contains ⟨6, 0⟩ = true := by
  decide +kernel

theorem run_makeObject : (makeObject.run (call droppingHost) (.start .standard ())).1 = .ok ⟨6, 0⟩ :=
  eq_ok_of_toOption loses_table.1

theorem asks_callWithTable : callWithTable.Asks (call droppingHost) (.start .standard ())
    (.callMethod (.table ⟨5, 0⟩) "go" [.table ⟨6, 0⟩]) beforeGo :=
  Prog.asks_bind_iff.2 (Or.inr ⟨⟨6, 0⟩, run_makeObject, Prog.asks_request_iff.2 ⟨rfl, rfl⟩⟩)

theorem obeys_makeObject : makeObject.Obeys Machine.Passes (call droppingHost) (.start .standard ()) := by
  refine Prog.obeys_request Machine.live_nil fun _ _ => ?_
  refine Prog.obeys_request (by decide) fun _ _ => ?_
  refine Prog.obeys_request Machine.live_nil fun _ _ => ?_
  refine Prog.obeys_request (by decide) fun _ _ => ?_
  refine Prog.obeys_request Machine.live_nil fun _ _ => ?_
  refine Prog.obeys_request (by decide) fun _ _ => ?_
  refine Prog.obeys_request (by decide) fun _ _ => ?_
  exact Prog.obeys_single Machine.live_nil

theorem careful_callWithTable : Careful droppingHost callWithTable (.start .standard ()) := by
  refine ⟨Prog.obeys_bind obeys_makeObject fun a ha => ?_, fun k c m _ => obeys_droppingHost k c m⟩
  rw [run_makeObject] at ha
  cases ha
  exact Prog.obeys_single loses_table.2.1

theorem index_beforeGo : Action.index (call droppingHost) (.table ⟨5, 0⟩) (.string "go") beforeGo =
    (.ok (.function ⟨2, 0⟩), afterLookup) :=
  Action.eq_of_fst (eq_ok_of_toOption loses_table.2.2.1)

theorem callee_afterLookup : afterLookup.callee (.function ⟨2, 0⟩) [.table ⟨5, 0⟩, .table ⟨6, 0⟩] =
    .ok ⟨"method", .host false, []⟩ :=
  eq_ok_of_toOption loses_table.2.2.2.1

/-- The body of the method begins with an argument that is gone. -/
theorem happens_method : Happens droppingHost callWithTable (.start .standard ()) (.body (.host false)
    ⟨[.table ⟨5, 0⟩, .table ⟨6, 0⟩], []⟩ (afterLookup.enter (.function ⟨2, 0⟩) [.table ⟨5, 0⟩, .table ⟨6, 0⟩])) :=
  ⟨_, _, asks_callWithTable, (Relation.ReflTransGen.single (.method index_beforeGo rfl)).tail (.enter callee_afterLookup)⟩

/-- In the body of the method there is a stale reference on the stack. -/
theorem not_intact_afterLookup : ¬(afterLookup.enter (.function ⟨2, 0⟩) [.table ⟨5, 0⟩, .table ⟨6, 0⟩]).Intact := by
  intro h
  exact loses_table.2.2.2.2 (h.roots ⟨6, 0⟩ (Machine.isRoot_enter_iff.2 (Or.inr (Or.inr (by decide)))))

/-- That every moment is intact when native code hands over and returns live references only is false: a method is called with
arguments that nothing keeps while it is looked up. -/
theorem intact_always_false :
    ¬∀ (Γ : Host Bool Unit) (p : Prog Bool Unit (List Value)) (limits : Limits) (host : Unit),
      Careful Γ p (.start limits host) →
      (∀ k c m vs, Happens Γ p (.start limits host) (.body (.host k) c m) → ((Γ k c).run (call Γ) m).1 = .ok vs →
        ((Γ k c).run (call Γ) m).2.Live (vs.flatMap Value.refs)) →
      ∀ M, Happens Γ p (.start limits host) M → M.before.Intact ∧ (M.after Γ).Intact := by
  intro hall
  exact not_intact_afterLookup (hall droppingHost callWithTable .standard () careful_callWithTable
    (fun _ _ _ _ _ h => live_droppingHost h) _ happens_method).1

end ScriptHost

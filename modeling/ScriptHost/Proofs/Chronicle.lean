import ScriptHost.Proofs.Moments

/-!
# The moments of a run in their order

What a moment of a run makes is a list, in the order in which it happens (`Moment.parts`, `Moment.mem_parts_iff`). Each of them goes
on to its end before the next one begins, so listing every moment before what it makes puts all moments of a run in their order
(`Moment.trace`, `Prog.trace`). The list has the moments that happen in the run and no others (`Prog.mem_trace_iff`).
-/

namespace ScriptHost

variable {χ σ α : Type}

/-! ## What is asked, searched and called -/

/-- The requests that a program asks from a machine on, in their order, each with the machine it is asked on. -/
def Prog.asked (c : Caller χ σ) : Prog χ σ α → Machine χ σ → List (Request χ σ × Machine χ σ)
  | .done _, _ => []
  | .fail _, _ => []
  | .ask r next, m => (r, m) :: (next (r.perform c m).1).asked c (r.perform c m).2

theorem Prog.mem_asked_iff {c : Caller χ σ} {p : Prog χ σ α} {m m' : Machine χ σ} {r : Request χ σ} :
    (r, m') ∈ p.asked c m ↔ p.Asks c m r m' := by
  induction p generalizing m with
  | done a => simp [asked, Asks]
  | fail e => simp [asked, Asks]
  | ask r₀ next ih => simp only [asked, Asks, List.mem_cons, Prod.mk.injEq, ih]

namespace Attribute

/-- The bases that a search for a key looks at, in their order, each with the machine it is looked at on. -/
def searched (c : Caller χ σ) (key : Value) : List Value → Machine χ σ → List (Ref × Machine χ σ)
  | [], _ => []
  | .table t :: bases, m =>
    (t, m) ::
      match Action.index c (.table t) key m with
      | (.ok found, next) => if found.isNil then searched c key bases next else []
      | _ => []
  | _ :: bases, m => searched c key bases m

theorem mem_searched_iff {c : Caller χ σ} {key : Value} {bases : List Value} {m m' : Machine χ σ} {b : Ref} :
    (b, m') ∈ searched c key bases m ↔ Searches c key bases m b m' := by
  induction bases generalizing m with
  | nil => simp [searched, Searches]
  | cons v bases ih =>
    cases v with
    | table t =>
      rw [searched, Searches, List.mem_cons, Prod.mk.injEq]
      refine or_congr Iff.rfl ?_
      rcases Action.index c (.table t) key m with ⟨e | found, next⟩
      · simp
      · by_cases hn : found.isNil = true
        · simp only [hn, if_true, ih]
          exact ⟨fun h => ⟨found, next, rfl, hn, h⟩, fun ⟨_, _, he, _, h⟩ => by cases he; exact h⟩
        · simp only [hn]
          refine ⟨fun h => (List.not_mem_nil h).elim, fun ⟨_, _, he, hn', _⟩ => ?_⟩
          cases he
          exact absurd hn' hn
    | _ => exact ih

/-- The bases of a class that are looked at for a key: none, if the class itself has it. -/
def below (c : Caller χ σ) (key : Value) : List Value → Machine χ σ → List (Ref × Machine χ σ)
  | [], _ => []
  | cls :: bases, m =>
    match inClass m key cls with
    | .ok found => if found.isNil then searched c key bases m else []
    | .error _ => []

/-- The bases that a class looks at for the key of a call: none, if the shadow of the receiver has it. -/
def lookedAt (c : Caller χ σ) (call : Call) (m : Machine χ σ) : List (Ref × Machine χ σ) :=
  match inShadow m (call.arg 1) (call.arg 2) with
  | .ok own => if own.isNil then below c (call.arg 2) call.upvalues m else []
  | .error _ => []

theorem mem_below_iff {c : Caller χ σ} {key : Value} {values : List Value} {m m' : Machine χ σ} {b : Ref} :
    (b, m') ∈ below c key values m ↔ ∃ cls bases found, values = cls :: bases ∧ inClass m key cls = .ok found ∧
      found.isNil = true ∧ Searches c key bases m b m' := by
  constructor
  · intro h
    unfold below at h
    split at h
    · cases h
    · rename_i cls bases
      split at h
      · rename_i found hfound
        split at h
        · rename_i hn
          exact ⟨cls, bases, found, rfl, hfound, hn, mem_searched_iff.1 h⟩
        · cases h
      · cases h
  · rintro ⟨cls, bases, found, rfl, hfound, hn, h⟩
    simp only [below, hfound, hn, if_true]
    exact mem_searched_iff.2 h

theorem mem_lookedAt_iff {c : Caller χ σ} {call : Call} {m m' : Machine χ σ} {b : Ref} :
    (b, m') ∈ lookedAt c call m ↔ LooksAt c call m b m' := by
  unfold lookedAt LooksAt
  cases hown : inShadow m (call.arg 1) (call.arg 2) with
  | error e => simp
  | ok own => by_cases hn : own.isNil = true <;> simp [hn, mem_below_iff]

end Attribute

/-! ## What a moment makes -/

namespace Moment

/-- What a moment makes directly, in the order in which it happens. -/
def parts (Γ : Host χ σ) : Moment χ σ → List (Moment χ σ)
  | request (.index v key) m => ((m.readEnters v key).map fun e => call e.1 [e.2, key] m).toList
  | request (.setIndex target key v) m => ((m.writeEnters target key).map fun e => call e.1 [e.2, key, v] m).toList
  | request (.call f args) m => [call f args m]
  | request (.callMethod v name args) m =>
    request (.index v (.string name)) m ::
      match Action.index (ScriptHost.call Γ) v (.string name) m with
      | (.ok method, m') => if method.isNil then [] else [call method (v :: args) m']
      | _ => []
  | request (.isKindOf v name) m =>
    match m.metafield v Registry.readName with
    | .ok reader => if (m.identity? v).isSome ∧ reader.isNil = false then [request (.index v (.string name)) m] else []
    | .error _ => []
  | request .collect m => if m.collecting then [] else [finalizers m.swept]
  | request _ _ => []
  | call f args m =>
    match m.callee f args with
    | .ok function => [body function.code ⟨args, function.upvalues⟩ (m.enter f args)]
    | .error _ => []
  | body (.host k) c m => ((Γ k c).asked (ScriptHost.call Γ) m).map fun e => request e.1 e.2
  | body .readAttribute c m =>
    (Attribute.lookedAt (ScriptHost.call Γ) c m).map fun e => request (.index (.table e.1) (c.arg 2)) e.2
  | body .writeAttribute _ _ => []
  | body .finalizeHandle c m => ((Attribute.finalizer? c m).map fun f => call (.function f) [c.arg 1] m).toList
  | finalizers m =>
    (turns (ScriptHost.call Γ) m.pending m).filterMap fun t => t.finalizer?.map fun f => call f [.userdata t.subject] t.machine

variable {Γ : Host χ σ} {M N : Moment χ σ}

theorem parts_of_silent {r : Request χ σ} (hr : r.IsSilent) (m : Machine χ σ) : (request r m).parts Γ = [] := by
  cases r <;> first | rfl | exact hr.elim

theorem makes_of_request {r : Request χ σ} {m : Machine χ σ} (h : N ∈ (request r m).parts Γ) : (request r m).Makes Γ N := by
  by_cases hr : r.IsSilent
  · rw [parts_of_silent hr] at h
    cases h
  cases r with
  | index v key =>
    obtain ⟨e, he, rfl⟩ := Option.map_eq_some_iff.1 (Option.mem_toList.1 h)
    exact .read he
  | setIndex target key v =>
    obtain ⟨e, he, rfl⟩ := Option.map_eq_some_iff.1 (Option.mem_toList.1 h)
    exact .write he
  | call f args =>
    cases List.mem_singleton.1 h
    exact .call f args m
  | callMethod v name args =>
    rcases List.mem_cons.1 h with rfl | h
    · exact .lookup v name args m
    · split at h
      · rename_i method m' hindex
        split at h
        · cases h
        · rename_i hn
          cases List.mem_singleton.1 h
          exact .method hindex (Bool.eq_false_iff.2 hn)
      · cases h
  | isKindOf v name =>
    simp only [parts] at h
    split at h
    · rename_i reader hr
      split at h
      · rename_i hn
        cases List.mem_singleton.1 h
        exact .marker hn.1 hr hn.2
      · cases h
    · cases h
  | collect =>
    simp only [parts] at h
    split at h
    · cases h
    · rename_i hc
      cases List.mem_singleton.1 h
      exact .sweep (Bool.eq_false_iff.2 hc)
  | _ => exact absurd trivial hr

theorem makes_of_mem_parts (h : N ∈ M.parts Γ) : M.Makes Γ N := by
  cases M with
  | request r m => exact makes_of_request h
  | call f args m =>
    simp only [parts] at h
    split at h
    · rename_i function hf
      cases List.mem_singleton.1 h
      exact .enter hf
    · cases h
  | body code c m =>
    cases code with
    | readAttribute =>
      obtain ⟨⟨b, m'⟩, hb, rfl⟩ := List.mem_map.1 h
      exact .base (Attribute.mem_lookedAt_iff.1 hb)
    | writeAttribute => cases h
    | finalizeHandle =>
      obtain ⟨f, hf, rfl⟩ := Option.map_eq_some_iff.1 (Option.mem_toList.1 h)
      exact .finalizer (Attribute.finalizer?_eq_some_iff.1 hf)
    | host k =>
      obtain ⟨⟨r, m'⟩, hr, rfl⟩ := List.mem_map.1 h
      exact .ask (Prog.mem_asked_iff.1 hr)
  | finalizers m =>
    obtain ⟨t, ht, hN⟩ := List.mem_filterMap.1 h
    obtain ⟨f, hf, rfl⟩ := Option.map_eq_some_iff.1 hN
    exact .turn ht hf

/-- The list has what the moment makes. -/
theorem mem_parts_iff : N ∈ M.parts Γ ↔ M.Makes Γ N := by
  refine ⟨makes_of_mem_parts, fun h => ?_⟩
  cases h with
  | read h => simp [parts, h]
  | write h => simp [parts, h]
  | call f args m => exact List.mem_singleton.2 rfl
  | lookup v name args m => exact List.mem_cons_self
  | method h hn => simp [parts, h, hn]
  | marker hv hr hn => simp [parts, hv, hr, hn]
  | sweep h => simp [parts, h]
  | turn ht hf => exact List.mem_filterMap.2 ⟨_, ht, by rw [hf]; rfl⟩
  | enter h => simp [parts, h]
  | ask h => exact List.mem_map.2 ⟨_, Prog.mem_asked_iff.2 h, rfl⟩
  | base h => exact List.mem_map.2 ⟨_, Attribute.mem_lookedAt_iff.2 h, rfl⟩
  | finalizer h => simp [parts, Attribute.finalizer?_eq_some_iff.2 h]

/-! ## All moments -/

/-- A moment and all that it makes, directly or through others, in the order in which they begin. -/
def trace (Γ : Host χ σ) (M : Moment χ σ) : List (Moment χ σ) := M :: (M.parts Γ).attach.flatMap fun N => N.1.trace Γ
termination_by M.rank
decreasing_by exact (makes_of_mem_parts N.2).rank_lt

theorem trace_eq (M : Moment χ σ) : M.trace Γ = M :: (M.parts Γ).flatMap (trace Γ) := by
  rw [trace, List.flatMap_subtype (g := trace Γ) fun _ _ => rfl, List.unattach_attach]

/-- What holds of a moment as soon as it holds of what the moment makes holds of every moment. -/
theorem induction (Γ : Host χ σ) {P : Moment χ σ → Prop} (step : ∀ M, (∀ N ∈ M.parts Γ, P N) → P M) (M : Moment χ σ) : P M := by
  induction hk : M.rank using Nat.strongRecOn generalizing M with
  | _ k ih => exact step M fun N hN => ih _ (hk ▸ (makes_of_mem_parts hN).rank_lt) N rfl

theorem mem_trace_iff : N ∈ M.trace Γ ↔ M.Within Γ N := by
  refine Moment.induction Γ (P := fun M => N ∈ M.trace Γ ↔ M.Within Γ N) (fun M ih => ?_) M
  rw [trace_eq, List.mem_cons, List.mem_flatMap]
  constructor
  · rintro (rfl | ⟨L, hL, hN⟩)
    · exact .refl
    · exact .head (mem_parts_iff.1 hL) ((ih L hL).1 hN)
  · intro h
    rcases Relation.ReflTransGen.cases_head h with rfl | ⟨L, hL, hN⟩
    · exact Or.inl rfl
    · have hmem := mem_parts_iff.2 hL
      exact Or.inr ⟨L, hmem, (ih L hmem).2 hN⟩

end Moment

/-- All moments of a run of a program, in the order in which they begin. -/
def Prog.trace (Γ : Host χ σ) (p : Prog χ σ α) (m : Machine χ σ) : List (Moment χ σ) :=
  (p.asked (call Γ) m).flatMap fun e => (Moment.request e.1 e.2).trace Γ

/-- The list has the moments that happen in the run. -/
theorem Prog.mem_trace_iff {Γ : Host χ σ} {p : Prog χ σ α} {m : Machine χ σ} {M : Moment χ σ} :
    M ∈ p.trace Γ m ↔ Happens Γ p m M := by
  unfold Prog.trace Happens
  rw [List.mem_flatMap]
  constructor
  · rintro ⟨⟨r, m'⟩, hr, hM⟩
    exact ⟨r, m', mem_asked_iff.1 hr, Moment.mem_trace_iff.1 hM⟩
  · rintro ⟨r, m', hr, hM⟩
    exact ⟨(r, m'), mem_asked_iff.2 hr, Moment.mem_trace_iff.2 hM⟩

end ScriptHost

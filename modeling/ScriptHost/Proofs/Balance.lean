import ScriptHost.Proofs.OneShot
import ScriptHost.Proofs.Respecting

/-!
# Calls are balanced

Entering a call puts the function and its arguments on the stack, and leaving it cuts the stack to its old height. A body that takes
nothing off the stack but what is above its own frame (`Moment.SparesFrames`) leaves everything below in its place, so what is cut
down to is the stack that the call has found (`Moment.stack_after`). The frame is there throughout the body. It is a root of every
collection that the body asks for, directly or not: the function and its arguments stay live, and with the function the values bound
to it (`Machine.Secures`).
-/

namespace ScriptHost

variable {χ σ α : Type} {Γ : Host χ σ}

/-! ## What is kept over the parts of a moment -/

open Moment in
/-- What links the parts and holds over each of them holds over all of them, and what it leads to holds up to everything that
they make. -/
theorem Strung.keep_flatMap {K R : Machine χ σ → Machine χ σ → Prop} {m m' : Machine χ σ} {Ns : List (Moment χ σ)}
    (h : Strung K Γ m Ns m') (htrans : ∀ {m m' m''}, K m m' → K m' m'' → K m m'')
    (hlead : ∀ {m m' m''}, K m m' → R m' m'' → R m m'')
    (hNs : ∀ N ∈ Ns, K N.before (N.after Γ) ∧ ∀ N' ∈ N.trace Γ, R N.before N'.before) :
    K m m' ∧ ∀ N' ∈ Ns.flatMap (trace Γ), R m N'.before := by
  obtain ⟨hend, hall⟩ := h.keep (K := K) htrans id fun N hN => (hNs N hN).1
  refine ⟨hend, fun N' hN' => ?_⟩
  obtain ⟨N, hN, hin⟩ := List.mem_flatMap.1 hN'
  exact hlead (hall N hN) ((hNs N hN).2 N' hin)

/-- What each request that a program asks keeps, the program keeps, and it has it where it asks. -/
theorem Prog.keep_asks {I : Machine χ σ → Prop} {c : Caller χ σ} (p : Prog χ σ α) {m : Machine χ σ} (hm : I m)
    (hasks : ∀ r x, p.Asks c m r x → I x → I (r.perform c x).2) : I (p.run c m).2 ∧ ∀ r x, p.Asks c m r x → I x := by
  induction p generalizing m with
  | done a => exact ⟨hm, fun _ _ h => h.elim⟩
  | fail e => exact ⟨hm, fun _ _ h => h.elim⟩
  | ask r next ih =>
    have hnext := hasks r m (Or.inl ⟨rfl, rfl⟩) hm
    obtain ⟨hend, hall⟩ := ih _ hnext fun r' x h => hasks r' x (Or.inr h)
    refine ⟨hend, fun r' x h => ?_⟩
    rcases h with ⟨-, rfl⟩ | h
    · exact hm
    · exact hall r' x h

/-! ## The depth of calls -/

namespace Machine

/-- The second machine is inside as many calls as the first, with the same limits. -/
def Level (m m' : Machine χ σ) : Prop := m'.depth = m.depth ∧ m'.limits = m.limits

/-- The second machine has the limits of the first, and respects them if the first does. -/
def Limited (m m' : Machine χ σ) : Prop :=
  m'.limits = m.limits ∧ (m.depth ≤ m.limits.maxCallDepth → m'.depth ≤ m.limits.maxCallDepth)

theorem Level.trans {m m' m'' : Machine χ σ} (h : m.Level m') (h' : m'.Level m'') : m.Level m'' :=
  ⟨h'.1.trans h.1, h'.2.trans h.2⟩

theorem Level.limited {m m' m'' : Machine χ σ} (h : m.Level m') (h' : m'.Limited m'') : m.Limited m'' := by
  refine ⟨h'.1.trans h.2, fun hm => ?_⟩
  have hle := h'.2
  rw [h.1, h.2] at hle
  exact hle hm

theorem Steps.level {m m' : Machine χ σ} (h : m.Steps m') : m.Level m' :=
  ⟨congrArg Frame.depth h.frame_eq, congrArg Frame.limits h.frame_eq⟩

theorem tie_level : Tie (Level (χ := χ) (σ := σ)) where
  refl _ := ⟨rfl, rfl⟩
  trans := Level.trans
  stored m t key v := (Action.quiet_rawSet t key v m).level
  queued _ _ _ := ⟨rfl, rfl⟩

end Machine

open Moment

/-- A moment is over at the depth at which it began, and inside of it the limits are respected. -/
theorem Moment.level_after {M : Moment χ σ} (hM : M.Sane) :
    M.before.Level (M.after Γ) ∧ ∀ N ∈ M.trace Γ, M.before.Limited N.before := by
  refine Moment.induction Γ (P := fun M => M.Sane → M.before.Level (M.after Γ) ∧ ∀ N ∈ M.trace Γ, M.before.Limited N.before)
    (fun M ih hM => ?_) M hM
  have ih := fun N hN => ih N hN (sane_of_mem_parts hN)
  have hself : M.before.Limited M.before := ⟨rfl, id⟩
  rw [trace_eq, List.forall_mem_cons]
  rcases M.strung_cases (Γ := Γ) Machine.tie_level hM with ⟨r, m, rfl, hr⟩ | ⟨m, rfl, hc⟩ | ⟨f, args, m, rfl⟩ | ⟨-, -, h⟩
  · rw [parts_of_silent hr]
    exact ⟨(Request.perform_steps _ hr m).level, hself, fun _ h => absurd h List.not_mem_nil⟩
  · rw [parts_of_sweep Γ hc, List.flatMap_singleton]
    obtain ⟨hend, hall⟩ := ih (finalizers m.swept) (by rw [parts_of_sweep Γ hc]; exact List.mem_singleton_self _)
    refine ⟨?_, hself, hall⟩
    show m.Level (Action.collect (ScriptHost.call Γ) m).2
    rw [collect_eq hc]
    exact hend
  · show m.Level (ScriptHost.call Γ f args m).2 ∧ _
    cases hf : m.callee f args with
    | error e =>
      simp only [parts, hf, call_of_refused Γ hf]
      exact ⟨⟨rfl, rfl⟩, hself, fun _ h => absurd h List.not_mem_nil⟩
    | ok function =>
      have hparts : (call f args m).parts Γ = [body function.code ⟨args, function.upvalues⟩ (m.enter f args)] := by
        simp only [parts, hf]
      obtain ⟨hend, hall⟩ := ih _ (by rw [hparts]; exact List.mem_singleton_self _)
      rw [hparts, List.flatMap_singleton, call_of_callee Γ hf]
      refine ⟨⟨congrArg (· - 1) hend.1, hend.2⟩, hself, fun N hN => ⟨(hall N hN).1, fun _ => ?_⟩⟩
      -- a call is let in below the greatest depth only
      exact (hall N hN).2 (Machine.depth_lt_of_callee hf)
  · obtain ⟨hend, hall⟩ := h.keep_flatMap (R := Machine.Limited) Machine.Level.trans Machine.Level.limited ih
    exact ⟨hend, hself, hall⟩

/-! ## What bodies do with the stack -/

/-- The request takes nothing off the stack below a height. -/
def Request.Spares (height : Nat) : Request χ σ → Machine χ σ → Prop
  | .pop, m => height < m.stack.size
  | .setTop top, _ => height ≤ top
  | _, _ => True

/-- The request is for the stack. -/
def Request.IsForStack : Request χ σ → Prop
  | .push _ | .pop | .setTop _ => True
  | _ => False

namespace Moment

/-- Every body of the host that runs within the moment takes nothing off the stack but what is above its own frame. It begins with
the frame, the function and its arguments, on top of the stack. -/
def SparesFrames (Γ : Host χ σ) (M : Moment χ σ) : Prop :=
  ∀ k c m, M.Within Γ (body (.host k) c m) → ∀ r m', (Γ k c).Asks (ScriptHost.call Γ) m r m' → r.Spares m.stack.size m'

/-- The moment is a body of the host, which may leave values of its own on the stack. -/
def IsHostBody : Moment χ σ → Prop
  | body (.host _) _ _ => True
  | _ => False

/-- The moment is a request for the stack. -/
def IsForStack : Moment χ σ → Prop
  | request r _ => r.IsForStack
  | _ => False

variable {M N : Moment χ σ}

theorem SparesFrames.of_mem_parts (h : M.SparesFrames Γ) (hN : N ∈ M.parts Γ) : N.SparesFrames Γ :=
  fun k c m hwithin => h k c m (.head (mem_parts_iff.1 hN) hwithin)

/-- Bodies that spare their frames, and so on within each part. -/
theorem sparesFrames_of (hown : ∀ k c m, M = body (.host k) c m → ∀ r x, (Γ k c).Asks (ScriptHost.call Γ) m r x →
    r.Spares m.stack.size x) (hparts : ∀ N ∈ M.parts Γ, N.SparesFrames Γ) : M.SparesFrames Γ := by
  intro k c m hwithin
  rcases Relation.ReflTransGen.cases_head hwithin with he | ⟨N, hN, hwithin⟩
  · exact hown k c m he
  · exact hparts N (mem_parts_iff.2 hN) k c m hwithin

/-- Only calls make bodies, and only bodies of the host make requests for the stack. -/
theorem not_isHostBody_of_mem_parts (hcall : ∀ f args m, M ≠ call f args m) (hbody : ¬M.IsHostBody) (hN : N ∈ M.parts Γ) :
    ¬N.IsHostBody ∧ ¬N.IsForStack := by
  cases mem_parts_iff.1 hN with
  | enter h => exact absurd rfl (hcall _ _ _)
  | ask h => exact absurd trivial hbody
  | _ => exact ⟨id, id⟩

end Moment

namespace Machine

/-- The stack of the second machine begins with that of the first. -/
def Beneath (m m' : Machine χ σ) : Prop := m.stack.toList <+: m'.stack.toList

theorem Beneath.refl (m : Machine χ σ) : m.Beneath m := List.prefix_refl _

theorem Beneath.trans {m m' m'' : Machine χ σ} (h : m.Beneath m') (h' : m'.Beneath m'') : m.Beneath m'' := List.IsPrefix.trans h h'

/-- The stack of the second machine is that of the first. -/
def SameStack (m m' : Machine χ σ) : Prop := m'.stack = m.stack

theorem SameStack.trans {m m' m'' : Machine χ σ} (h : m.SameStack m') (h' : m'.SameStack m'') : m.SameStack m'' := Eq.trans h' h

theorem SameStack.beneath {m m' m'' : Machine χ σ} (h : m.SameStack m') (h' : m'.Beneath m'') : m.Beneath m'' := by
  unfold Beneath at h' ⊢
  rwa [← h]

theorem beneath_enter (m : Machine χ σ) (f : Value) (args : List Value) : m.Beneath (m.enter f args) := by
  simp [Beneath, enter]

/-- Leaving a call whose frame is still on the stack. -/
theorem sameStack_leave {m m' : Machine χ σ} {f : Value} {args : List Value} (h : (m.enter f args).Beneath m') :
    m.SameStack (m'.leave m.stack.size) := by
  obtain ⟨rest, hrest⟩ := (m.beneath_enter f args).trans h
  refine Array.toList_inj.1 ?_
  show (m'.stack.take m.stack.size).toList = _
  rw [Array.take_eq_extract, Array.toList_extract, ← hrest]
  simp

theorem tie_sameStack : Tie (SameStack (χ := χ) (σ := σ)) where
  refl _ := rfl
  trans := SameStack.trans
  stored m t key v := by
    unfold SameStack
    rw [(Action.respects_rawSet t key v).onlyHeap m]
  queued _ _ _ := rfl

end Machine

namespace Request

open Machine

/-- A request that calls nothing and is not for the stack leaves the stack alone. -/
theorem sameStack_perform (c : Caller χ σ) {r : Request χ σ} (hr : r.IsSilent) (hstack : ¬r.IsForStack) (m : Machine χ σ) :
    m.SameStack (r.perform c m).2 := by
  by_cases hheap : r.IsForHeap
  · unfold SameStack
    rw [(respects_perform c hheap).onlyHeap m]
  · cases r with
    | look | keep | pin | unpin => rfl
    | push | pop | setTop => exact absurd trivial hstack
    | _ => exact absurd hr hheap

/-- A request that spares what is under a height, and leaves the stack as it was if it is not for the stack. -/
theorem beneath_perform {c : Caller χ σ} {r : Request χ σ} {m x : Machine χ σ} (hm : m.Beneath x) (hr : r.Spares m.stack.size x)
    (hstack : ¬r.IsForStack → x.SameStack (r.perform c x).2) : m.Beneath (r.perform c x).2 := by
  obtain ⟨rest, hrest⟩ := id hm
  have hsize : x.stack.size = m.stack.size + rest.length := by
    rw [← Array.length_toList, ← hrest, List.length_append, Array.length_toList]
  cases r with
  | push v =>
    show _ <+: (x.stack.push v).toList
    rw [Array.toList_push]
    exact List.IsPrefix.trans hm (List.prefix_append _ _)
  | pop =>
    have hlt : m.stack.size < x.stack.size := hr
    show _ <+: x.stack.pop.toList
    rw [Array.toList_pop, ← hrest, List.dropLast_append_of_ne_nil (List.length_pos_iff.1 (by omega))]
    exact List.prefix_append _ _
  | setTop top =>
    have hle : m.stack.size ≤ top := hr
    show _ <+: (x.stack.take top ++ Array.replicate (top - x.stack.size) Value.nil).toList
    rw [Array.toList_append, Array.take_eq_extract, Array.toList_extract, ← hrest]
    have htake : ((m.stack.toList ++ rest).extract 0 top) = m.stack.toList ++ rest.take (top - m.stack.size) := by
      rw [List.extract_eq_take_drop, Nat.sub_zero, List.drop_zero, List.take_append, Array.length_toList,
        List.take_of_length_le (by rwa [Array.length_toList])]
    rw [htake, List.append_assoc]
    exact List.prefix_append _ _
  | _ =>
    have hsame := hstack id
    unfold Beneath
    rw [hsame]
    exact hm

end Request

/-! ## The stack is given back -/

open Machine in
/-- Within what spares the frames the stack begins throughout with what was there when it began. What is not a request for the stack
ends with that still there, and what is not a body of the host either ends with nothing else. -/
theorem Moment.stack_after {M : Moment χ σ} (hM : M.Sane) (hspares : M.SparesFrames Γ) :
    (¬M.IsForStack → M.before.Beneath (M.after Γ) ∧ (¬M.IsHostBody → M.before.SameStack (M.after Γ))) ∧
      ∀ N ∈ M.trace Γ, M.before.Beneath N.before := by
  refine Moment.induction Γ (P := fun M => M.Sane → M.SparesFrames Γ →
    (¬M.IsForStack → M.before.Beneath (M.after Γ) ∧ (¬M.IsHostBody → M.before.SameStack (M.after Γ))) ∧
      ∀ N ∈ M.trace Γ, M.before.Beneath N.before) (fun M ih hM hspares => ?_) M hM hspares
  have ih := fun N hN => ih N hN (sane_of_mem_parts hN) (hspares.of_mem_parts hN)
  have hsame : M.before.SameStack (M.after Γ) →
      M.before.Beneath (M.after Γ) ∧ (¬M.IsHostBody → M.before.SameStack (M.after Γ)) := fun h => ⟨h.beneath (.refl _), fun _ => h⟩
  rw [trace_eq, List.forall_mem_cons]
  by_cases hhost : M.IsHostBody
  · obtain ⟨k, c, m, rfl⟩ : ∃ k c m, M = body (.host k) c m := by
      cases M with
      | body code c m =>
        cases code with
        | host k => exact ⟨k, c, m, rfl⟩
        | _ => exact hhost.elim
      | _ => exact hhost.elim
    have hmem : ∀ r x, (Γ k c).Asks (ScriptHost.call Γ) m r x → request r x ∈ (body (.host k) c m).parts Γ :=
      fun r x h => mem_parts_iff.2 (.ask h)
    obtain ⟨hend, hall⟩ := Prog.keep_asks (I := m.Beneath) (Γ k c) (.refl m) fun r x h hx =>
      Request.beneath_perform hx (hspares k c m .refl r x h) fun hstack => ((ih _ (hmem r x h)).1 hstack).2 id
    refine ⟨fun _ => ⟨hend, fun h => absurd hhost h⟩, .refl m, fun N hN => ?_⟩
    obtain ⟨P, hP, hN⟩ := List.mem_flatMap.1 hN
    obtain ⟨⟨r, x⟩, hr, rfl⟩ := List.mem_map.1 hP
    exact (hall r x (Prog.mem_asked_iff.1 hr)).trans ((ih _ hP).2 N hN)
  by_cases hcall : ∃ f args m, M = call f args m
  · obtain ⟨f, args, m, rfl⟩ := hcall
    refine ⟨fun _ => hsame ?_, .refl m, fun N hN => ?_⟩
    · show m.SameStack (ScriptHost.call Γ f args m).2
      cases hf : m.callee f args with
      | error e =>
        rw [call_of_refused Γ hf]
        rfl
      | ok function =>
        rw [call_of_callee Γ hf]
        exact sameStack_leave ((ih _ (mem_parts_iff.2 (.enter hf))).1 id).1
    · obtain ⟨P, hP, hN⟩ := List.mem_flatMap.1 hN
      cases mem_parts_iff.1 hP with
      | enter hf => exact (m.beneath_enter f args).trans ((ih _ hP).2 N hN)
  rcases M.strung_cases (Γ := Γ) tie_sameStack hM with ⟨r, m, rfl, hr⟩ | ⟨m, rfl, hc⟩ | h | ⟨-, -, h⟩
  · rw [parts_of_silent hr]
    exact ⟨fun hstack => hsame (Request.sameStack_perform _ hr hstack m), .refl m, fun _ h => absurd h List.not_mem_nil⟩
  · rw [parts_of_sweep Γ hc, List.flatMap_singleton]
    obtain ⟨hend, hall⟩ := ih (finalizers m.swept) (by rw [parts_of_sweep Γ hc]; exact List.mem_singleton_self _)
    refine ⟨fun _ => hsame ?_, .refl m, hall⟩
    show m.SameStack (Action.collect (ScriptHost.call Γ) m).2
    rw [collect_eq hc]
    exact (hend id).2 id
  · exact absurd h hcall
  · have hparts := fun N hN => not_isHostBody_of_mem_parts (Γ := Γ) (N := N) (fun f args m he => hcall ⟨f, args, m, he⟩) hhost hN
    obtain ⟨hend, hall⟩ := h.keep_flatMap (R := Beneath) SameStack.trans SameStack.beneath fun N hN =>
      ⟨((ih N hN).1 (hparts N hN).2).2 (hparts N hN).1, (ih N hN).2⟩
    exact ⟨fun _ => hsame hend, .refl _, hall⟩

/-! ## What a call is about stays live -/

namespace Machine

/-- What a call is about: its function, one of its arguments, or a value bound to the function. -/
def Involves (m : Machine χ σ) (f : Value) (args : List Value) (r : Ref) : Prop :=
  f.ref? = some r ∨ (∃ v ∈ args, v.ref? = some r) ∨
    ∃ s function, f = .function s ∧ m.heap.function s = .ok function ∧ ∃ v ∈ function.upvalues, v.ref? = some r

/-- What a call on the first machine is about is still there on the second: its function, if it has one, and everything else that
was there. -/
structure Secures (m : Machine χ σ) (f : Value) (args : List Value) (m' : Machine χ σ) : Prop where
  function : ∀ s function, f = .function s → m.heap.function s = .ok function → m'.heap.function s = .ok function
  contains : ∀ r, m.heap.contains r = true → m.Involves f args r → m'.heap.contains r = true

variable {m m' m'' : Machine χ σ} {f : Value} {args : List Value}

theorem Secures.refl (m : Machine χ σ) (f : Value) (args : List Value) : m.Secures f args m :=
  ⟨fun _ _ _ h => h, fun _ h _ => h⟩

theorem Secures.grown (h : m.Secures f args m') (hg : m'.heap.Grown m''.heap) : m.Secures f args m'' :=
  ⟨fun s function he hf => hg.function (h.function s function he hf), fun r hr hi => hg.contains (h.contains r hr hi)⟩

/-- A sweep keeps what the stack holds: the frame, and through the function what is bound to it. -/
theorem Secures.swept (h : m.Secures f args m') (hframe : (m.enter f args).Beneath m') : m.Secures f args m'.swept := by
  have hstack : ∀ v ∈ f :: args, v ∈ m'.stack := by
    refine fun v hv => Array.mem_toList_iff.1 (hframe.subset ?_)
    show v ∈ (m.stack ++ (f :: args).toArray).toList
    rw [Array.toList_append]
    exact List.mem_append_right _ hv
  have hroot : ∀ v ∈ f :: args, ∀ r, v.ref? = some r → m'.heap.contains r = true → m'.heap.Kept m'.IsRoot r :=
    fun v hv r hr hc => .root (Or.inr (Or.inr (Or.inl ⟨v, hstack v hv, hr⟩))) hc
  have hfunction : ∀ s function, f = .function s → m'.heap.function s = .ok function → m'.heap.Kept m'.IsRoot s :=
    fun s function he hf => hroot f List.mem_cons_self s (he ▸ rfl) (Heap.contains_of_object? (Heap.function_eq_ok_iff.1 hf))
  have hsurvives : ∀ r, m'.heap.Kept m'.IsRoot r → m'.Survives r := fun r hr => .root (Or.inl hr) hr.contains
  refine ⟨fun s function he hf => ?_, fun r hr hi => contains_swept_iff.2 (hsurvives r ?_)⟩
  · have hf' := h.function s function he hf
    exact Heap.function_eq_ok_iff.2 (swept_function (hsurvives s (hfunction s _ he hf')) (Heap.function_eq_ok_iff.1 hf'))
  · have hc := h.contains r hr hi
    rcases hi with hr | ⟨v, hv, hr⟩ | ⟨s, function, he, hf, v, hv, hr⟩
    · exact hroot f List.mem_cons_self r hr hc
    · exact hroot v (List.mem_cons_of_mem _ hv) r hr hc
    · have hf' := h.function s function he hf
      exact (hfunction s function he hf').held (.upvalue (Heap.function_eq_ok_iff.1 hf') hv hr) hc

end Machine

/-- Throughout a call that spares the frames, what it is about stays live. -/
theorem Moment.secures_within {m : Machine χ σ} (hm : m.Settled) {f : Value} {args : List Value} {N : Moment χ σ}
    (hspares : (call f args m).SparesFrames Γ) (hN : N ∈ (call f args m).trace Γ) :
    m.Secures f args N.before ∧ m.Secures f args N.onward ∧ m.Secures f args (N.after Γ) := by
  have hself := Machine.Secures.refl m f args
  rw [trace_eq] at hN
  cases hf : m.callee f args with
  | error e =>
    have hparts : (call f args m).parts Γ = [] := by simp only [parts, hf]
    rw [hparts] at hN
    obtain rfl := List.mem_singleton.1 hN
    refine ⟨hself, hself, ?_⟩
    show m.Secures f args (ScriptHost.call Γ f args m).2
    rw [call_of_refused Γ hf]
    exact hself
  | ok function =>
    have hparts : (call f args m).parts Γ = [body function.code ⟨args, function.upvalues⟩ (m.enter f args)] := by
      simp only [parts, hf]
    rw [hparts, List.flatMap_singleton] at hN
    generalize hB : body function.code ⟨args, function.upvalues⟩ (m.enter f args) = B at hparts hN
    have hbefore : B.before = m.enter f args := by rw [← hB]; rfl
    have hsane : B.Sane := by rw [← hB]; trivial
    have hmem : B ∈ (call f args m).parts Γ := hparts ▸ List.mem_singleton_self _
    -- the frame is on the stack of every collection within the body
    have hframe := (stack_after (Γ := Γ) hsane (hspares.of_mem_parts hmem)).2
    have hswept : ∀ x, request .collect x ∈ B.trace Γ → m.Secures f args x → m.Secures f args x.swept :=
      fun x hx h => h.swept (hbefore ▸ hframe _ hx)
    have hgrown : ∀ x y : Machine χ σ, x.heap.Grown y.heap → m.Secures f args x → m.Secures f args y := fun _ _ hg h => h.grown hg
    have hsettled : B.before.Settled := hbefore ▸ ⟨hm.wellFormed, hm.calm⟩
    have hentered : m.Secures f args B.before := hbefore ▸ ⟨hself.function, hself.contains⟩
    obtain ⟨hend, hall⟩ := (path_trace hsane).keep hsettled hentered hgrown hswept
    rcases List.mem_cons.1 hN with rfl | hN
    · refine ⟨hself, hself, ?_⟩
      show m.Secures f args (ScriptHost.call Γ f args m).2
      rw [call_of_callee Γ hf]
      rw [← hB] at hend
      exact ⟨hend.function, hend.contains⟩
    · obtain ⟨hsettled, hb, ho⟩ := hall N hN
      refine ⟨hb, ho, ?_⟩
      have hin := mem_trace_iff.1 hN
      exact ((path_trace (sane_of_mem_trace hsane hN)).keep hsettled hb hgrown fun x hx =>
        hswept x (mem_trace_iff.2 (hin.trans (mem_trace_iff.1 hx)))).1

/-! ## Every call of a run -/

/-- In every run, whatever the functions of the host do, calls nest no deeper than the limits say. A call of what is no function,
one that the limits leave no room for and one of a function that is not there say so and change nothing. Every call is over at the
depth at which it began. If the bodies within it take nothing off the stack but what is above their own frames, it is over with the
stack as it was, whether it answered or failed, and what was live of its function, its arguments and the values bound to the
function is live throughout, before and after each moment and after each sweep within the call. -/
theorem calls_balanced (Γ : Host χ σ) (p : Prog χ σ α) (limits : Limits) (host : σ) :
    (∀ N ∈ p.trace Γ (.start limits host), N.before.depth ≤ limits.maxCallDepth ∧ (N.after Γ).depth ≤ limits.maxCallDepth) ∧
    ∀ f args m, .call f args m ∈ p.trace Γ (.start limits host) →
      ((∀ s, f ≠ .function s) → call Γ f args m = (.error (.type (.notCallable f.typeName)), m)) ∧
      (∀ s, f = .function s →
        (¬m.HasRoom args.length → call Γ f args m = (.error .overflow, m)) ∧
        (m.HasRoom args.length → m.heap.contains s = false → call Γ f args m = (.error .stale, m)) ∧
        ∀ e, m.HasRoom args.length → m.heap.function s = .error e → call Γ f args m = (.error e, m)) ∧
      (call Γ f args m).2.depth = m.depth ∧
      ((Moment.call f args m).SparesFrames Γ →
        (call Γ f args m).2.stack = m.stack ∧
        ∀ r, m.heap.contains r = true → m.Involves f args r → ∀ N ∈ (Moment.call f args m).trace Γ,
          N.before.heap.contains r = true ∧ N.onward.heap.contains r = true ∧ (N.after Γ).heap.contains r = true) := by
  constructor
  · intro N hN
    obtain ⟨Ns, hsane, htrace, h⟩ := p.strung_trace Machine.tie_level Γ (.start limits host)
    obtain ⟨-, hall⟩ := h.keep_flatMap (R := Machine.Limited) Machine.Level.trans Machine.Level.limited fun N hN =>
      level_after (hsane N hN)
    have hbefore := (hall N (htrace ▸ hN)).2 (Nat.zero_le _)
    exact ⟨hbefore, Nat.le_trans (Nat.le_of_eq (level_after (Γ := Γ) (Prog.sane_of_mem_trace hN)).1.1) hbefore⟩
  · intro f args m hcall
    have hsettled : m.Settled := settled_of_mem_trace hcall
    refine ⟨fun hf => ?_, ?_, (call_at Γ f args m).1, fun hspares => ⟨?_, fun r hr hi N hN => ?_⟩⟩
    · refine call_of_refused Γ ?_
      cases f with
      | function s => exact absurd rfl (hf s)
      | _ => rfl
    · rintro s rfl
      have hmissing : ∀ e, m.HasRoom args.length → m.heap.function s = .error e →
          call Γ (.function s) args m = (.error e, m) := fun e hroom he => call_of_refused Γ <| by
        rw [Machine.callee, if_neg (by unfold Machine.HasRoom at hroom; omega), he]
      refine ⟨call_of_not_hasRoom Γ s args, fun hroom hs => hmissing _ hroom ?_, hmissing⟩
      have hnone : m.heap.object? s = none := by simpa [Heap.contains] using hs
      simp only [Heap.function, Heap.get, hnone]
    · exact ((stack_after (Γ := Γ) (M := .call f args m) trivial hspares).1 id).2 id
    · obtain ⟨hb, ho, ha⟩ := secures_within hsettled hspares hN
      exact ⟨hb.contains r hr hi, ho.contains r hr hi, ha.contains r hr hi⟩

/-- A host whose functions put a value on the stack, call what is no function, collect, whatever comes of that, and take the value
off again. -/
def carefulHost : Host Unit Unit := fun _ _ => do
  Prog.request (.push .nil)
  Prog.ask (.call .nil []) fun _ => Prog.ask .collect fun _ => do
    let _ ← Prog.request .pop
    return []

/-- They spare their frames, also as finalizers of the collection. -/
theorem sparesFrames_carefulHost {M : Moment Unit Unit} (hM : M.Sane) : M.SparesFrames carefulHost := by
  refine Moment.induction carefulHost (P := fun M => M.Sane → M.SparesFrames carefulHost) (fun M ih hM => ?_) M hM
  have ih := fun N hN => ih N hN (sane_of_mem_parts hN)
  refine sparesFrames_of (fun k c m he r x hasks => ?_) ih
  subst he
  -- the call and the collection leave the stack with the value on top
  have hsame : ∀ r x, (carefulHost k c).Asks (call carefulHost) m r x → ¬r.IsForStack →
      (r.perform (call carefulHost) x).2.stack = x.stack := fun r x h hstack => by
    have hmem := mem_parts_iff.2 (Makes.ask h)
    exact ((stack_after (Γ := carefulHost) (sane_of_mem_parts hmem) (ih _ hmem)).1 hstack).2 id
  have hcalled := hsame _ _ (Or.inr (Or.inl ⟨rfl, rfl⟩)) id
  have hcollected := hsame _ _ (Or.inr (Or.inr (Or.inl ⟨rfl, rfl⟩))) id
  rcases hasks with ⟨rfl, rfl⟩ | ⟨rfl, rfl⟩ | ⟨rfl, rfl⟩ | ⟨rfl, rfl⟩ | h
  · trivial
  · trivial
  · trivial
  · show m.stack.size < Array.size _
    rw [hcollected, hcalled]
    show m.stack.size < (m.stack.push .nil).size
    simp
  · exact h.elim

/-- Makes two tables and a function that the second one is bound to. -/
def makeCareful : Prog Unit Unit Ref := do
  let _ ← Prog.request .newTable
  let bound ← Prog.request .newTable
  Prog.request (.newFunction "careful" (.host ()) [.table bound])

/-- Calls the function with the first table. -/
def callCareful : Prog Unit Unit (List Value) := do
  let f ← makeCareful
  Prog.request (.call (.function f) [.table ⟨2, 0⟩])

/-- The machine on which the function is called. -/
def atCareful : Machine Unit Unit := (makeCareful.exec carefulHost (.start .standard ())).2

/-- Nothing but the call itself keeps the function and the tables, and all three are there after the collection that the function
asks for. -/
theorem calls_balanced_careful :
    .call (.function ⟨4, 0⟩) [.table ⟨2, 0⟩] atCareful ∈ callCareful.trace carefulHost (.start .standard ()) ∧
    (∀ r ∈ [⟨2, 0⟩, ⟨3, 0⟩, ⟨4, 0⟩], ¬atCareful.Survives r) ∧
    (Moment.call (.function ⟨4, 0⟩) [.table ⟨2, 0⟩] atCareful).SparesFrames carefulHost ∧
    (call carefulHost (.function ⟨4, 0⟩) [.table ⟨2, 0⟩] atCareful).2.statistics.collections = 1 ∧
    (call carefulHost (.function ⟨4, 0⟩) [.table ⟨2, 0⟩] atCareful).2.stack = atCareful.stack ∧
    ∀ r ∈ [⟨2, 0⟩, ⟨3, 0⟩, ⟨4, 0⟩],
      (call carefulHost (.function ⟨4, 0⟩) [.table ⟨2, 0⟩] atCareful).2.heap.contains r = true := by
  have hmade : (makeCareful.run (call carefulHost) (.start .standard ())).1 = .ok ⟨4, 0⟩ := eq_ok_of_toOption (by decide +kernel)
  have hcall : .call (.function ⟨4, 0⟩) [.table ⟨2, 0⟩] atCareful ∈ callCareful.trace carefulHost (.start .standard ()) := by
    refine Prog.mem_trace_iff.2 ⟨_, _, Prog.asks_bind_iff.2 (Or.inr ⟨_, hmade, Prog.asks_request_iff.2 ⟨rfl, rfl⟩⟩), ?_⟩
    exact .single (.call _ _ _)
  have hspares := sparesFrames_carefulHost (M := .call (.function ⟨4, 0⟩) [.table ⟨2, 0⟩] atCareful) trivial
  obtain ⟨-, hcalls⟩ := calls_balanced carefulHost callCareful .standard ()
  obtain ⟨-, -, -, hbalanced⟩ := hcalls _ _ _ hcall
  obtain ⟨hstack, hlive⟩ := hbalanced hspares
  refine ⟨hcall, ?_, hspares, by decide +kernel, hstack, fun r hr => ?_⟩
  · have hall : ∀ r ∈ ([⟨2, 0⟩, ⟨3, 0⟩, ⟨4, 0⟩] : List Ref), atCareful.swept.heap.contains r = false := by decide +kernel
    exact fun r hr hs => Bool.false_ne_true ((hall r hr).symm.trans (Machine.contains_swept_iff.2 hs))
  · have hself : (Moment.call (.function ⟨4, 0⟩) [.table ⟨2, 0⟩] atCareful) ∈ Moment.trace carefulHost _ :=
      mem_trace_iff.2 .refl
    have hfunction : atCareful.heap.object? ⟨4, 0⟩ = some (.function ⟨"careful", .host (), [.table ⟨3, 0⟩]⟩) := by decide +kernel
    have hc : ∀ r ∈ ([⟨2, 0⟩, ⟨3, 0⟩, ⟨4, 0⟩] : List Ref), atCareful.heap.contains r = true := by decide +kernel
    refine (hlive r (hc r hr) ?_ _ hself).2.2
    simp only [List.mem_cons, List.not_mem_nil, or_false] at hr
    rcases hr with rfl | rfl | rfl
    · exact Or.inr (Or.inl ⟨_, List.mem_cons_self, rfl⟩)
    · exact Or.inr (Or.inr ⟨_, _, rfl, Heap.function_eq_ok_iff.2 hfunction, _, List.mem_cons_self, rfl⟩)
    · exact Or.inl rfl

end ScriptHost

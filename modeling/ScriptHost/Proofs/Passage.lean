import ScriptHost.Proofs.Finalizers
import ScriptHost.Proofs.Strands

/-!
# From moment to moment

Between two moments of a run that follow each other in its order native code takes primitive steps, calls begin or are over, the
queue of finalizers moves on, and collections are finished. None of that frees anything or sets a flag, and the queue is empty
whenever no collection is under way (`Machine.Retains`). So a run is a path from moment to moment that loses nothing in between
(`Prog.path_trace`): all that a run frees and flags it frees and flags in its sweeps (`Moment.onward`).
-/

namespace ScriptHost

variable {χ σ α : Type}

namespace Machine

/-- The free slots are free, and no userdata is pending unless a collection is under way. -/
structure Settled (m : Machine χ σ) : Prop where
  wellFormed : m.heap.WellFormed
  calm : m.collecting = false → m.pending = []

/-- What leads from the first machine to the second frees nothing and leaves no userdata pending. -/
def Retains (m m' : Machine χ σ) : Prop := m.Settled → m'.Settled ∧ m.heap.Grown m'.heap

variable {m m' m'' : Machine χ σ}

theorem Retains.refl (m : Machine χ σ) : m.Retains m := fun hm => ⟨hm, .refl _⟩

theorem Retains.trans (h : m.Retains m') (h' : m'.Retains m'') : m.Retains m'' := by
  intro hm
  obtain ⟨hm', hg⟩ := h hm
  obtain ⟨hm'', hg'⟩ := h' hm'
  exact ⟨hm'', hg.trans hg'⟩

theorem Steps.retains (h : m.Steps m') : m.Retains m' := by
  intro hm
  have hframe := h.frame_eq
  have hheap := h.keep (I := fun x => x.heap.WellFormed ∧ m.heap.Grown x.heap)
    (fun _ _ hx hs => ⟨hs.wellFormed hx.1, hx.2.trans (hs.grown hx.1)⟩) ⟨hm.wellFormed, .refl _⟩
  refine ⟨⟨hheap.1, fun hc => ?_⟩, hheap.2⟩
  exact (congrArg Frame.pending hframe).trans (hm.calm ((congrArg Frame.collecting hframe).symm.trans hc))

theorem retains_enter (m : Machine χ σ) (f : Value) (args : List Value) : m.Retains (m.enter f args) :=
  fun hm => ⟨⟨hm.wellFormed, hm.calm⟩, .refl _⟩

theorem retains_leave (m : Machine χ σ) (height : Nat) : m.Retains (m.leave height) :=
  fun hm => ⟨⟨hm.wellFormed, hm.calm⟩, .refl _⟩

/-- The queue moves on while a collection is under way. -/
theorem retains_queue (hc : m.collecting = true) (rest : List Ref) : m.Retains (m.queue rest) := by
  refine fun hm => ⟨⟨hm.wellFormed, fun hn => ?_⟩, .refl _⟩
  rw [queue, hc] at hn
  cases hn

/-- A collection is over when its queue is. -/
theorem retains_finish (hq : m.pending = []) (s : Statistics) : m.Retains (m.finish s) :=
  fun hm => ⟨⟨hm.wellFormed, fun _ => hq⟩, .refl _⟩

/-- A sweep is the beginning of a collection. -/
theorem Settled.swept (hm : m.Settled) : m.swept.Settled := by
  refine ⟨wellFormed_swept hm.wellFormed, fun hc => ?_⟩
  rw [swept_eq] at hc
  cases hc

theorem settled_start (limits : Limits) (host : σ) : (start limits host : Machine χ σ).Settled :=
  ⟨wellFormed_start limits host, fun _ => rfl⟩

end Machine

/-! ## From one part to the next -/

variable {Γ : Host χ σ} {m m' m'' : Machine χ σ} {M N : Moment χ σ} {Ns l l' : List (Moment χ σ)}

/-- From the first machine to the second the moments follow each other, each going on to its end, and nothing is lost between
them. -/
inductive Linked (Γ : Host χ σ) : Machine χ σ → List (Moment χ σ) → Machine χ σ → Prop where
  | nil {m m' : Machine χ σ} (h : m.Retains m') : Linked Γ m [] m'
  | cons {m m' : Machine χ σ} {N : Moment χ σ} {Ns : List (Moment χ σ)} (h : m.Retains N.before)
      (rest : Linked Γ (N.after Γ) Ns m') : Linked Γ m (N :: Ns) m'

theorem Strung.linked (h : Strung Machine.Retains Γ m Ns m') : Linked Γ m Ns m' := by
  induction h with
  | nil h => exact .nil h
  | cons h _ ih => exact .cons h ih

/-- What lies between the parts of a moment loses nothing. -/
theorem tie_retains : Tie (Machine.Retains (χ := χ) (σ := σ)) where
  refl := .refl
  trans := .trans
  stored m t key v := Machine.Steps.retains (Action.quiet_rawSet t key v m)
  queued _ rest hc := Machine.retains_queue hc rest

/-- The queue is empty after the last turn. -/
theorem pending_finalizeAll (Γ : Host χ σ) (refs : List Ref) {m : Machine χ σ} (hc : m.collecting = true)
    (hq : m.pending = refs) : (Action.finalizeAll (call Γ) refs m).2.pending = [] := by
  induction refs generalizing m with
  | nil => exact hq
  | cons r rest ih =>
    cases hf : (m.queue rest).finalizer? r with
    | none =>
      rw [finalizeAll_skip hf]
      exact ih hc rfl
    | some f =>
      have hframe := call_frame_eq Γ f [.userdata r] (m := m.queue rest) hc
      rw [finalizeAll_call hf]
      exact ih ((congrArg Machine.Frame.collecting hframe).trans hc) (congrArg Machine.Frame.pending hframe)

namespace Moment

/-- The machine from which a moment goes on: a collection sweeps first. -/
def onward : Moment χ σ → Machine χ σ
  | request .collect m => if m.collecting then m else m.swept
  | M => M.before

/-- The finalizers of a collection are called while it is under way. -/
def Sane : Moment χ σ → Prop
  | finalizers m => m.collecting = true
  | _ => True

theorem sane_of_mem_parts (h : N ∈ M.parts Γ) : N.Sane := by
  cases makes_of_mem_parts h with
  | @sweep m h =>
    show m.swept.collecting = true
    rw [Machine.swept_eq]
  | _ => trivial

/-- What happens within a sane moment is sane. -/
theorem sane_of_mem_trace (hM : M.Sane) (hN : N ∈ M.trace Γ) : N.Sane := by
  rcases Relation.ReflTransGen.cases_tail (mem_trace_iff.1 hN) with rfl | ⟨L, -, hL⟩
  · exact hM
  · exact sane_of_mem_parts (mem_parts_iff.2 hL)

/-- A moment goes on from where it begins, unless it is a collection that sweeps. -/
theorem onward_cases (N : Moment χ σ) :
    N.onward = N.before ∨ ∃ m, N = .request .collect m ∧ m.collecting = false ∧ N.onward = m.swept := by
  cases N with
  | request r m =>
    cases r with
    | collect =>
      cases hc : m.collecting with
      | true => exact Or.inl (if_pos hc)
      | false => exact Or.inr ⟨m, rfl, hc, if_neg (by simp [hc])⟩
    | _ => exact Or.inl rfl
  | _ => exact Or.inl rfl

/-- What a collection that sweeps makes. -/
theorem parts_of_sweep (Γ : Host χ σ) (hc : m.collecting = false) : (request .collect m).parts Γ = [finalizers m.swept] :=
  if_neg (Bool.eq_false_iff.1 hc)

variable {L : Machine χ σ → Machine χ σ → Prop}

/-- A call enters the body of its function and leaves it, unless it is refused. -/
theorem strung_call (hL : Tie L) (henter : ∀ (m : Machine χ σ) f args, L m (m.enter f args))
    (hleave : ∀ (m : Machine χ σ) height, L m (m.leave height)) (Γ : Host χ σ) (f : Value) (args : List Value) (m : Machine χ σ) :
    Strung L Γ m ((call f args m).parts Γ) ((call f args m).after Γ) := by
  show Strung L Γ m _ (ScriptHost.call Γ f args m).2
  cases hf : m.callee f args with
  | error e =>
    simp only [parts, hf, call_of_refused Γ hf]
    exact .nil (hL.refl m)
  | ok function =>
    simp only [parts, hf, call_of_callee Γ hf]
    exact .single (henter m f args) (hleave _ _)

/-- A moment asks for something that calls nothing, or it is a collection that sweeps, or a call, or its parts begin one after the
other. -/
theorem strung_cases (hL : Tie L) (hM : M.Sane) :
    (∃ r m, M = request r m ∧ r.IsSilent) ∨ (∃ m, M = request .collect m ∧ m.collecting = false) ∨
    (∃ f args m, M = call f args m) ∨
    ((∀ r m, M = request r m → ¬r.IsSilent) ∧ M.onward = M.before ∧ Strung L Γ M.before (M.parts Γ) (M.after Γ)) := by
  cases M with
  | request r m =>
    by_cases hr : r.IsSilent
    · exact Or.inl ⟨r, m, rfl, hr⟩
    by_cases hc : r = .collect ∧ m.collecting = false
    · exact Or.inr (Or.inl ⟨m, by rw [hc.1], hc.2⟩)
    have hcollecting : r = .collect → m.collecting = true := fun he => eq_true_of_ne_false fun h => hc ⟨he, h⟩
    have honward : (request r m).onward = m := by
      cases r with
      | collect => exact if_pos (hcollecting rfl)
      | _ => rfl
    exact Or.inr (Or.inr (Or.inr ⟨fun _ _ he => by injection he with he; exact he ▸ hr, honward,
      strung_request hL Γ hr hcollecting⟩))
  | call f args m => exact Or.inr (Or.inr (Or.inl ⟨f, args, m, rfl⟩))
  | body code c m => exact Or.inr (Or.inr (Or.inr ⟨fun _ _ he => (nomatch he), rfl, strung_body hL Γ code c m⟩))
  | finalizers m => exact Or.inr (Or.inr (Or.inr ⟨fun _ _ he => (nomatch he), rfl, strung_finalizers hL Γ hM⟩))

/-- What a moment makes follows each other from where the moment goes on until it is over. -/
theorem linked_parts (hM : M.Sane) : Linked Γ M.onward (M.parts Γ) (M.after Γ) := by
  rcases M.strung_cases (Γ := Γ) tie_retains hM with ⟨r, m, rfl, hr⟩ | ⟨m, rfl, hc⟩ | ⟨f, args, m, rfl⟩ | ⟨-, he, h⟩
  · have honward : (request r m).onward = m := by cases r <;> first | rfl | exact hr.elim
    rw [parts_of_silent hr, honward]
    exact .nil (Machine.Steps.retains (Request.perform_steps _ hr m))
  · have hswept : m.swept.collecting = true := by rw [Machine.swept_eq]
    have honward : (request .collect m).onward = m.swept := if_neg (Bool.eq_false_iff.1 hc)
    rw [honward, parts_of_sweep Γ hc]
    show Linked Γ m.swept _ (Action.collect (ScriptHost.call Γ) m).2
    rw [collect_eq hc]
    exact .cons (.refl _) (.nil (Machine.retains_finish (pending_finalizeAll Γ m.swept.pending hswept rfl) _))
  · exact (strung_call tie_retains Machine.retains_enter Machine.retains_leave Γ f args m).linked
  · exact he ▸ h.linked

end Moment

/-! ## Paths -/

open Moment

/-- From the first machine to the second the moments begin in this order, and nothing is lost between one beginning and the next
but by the sweeps of collections. -/
inductive Path : Machine χ σ → List (Moment χ σ) → Machine χ σ → Prop where
  | nil {m m' : Machine χ σ} (h : m.Retains m') : Path m [] m'
  | cons {m m' : Machine χ σ} {N : Moment χ σ} {l : List (Moment χ σ)} (h : m.Retains N.before) (rest : Path N.onward l m') :
      Path m (N :: l) m'

theorem Path.of_retains (h : m.Retains m') (h' : Path m' l m'') : Path m l m'' := by
  cases h' with
  | nil hr => exact .nil (h.trans hr)
  | cons hr rest => exact .cons (h.trans hr) rest

theorem Path.append (h : Path m l m') (h' : Path m' l' m'') : Path m (l ++ l') m'' := by
  induction h with
  | nil hr => exact .of_retains hr h'
  | cons hr _ ih => exact .cons hr (ih h')

/-- A path to a moment, and the path on from there. -/
theorem Path.split (h : Path m (l ++ N :: l') m') : Path m l N.before ∧ Path N.onward l' m' := by
  induction l generalizing m with
  | nil =>
    cases h with
    | cons hr rest => exact ⟨.nil hr, rest⟩
  | cons L l ih =>
    cases h with
    | cons hr rest =>
      obtain ⟨hl, hl'⟩ := ih rest
      exact ⟨.cons hr hl, hl'⟩

/-- Moments that follow each other are a path through all that they make. -/
theorem Linked.path (h : Linked Γ m Ns m') (hNs : ∀ N ∈ Ns, Path N.before (N.trace Γ) (N.after Γ)) :
    Path m (Ns.flatMap (trace Γ)) m' := by
  induction h with
  | nil hr => exact .nil hr
  | cons hr _ ih =>
    obtain ⟨hN, hrest⟩ := List.forall_mem_cons.1 hNs
    exact (Path.of_retains hr hN).append (ih hrest)

/-- A moment is a path through all that it makes. -/
theorem Moment.path_trace (hM : M.Sane) : Path M.before (M.trace Γ) (M.after Γ) := by
  refine Moment.induction Γ (P := fun M => M.Sane → Path M.before (M.trace Γ) (M.after Γ)) (fun M ih hM => ?_) M hM
  rw [trace_eq]
  exact .cons (.refl _) ((linked_parts hM).path fun N hN => ih N hN (sane_of_mem_parts hN))

/-- What a program asks are requests, and it is over when the last of them is. -/
theorem Prog.strung_trace {L : Machine χ σ → Machine χ σ → Prop} (hL : Tie L) (Γ : Host χ σ) (p : Prog χ σ α) (m : Machine χ σ) :
    ∃ Ns : List (Moment χ σ), (∀ N ∈ Ns, N.Sane) ∧ p.trace Γ m = Ns.flatMap (Moment.trace Γ) ∧ Strung L Γ m Ns (p.exec Γ m).2 := by
  refine ⟨(p.asked (call Γ) m).map fun e => .request e.1 e.2, fun N hN => ?_, ?_, strung_asked hL Γ p m⟩
  · obtain ⟨e, -, rfl⟩ := List.mem_map.1 hN
    trivial
  · rw [List.flatMap_map]
    rfl

/-- A run is a path through all its moments. -/
theorem Prog.path_trace (Γ : Host χ σ) (p : Prog χ σ α) (m : Machine χ σ) : Path m (p.trace Γ m) (p.exec Γ m).2 := by
  obtain ⟨Ns, hsane, htrace, h⟩ := p.strung_trace tie_retains Γ m
  rw [htrace]
  exact h.linked.path fun N hN => Moment.path_trace (hsane N hN)

/-- All moments of a run are sane. -/
theorem Prog.sane_of_mem_trace {p : Prog χ σ α} (hN : N ∈ p.trace Γ m) : N.Sane := by
  obtain ⟨e, -, hN⟩ := List.mem_flatMap.1 hN
  exact Moment.sane_of_mem_trace (M := .request e.1 e.2) trivial hN

/-! ## What lasts along a path -/

theorem Path.settled (h : Path m l m') (hm : m.Settled) : m'.Settled := by
  induction h with
  | nil hr => exact (hr hm).1
  | @cons m m' N l hr _ ih =>
    have hN := (hr hm).1
    rcases N.onward_cases with he | ⟨m₀, rfl, -, he⟩
    · exact ih (he ▸ hN)
    · exact ih (he ▸ hN.swept)

/-- What a machine keeps while its heap grows, and over the sweeps on the way, it keeps along a path. -/
theorem Path.keep {Q : Machine χ σ → Prop} (h : Path m l m') (hm : m.Settled) (hQ : Q m)
    (hgrown : ∀ x y : Machine χ σ, x.heap.Grown y.heap → Q x → Q y)
    (hswept : ∀ x, .request .collect x ∈ l → Q x → Q x.swept) : Q m' ∧ ∀ N ∈ l, N.before.Settled ∧ Q N.before ∧ Q N.onward := by
  induction h with
  | nil hr => exact ⟨hgrown _ _ (hr hm).2 hQ, fun _ hN => absurd hN List.not_mem_nil⟩
  | @cons m m' N l hr _ ih =>
    obtain ⟨hN, hg⟩ := hr hm
    have hbefore := hgrown _ _ hg hQ
    have honward : N.onward.Settled ∧ Q N.onward := by
      rcases N.onward_cases with he | ⟨m₀, rfl, -, he⟩
      · exact he ▸ ⟨hN, hbefore⟩
      · exact he ▸ ⟨hN.swept, hswept m₀ List.mem_cons_self hbefore⟩
    obtain ⟨hend, hall⟩ := ih honward.1 honward.2 fun x hx => hswept x (List.mem_cons_of_mem _ hx)
    exact ⟨hend, List.forall_mem_cons.2 ⟨⟨hN, hbefore, honward.2⟩, hall⟩⟩

end ScriptHost

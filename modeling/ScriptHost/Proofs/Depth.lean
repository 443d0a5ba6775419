import ScriptHost.Proofs.Agreement

/-!
# Calls and their depth

`callWithin` bounds the recursion by the room for more calls. The bound is never what stops it: a machine refuses a call at its
greatest depth, so as soon as the room is what the limits leave, more room makes no difference (`callWithin_agree`). What calls
functions is therefore the one function `call`, which is called again for the calls inside a call (`call_eq`), and a stable set
of machines that entering and leaving a call keep is kept by calls (`call_keeps`).
-/

namespace ScriptHost

variable {χ σ : Type}

/-! ## One call -/

/-- A call does what its body does, if the machine lets it in. -/
theorem callWith_agree {R I J : Machine χ σ → Prop} {body body' : Code χ → Call → Action χ σ (List Value)} {f : Value}
    {args : List Value}
    (hbody : ∀ m function, R m → I m → m.callee f args = .ok function →
      body function.code ⟨args, function.upvalues⟩ (m.enter f args) =
        body' function.code ⟨args, function.upvalues⟩ (m.enter f args) ∧
      J (body function.code ⟨args, function.upvalues⟩ (m.enter f args)).2)
    (hleave : ∀ m height, J m → I (m.leave height)) :
    Action.Agree R I (callWith body f args) (callWith body' f args) := by
  intro m hr hm
  unfold callWith
  cases hf : m.callee f args with
  | error e => exact ⟨rfl, hm⟩
  | ok function =>
    obtain ⟨he, hk⟩ := hbody m function hr hm hf
    simp only [← he]
    exact ⟨trivial, hleave _ _ hk⟩

namespace Machine

/-- The machine is inside so many calls, and has the limits. -/
def At (depth : Nat) (limits : Limits) (m : Machine χ σ) : Prop := m.depth = depth ∧ m.limits = limits

/-- A call is let in below the greatest depth only. -/
theorem depth_lt_of_callee {m : Machine χ σ} {f : Value} {args : List Value} {function : NativeFunction χ}
    (h : m.callee f args = .ok function) : m.depth < m.limits.maxCallDepth := by
  unfold callee at h
  split at h
  · split at h
    · cases h
    · omega
  · cases h

theorem at_enter {depth : Nat} {limits : Limits} {m : Machine χ σ} (hm : At depth limits m) (f : Value) (args : List Value) :
    At (depth + 1) limits (m.enter f args) :=
  ⟨congrArg (· + 1) hm.1, hm.2⟩

theorem at_leave {depth : Nat} {limits : Limits} {m : Machine χ σ} (hm : At (depth + 1) limits m) (height : Nat) :
    At depth limits (m.leave height) :=
  ⟨congrArg (· - 1) hm.1, hm.2⟩

end Machine

theorem stable_at (depth : Nat) (limits : Limits) {P : Machine χ σ → Request χ σ → Prop} :
    Stable (Machine.At depth limits) P := by
  refine .of_steps ?_ (fun _ hm _ => hm) (fun _ _ _ _ _ hm => hm) (fun _ _ _ _ _ hm => hm)
  intro m m' hm hs
  have hf := hs.frame_eq
  exact ⟨(congrArg Machine.Frame.depth hf).trans hm.1, (congrArg Machine.Frame.limits hf).trans hm.2⟩

/-! ## The room makes no difference -/

variable {R : Machine χ σ → Prop} {limits : Limits} {depth : Nat}

/-- At its greatest depth a machine lets nothing in. -/
theorem callee_ne_ok_of_full {m : Machine χ σ} (hfull : limits.maxCallDepth ≤ depth) (hm : m.At depth limits) {f : Value}
    {args : List Value} {function : NativeFunction χ} : m.callee f args ≠ .ok function := by
  intro hf
  have hlt := Machine.depth_lt_of_callee hf
  rw [hm.1, hm.2] at hlt
  omega

/-- There it does not matter what a call would do. -/
theorem callWith_agree_of_full (hfull : limits.maxCallDepth ≤ depth)
    (body body' : Code χ → Call → Action χ σ (List Value)) (f : Value) (args : List Value) :
    Action.Agree R (Machine.At depth limits) (callWith body f args) (callWith body' f args) :=
  callWith_agree (J := fun _ => False) (fun _ _ _ hm hf => absurd hf (callee_ne_ok_of_full hfull hm)) fun _ _ h => h.elim

/-- Below it a call does the same with callers that agree one level deeper. -/
theorem callWith_agree_deeper (Γ : Host χ σ) {c c' : Caller χ σ}
    (hc : ∀ f args, Action.Agree (fun _ => True) (Machine.At (depth + 1) limits) (c f args) (c' f args)) (f : Value)
    (args : List Value) :
    Action.Agree (fun _ => True) (Machine.At depth limits) (callWith (fun code => code.run Γ c) f args)
      (callWith (fun code => code.run Γ c') f args) := by
  refine callWith_agree (J := Machine.At (depth + 1) limits) ?_ fun _ height hm => Machine.at_leave hm height
  intro m function _ hm _
  exact (stable_at (P := fun _ _ => True) (depth + 1) limits).code (visited_all c _) hc function.code
    ⟨args, function.upvalues⟩ trivial (Machine.at_enter hm f args) fun _ _ => Prog.obeys_all _ _

/-- With the room that the limits leave, or more, calls do the same. -/
theorem callWithin_agree (Γ : Host χ σ) (limits : Limits) (n n' depth : Nat) (hn : limits.maxCallDepth - depth ≤ n)
    (hn' : limits.maxCallDepth - depth ≤ n') (f : Value) (args : List Value) :
    Action.Agree (fun _ => True) (Machine.At depth limits) (callWithin Γ n f args) (callWithin Γ n' f args) := by
  induction n generalizing n' depth f args with
  | zero => cases n' <;> exact callWith_agree_of_full (by omega) _ _ f args
  | succ room ih =>
    cases n' with
    | zero => exact callWith_agree_of_full (by omega) _ _ f args
    | succ room' => exact callWith_agree_deeper Γ (fun f args => ih room' (depth + 1) (by omega) (by omega) f args) f args

/-- A call runs the code of the function, and the calls inside it are calls again. -/
theorem call_eq (Γ : Host χ σ) : call Γ = callWith (fun code => code.run Γ (call Γ)) := by
  funext f args m
  have hm : m.At m.depth m.limits := ⟨rfl, rfl⟩
  show callWithin Γ (m.limits.maxCallDepth - m.depth) f args m = _
  cases hroom : m.limits.maxCallDepth - m.depth with
  | zero => exact (callWith_agree_of_full (R := fun _ => True) (by omega) _ _ f args m trivial hm).1
  | succ room =>
    refine (callWith_agree_deeper Γ (fun f args m' _ hm' => ?_) f args m trivial hm).1
    have hroom' := callWithin_agree Γ m.limits room (m.limits.maxCallDepth - (m.depth + 1)) (m.depth + 1) (by omega)
      (by omega) f args m' trivial hm'
    unfold call
    rwa [hm'.1, hm'.2]

/-! ## What calls keep -/

/-- A stable set that entering and leaving a call keep is kept by calls, however deep they nest, from the machines that a run
gets to. -/
theorem call_keeps {Γ : Host χ σ} {I : Machine χ σ → Prop} {P : Machine χ σ → Request χ σ → Prop} (hI : Stable I P)
    (hR : Visited (call Γ) P R)
    (hΓ : ∀ m f args function k, R m → I m → m.callee f args = .ok function → function.code = .host k →
      (Γ k ⟨args, function.upvalues⟩).Obeys P (call Γ) (m.enter f args))
    (henter : ∀ m f args function, R m → I m → m.callee f args = .ok function →
      R (m.enter f args) ∧ I (m.enter f args))
    (hleave : ∀ m height, I m → I (m.leave height)) (f : Value) (args : List Value) :
    Action.Agree R I (call Γ f args) (call Γ f args) := by
  -- by induction on the depth that is left, with the depth as a part of the set
  have hdepth : ∀ (left depth : Nat) (limits : Limits), limits.maxCallDepth - depth = left → ∀ f args,
      Action.Agree R (fun m => I m ∧ m.At depth limits) (call Γ f args) (call Γ f args) := by
    intro left
    induction left with
    | zero =>
      intro depth limits hleft f args
      rw [call_eq]
      refine callWith_agree (J := fun _ => False) ?_ fun _ _ h => h.elim
      exact fun m function _ hm hf => absurd hf (callee_ne_ok_of_full (by omega) hm.2)
    | succ left ih =>
      intro depth limits hleft f args
      rw [call_eq]
      refine callWith_agree (J := fun m => I m ∧ m.At (depth + 1) limits) ?_
        fun m height hm => ⟨hleave m height hm.1, Machine.at_leave hm.2 height⟩
      intro m function hr hm hf
      obtain ⟨hr', hm'⟩ := henter m f args function hr hm.1 hf
      exact (hI.and (stable_at (depth + 1) limits)).code hR (ih (depth + 1) limits (by omega)) function.code
        ⟨args, function.upvalues⟩ hr' ⟨hm', Machine.at_enter hm.2 f args⟩
        fun k hk => hΓ m f args function k hr hm.1 hf hk
  exact fun m hr hm => ⟨rfl, (hdepth _ m.depth m.limits rfl f args m hr ⟨hm, rfl, rfl⟩).2.1⟩

/-- If it is kept by every request there is, it does not matter what the host supplies. -/
theorem call_keeps_all (Γ : Host χ σ) {I : Machine χ σ → Prop} (hI : Stable I (fun _ _ => True))
    (henter : ∀ m f args, I m → I (m.enter f args)) (hleave : ∀ m height, I m → I (m.leave height)) (f : Value)
    (args : List Value) : Action.Agree (fun _ => True) I (call Γ f args) (call Γ f args) :=
  call_keeps hI (visited_all _ _) (fun _ _ _ _ _ _ _ _ _ => Prog.obeys_all _ _)
    (fun m f args _ _ hm _ => ⟨trivial, henter m f args hm⟩) hleave f args

/-- A call leaves the depth and the limits as they were. -/
theorem call_at (Γ : Host χ σ) (f : Value) (args : List Value) (m : Machine χ σ) :
    (call Γ f args m).2.depth = m.depth ∧ (call Γ f args m).2.limits = m.limits :=
  (callWithin_agree Γ m.limits _ _ m.depth (Nat.le_refl _) (Nat.le_refl _) f args m trivial ⟨rfl, rfl⟩).2

end ScriptHost

import ScriptHost.Proofs.WellFormed

/-!
# While a collection is under way

A collection that is asked for while one is under way does nothing, so as long as one is under way nothing is freed, and what
native code does is primitive steps and calls. The bookkeeping of the machine then comes out of every call as it went in
(`call_frame_eq`), and what was on the heap is still there (`call_grown`). The same holds from one turn of the queue to the
next (`turn_books_eq`, `turn_grown`).
-/

namespace ScriptHost

variable {χ σ : Type}

/-- A set of machines on which a collection is under way is stable if primitive steps keep it. -/
theorem Stable.of_collecting {I : Machine χ σ → Prop} {P : Machine χ σ → Request χ σ → Prop}
    (hI : ∀ m m' : Machine χ σ, I m → m.Step m' → I m') (hc : ∀ m, I m → m.collecting = true) : Stable I P := by
  have hout : ∀ m, I m → ¬m.collecting = false := by
    intro m hm hf
    rw [hc m hm] at hf
    cases hf
  exact .of_steps hI (fun m hm hf => (hout m hm hf).elim) (fun m hm hf => (hout m hm hf).elim)
    (fun m hm hf => (hout m hm hf).elim)

/-! ## Calls -/

/-- A call that is made while a collection is under way leaves the bookkeeping as it was. -/
theorem call_frame_eq (Γ : Host χ σ) (f : Value) (args : List Value) {m : Machine χ σ} (hm : m.collecting = true) :
    (call Γ f args m).2.frame = m.frame := by
  -- inside the call only the depth is another one
  let I : Machine χ σ → Prop := fun m' =>
    m'.collecting = true ∧ { m'.frame with depth := 0 } = { m.frame with depth := 0 }
  have hstable : Stable I (fun _ _ => True) := by
    refine .of_collecting ?_ fun _ h => h.1
    intro m₁ m₂ h hs
    have hf := hs.frame_eq
    exact ⟨(congrArg Machine.Frame.collecting hf).trans h.1, by rw [hf]; exact h.2⟩
  have hk := (call_keeps_all Γ hstable (fun _ _ _ h => h) (fun _ _ h => h) f args m trivial ⟨hm, rfl⟩).2
  have hd := (call_at Γ f args m).1
  have hrest := hk.2
  simp only [Machine.frame, Machine.Frame.mk.injEq] at hrest ⊢
  simp [hrest, hd]

/-- A call that is made while a collection is under way takes nothing off the heap. -/
theorem call_grown (Γ : Host χ σ) (f : Value) (args : List Value) {m : Machine χ σ} (hm : m.collecting = true)
    (hw : m.heap.WellFormed) : m.heap.Grown (call Γ f args m).2.heap := by
  let I : Machine χ σ → Prop := fun m' => m'.collecting = true ∧ m'.heap.WellFormed ∧ m.heap.Grown m'.heap
  have hstable : Stable I (fun _ _ => True) := by
    refine .of_collecting ?_ fun _ h => h.1
    intro m₁ m₂ h hs
    exact ⟨(congrArg Machine.Frame.collecting hs.frame_eq).trans h.1, hs.wellFormed h.2.1,
      h.2.2.trans (hs.grown h.2.1)⟩
  exact (call_keeps_all Γ hstable (fun _ _ _ h => h) (fun _ _ h => h) f args m trivial ⟨hm, hw, .refl _⟩).2.2.2

/-- A call leaves no more on the stack than there was. -/
theorem size_stack_call_le (Γ : Host χ σ) (f : Value) (args : List Value) (m : Machine χ σ) :
    (call Γ f args m).2.stack.size ≤ m.stack.size := by
  rw [call_eq]
  unfold callWith
  split
  · exact Nat.le_refl _
  · simp only [Machine.leave, Array.take_eq_extract, Array.size_extract]
    omega

/-! ## Turns -/

namespace Machine

/-- The bookkeeping apart from the queue. -/
def books (m : Machine χ σ) : Frame := { m.frame with pending := [] }

end Machine

/-- What calls keep, from a queue on, the machine has at every turn and at the end. -/
theorem finalizeAll_keeps {c : Caller χ σ} {I : Machine χ σ → Prop} (hcall : ∀ f args m, I m → I (c f args m).2)
    (hqueue : ∀ m rest, I m → I (m.queue rest)) (refs : List Ref) {m : Machine χ σ} (hm : I m) :
    (∀ t ∈ turns c refs m, I t.machine) ∧ I (Action.finalizeAll c refs m).2 := by
  obtain ⟨-, hk, ht⟩ := Action.agree_finalizeAll (R := fun _ => True) (fun f args => .of_keep (hcall f args)) hqueue refs m
    (fun _ _ => trivial) hm
  exact ⟨fun t h => (ht t h).1, hk⟩

/-- From one turn to the next the bookkeeping is the same, apart from the queue, and so it is at the end. -/
theorem finalizeAll_books_eq (Γ : Host χ σ) (refs : List Ref) {m : Machine χ σ} (hm : m.collecting = true) :
    (∀ t ∈ turns (call Γ) refs m, t.machine.books = m.books) ∧
      (Action.finalizeAll (call Γ) refs m).2.books = m.books := by
  refine finalizeAll_keeps (I := fun m' => m'.books = m.books) ?_ (fun _ _ h => h) refs rfl
  intro f args m' hm'
  have hc : m'.collecting = true := (congrArg Machine.Frame.collecting hm').trans hm
  rw [← hm', Machine.books, Machine.books, call_frame_eq Γ f args hc]

/-- What is on the heap when the queue is begun is there at every turn and at the end. -/
theorem finalizeAll_grown (Γ : Host χ σ) (refs : List Ref) {m : Machine χ σ} (hm : m.collecting = true)
    (hw : m.heap.WellFormed) :
    (∀ t ∈ turns (call Γ) refs m, m.heap.Grown t.machine.heap) ∧
      m.heap.Grown (Action.finalizeAll (call Γ) refs m).2.heap := by
  let I : Machine χ σ → Prop := fun m' => m'.collecting = true ∧ m'.heap.WellFormed ∧ m.heap.Grown m'.heap
  have hcall : ∀ f args m', I m' → I (call Γ f args m').2 := by
    refine fun f args m' hm' => ⟨?_, call_wellFormed Γ f args hm'.2.1, hm'.2.2.trans (call_grown Γ f args hm'.1 hm'.2.1)⟩
    exact (congrArg Machine.Frame.collecting (call_frame_eq Γ f args hm'.1)).trans hm'.1
  obtain ⟨hturns, hend⟩ := finalizeAll_keeps hcall (fun _ _ h => h) refs ⟨hm, hw, .refl _⟩
  exact ⟨fun t ht => (hturns t ht).2.2, hend.2.2⟩

theorem turn_grown (Γ : Host χ σ) (refs : List Ref) {m : Machine χ σ} (hm : m.collecting = true)
    (hw : m.heap.WellFormed) {t : Turn χ σ} (ht : t ∈ turns (call Γ) refs m) : m.heap.Grown t.machine.heap :=
  (finalizeAll_grown Γ refs hm hw).1 t ht

/-- At every turn there is no more on the stack than when the queue is begun. -/
theorem size_stack_turn_le (Γ : Host χ σ) (refs : List Ref) (m : Machine χ σ) {t : Turn χ σ}
    (ht : t ∈ turns (call Γ) refs m) : t.machine.stack.size ≤ m.stack.size :=
  (finalizeAll_keeps (I := fun m' => m'.stack.size ≤ m.stack.size)
    (fun f args m' hm' => Nat.le_trans (size_stack_call_le Γ f args m') hm') (fun _ _ h => h) refs (Nat.le_refl _)).1 t ht

end ScriptHost

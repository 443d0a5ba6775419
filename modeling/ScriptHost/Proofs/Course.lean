import ScriptHost.Proofs.Runs

/-!
# Courses

What happens to a machine in a run is a list of events (`Event`): native code asks for something that calls nothing, a write comes
to the end of its chain, the code of a class writes an attribute, a call begins or is over, a collection goes through its phases. A
list of events is a course from a machine on if each of them can happen where it does and native code asks for what is permitted
(`Course`). What the events keep a course keeps (`Course.keep`), and every run follows a course (`Reached.exists_course`,
`Prog.exists_course`), so what lies between two machines of a run is spoken of as the course between them.
-/

namespace ScriptHost

variable {χ σ α : Type}

/-- What happens to a machine in a run. -/
inductive Event (χ σ : Type) where
  /-- Native code asks for something that calls nothing. -/
  | ask (r : Request χ σ)
  /-- The chain of a write has come to a table. -/
  | store (t : Ref) (key v : Value)
  /-- The code of a class writes an attribute. -/
  | write (call : Call)
  /-- The body of a function begins. -/
  | enter (f : Value) (args : List Value)
  /-- A call is over that began at a height of the stack. -/
  | leave (height : Nat)
  /-- A collection does everything it does before it calls a finalizer. -/
  | sweep
  /-- The next userdata is taken off the queue of finalizers. -/
  | queue (rest : List Ref)
  /-- A collection is over. -/
  | finish (s : Statistics)

namespace Machine

/-- The machine after an event. What a silent request does does not depend on what calls functions. -/
def after (m : Machine χ σ) : Event χ σ → Machine χ σ
  | .ask r => (r.perform (fun _ _ => Action.fail .overflow) m).2
  | .store t key v => (Action.rawSet t key v m).2
  | .write call => (Attribute.write call m).2
  | .enter f args => m.enter f args
  | .leave height => m.leave height
  | .sweep => m.swept
  | .queue rest => m.queue rest
  | .finish s => m.finish s

/-- The machine after events, one after the other. -/
def follow (m : Machine χ σ) (es : List (Event χ σ)) : Machine χ σ := es.foldl after m

/-- The event can happen to the machine, where native code asks for what is permitted. -/
def Allows (P : Machine χ σ → Request χ σ → Prop) (m : Machine χ σ) : Event χ σ → Prop
  | .ask r => r.IsSilent ∧ P m r
  | .store t key v => ∃ target, P m (.setIndex target key v) ∧ m.landsOn key m.limits.maxIndexChain target = some t
  | .enter f args => ∃ function, m.callee f args = .ok function
  | .sweep => m.collecting = false
  | .write _ | .leave _ | .queue _ | .finish _ => True

theorem follow_append (m : Machine χ σ) (es es' : List (Event χ σ)) : m.follow (es ++ es') = (m.follow es).follow es' :=
  List.foldl_append

end Machine

/-- Each of the events can happen where it does, from a machine on. -/
def Course (P : Machine χ σ → Request χ σ → Prop) : Machine χ σ → List (Event χ σ) → Prop
  | _, [] => True
  | m, e :: es => m.Allows P e ∧ Course P (m.after e) es

variable {P P' : Machine χ σ → Request χ σ → Prop} {m m' : Machine χ σ} {es es' : List (Event χ σ)}

theorem course_append : Course P m (es ++ es') ↔ Course P m es ∧ Course P (m.follow es) es' := by
  induction es generalizing m with
  | nil => exact ⟨fun h => ⟨trivial, h⟩, And.right⟩
  | cons e es ih =>
    show m.Allows P e ∧ Course P (m.after e) (es ++ es') ↔ _
    rw [ih, ← and_assoc]
    rfl

/-- One event after a course. -/
theorem Course.snoc (h : Course P m es) {e : Event χ σ} (he : (m.follow es).Allows P e) : Course P m (es ++ [e]) :=
  course_append.2 ⟨h, he, trivial⟩

/-- What each event keeps, a course keeps. -/
theorem Course.keep {I : Machine χ σ → Prop} (hI : ∀ m e, I m → m.Allows P e → I (m.after e)) (h : Course P m es) (hm : I m) :
    I (m.follow es) := by
  induction es generalizing m with
  | nil => exact hm
  | cons e es ih => exact ih h.2 (hI m e hm h.1)

/-- A course is one where less is permitted, if each of its events is. -/
theorem Course.narrow (h : Course P m es) (hes : ∀ e ∈ es, ∀ m : Machine χ σ, m.Allows P e → m.Allows P' e) :
    Course P' m es := by
  induction es generalizing m with
  | nil => trivial
  | cons e es ih => exact ⟨hes e List.mem_cons_self m h.1, ih h.2 fun e he => hes e (List.mem_cons_of_mem _ he)⟩

namespace Machine

/-- The machine is of a kind at the beginning of each collection among the events. -/
def AtSweeps (D : Machine χ σ → Prop) (m : Machine χ σ) (es : List (Event χ σ)) : Prop :=
  ∀ es₁ es₂, es = es₁ ++ .sweep :: es₂ → D (m.follow es₁)

variable {D D' : Machine χ σ → Prop} {e : Event χ σ}

theorem atSweeps_nil : m.AtSweeps D [] := fun _ _ hes => by simp at hes

theorem atSweeps_cons : m.AtSweeps D (e :: es) ↔ (e = .sweep → D m) ∧ (m.after e).AtSweeps D es := by
  refine ⟨fun h => ⟨fun he => h [] es (by rw [he]; rfl), fun es₁ es₂ hes => h (e :: es₁) es₂ (by rw [hes]; rfl)⟩, ?_⟩
  rintro ⟨hhead, htail⟩ es₁ es₂ hes
  cases es₁ with
  | nil =>
    cases hes
    exact hhead rfl
  | cons e' es₁ =>
    cases hes
    exact htail es₁ es₂ rfl

theorem AtSweeps.left (h : m.AtSweeps D (es ++ es')) : m.AtSweeps D es :=
  fun es₁ es₂ hes => h es₁ (es₂ ++ es') (by rw [hes]; simp)

/-- Each of the events, on the machine it happens to, is of a kind. -/
def AtEvents (E : Machine χ σ → Event χ σ → Prop) (m : Machine χ σ) (es : List (Event χ σ)) : Prop :=
  ∀ es₁ e es₂, es = es₁ ++ e :: es₂ → E (m.follow es₁) e

variable {E : Machine χ σ → Event χ σ → Prop}

theorem atEvents_nil : m.AtEvents E [] := fun _ _ _ hes => by simp at hes

theorem atEvents_cons : m.AtEvents E (e :: es) ↔ E m e ∧ (m.after e).AtEvents E es := by
  refine ⟨fun h => ⟨h [] e es rfl, fun es₁ e' es₂ hes => h (e :: es₁) e' es₂ (by rw [hes]; rfl)⟩, ?_⟩
  rintro ⟨hhead, htail⟩ es₁ e' es₂ hes
  cases es₁ with
  | nil =>
    cases hes
    exact hhead
  | cons e₁ es₁ =>
    cases hes
    exact htail es₁ e' es₂ rfl

theorem atEvents_append : m.AtEvents E (es ++ es') ↔ m.AtEvents E es ∧ (m.follow es).AtEvents E es' := by
  induction es generalizing m with
  | nil => exact ⟨fun h => ⟨atEvents_nil, h⟩, And.right⟩
  | cons e es ih =>
    rw [List.cons_append, atEvents_cons, atEvents_cons, ih, ← and_assoc]
    rfl

end Machine

/-! ## Runs follow courses -/

/-- A course leads from the first machine to the second. -/
def Machine.LeadsTo (P : Machine χ σ → Request χ σ → Prop) (m m' : Machine χ σ) : Prop := ∃ es, Course P m es ∧ m.follow es = m'

theorem Machine.leadsTo_refl (m : Machine χ σ) : m.LeadsTo P m := ⟨[], trivial, rfl⟩

theorem Machine.LeadsTo.snoc (h : m.LeadsTo P m') {e : Event χ σ} (he : m'.Allows P e) : m.LeadsTo P (m'.after e) := by
  obtain ⟨es, hes, rfl⟩ := h
  exact ⟨es ++ [e], hes.snoc he, m.follow_append es [e]⟩

/-- Where courses lead to is kept by everything native code does. -/
theorem stable_leadsTo (m : Machine χ σ) : Stable (m.LeadsTo P) P where
  silent c m' r hr h hp := by
    have hstep := h.snoc (e := .ask r) ⟨hr, hp⟩
    rwa [Machine.after, Request.perform_eq_of_silent _ c hr] at hstep
  written _ call h := h.snoc (e := .write call) trivial
  lands _ target key v t h hp ht := h.snoc (e := .store t key v) ⟨target, hp, ht⟩
  swept _ h hc := h.snoc (e := .sweep) hc
  queue _ _ _ _ rest h := h.snoc (e := .queue rest) trivial
  finish _ _ _ _ s h := h.snoc (e := .finish s) trivial

variable {Γ : Host χ σ}

/-- A host may rely on anything that all machines of a run have anyway. -/
theorem Host.Lawful.of_reached {I J : Machine χ σ → Prop} (hΓ : Γ.Lawful P I) (hI : ∀ m, Reached Γ P m → I m) : Γ.Lawful P J :=
  fun m f args function k hm _ hf hk => hΓ m f args function k hm (hI m hm) hf hk

/-- Calls in a run follow courses. -/
theorem call_leadsTo {J : Machine χ σ → Prop} (hread : ∀ m v key, P m (.index v key)) (hΓ : Γ.Lawful P J)
    (hJ : ∀ m, Reached Γ P m → J m) (m : Machine χ σ) (f : Value) (args : List Value) :
    Action.Agree (Reached Γ P) (m.LeadsTo P) (call Γ f args) (call Γ f args) :=
  call_keeps (stable_leadsTo m) (visited_reached hread) (hΓ.of_reached hJ)
    (fun _ f args function hr h hf => ⟨hr.enter hf, h.snoc (e := .enter f args) ⟨function, hf⟩⟩)
    (fun _ height h => h.snoc (e := .leave height) trivial) f args

/-- Requests that call nothing and sweeps lead from one machine of a run to another. -/
theorem Reached.follow (hm : Reached Γ P m) (hes : Course P m es) (hask : ∀ e ∈ es, (∃ r, e = .ask r) ∨ e = .sweep) :
    Reached Γ P (m.follow es) := by
  induction es generalizing m with
  | nil => exact hm
  | cons e es ih =>
    rw [List.forall_mem_cons] at hask
    refine ih ?_ hes.2 hask.2
    rcases hask.1 with ⟨r, rfl⟩ | rfl
    · rw [Machine.after, r.perform_eq_of_silent _ (call Γ) hes.1.1]
      exact hm.request r hes.1.2
    · exact hm.swept hes.1

/-- A program in a run follows a course. -/
theorem Prog.exists_course {J : Machine χ σ → Prop} (hread : ∀ m v key, P m (.index v key)) (hΓ : Γ.Lawful P J)
    (hJ : ∀ m, Reached Γ P m → J m) (p : Prog χ σ α) (hm : Reached Γ P m) (hp : p.Obeys P (call Γ) m) :
    ∃ es, Course P m es ∧ m.follow es = (p.exec Γ m).2 :=
  ((stable_leadsTo m).run (visited_reached hread) (call_leadsTo hread hΓ hJ m) p hm m.leadsTo_refl hp).2

/-- Every machine of a run is where a course from a new machine leads to. -/
theorem Reached.exists_course {J : Machine χ σ → Prop} (hread : ∀ m v key, P m (.index v key)) (hΓ : Γ.Lawful P J)
    (hJ : ∀ m, Reached Γ P m → J m) (hm : Reached Γ P m) :
    ∃ limits host es, Course P (.start limits host) es ∧ (Machine.start limits host).follow es = m := by
  induction hm with
  | start limits host => exact ⟨limits, host, [], trivial, rfl⟩
  | @request m hm r hr ih =>
    obtain ⟨limits, host, h⟩ := ih
    exact ⟨limits, host, ((stable_leadsTo _).perform (visited_reached hread) (call_leadsTo hread hΓ hJ _) hm h hr).2⟩
  | enter _ hf ih =>
    obtain ⟨limits, host, h⟩ := ih
    exact ⟨limits, host, Machine.LeadsTo.snoc h (e := .enter _ _) ⟨_, hf⟩⟩
  | swept _ hc ih =>
    obtain ⟨limits, host, h⟩ := ih
    exact ⟨limits, host, Machine.LeadsTo.snoc h (e := .sweep) hc⟩
  | @turn m t hm hc ht ih =>
    obtain ⟨limits, host, h⟩ := ih
    have hswept : (Machine.start limits host).LeadsTo P m.swept := Machine.LeadsTo.snoc h (e := .sweep) hc
    obtain ⟨-, -, hturns⟩ := Action.agree_finalizeAll (call_leadsTo hread hΓ hJ _)
      (fun _ rest h => h.snoc (e := .queue rest) trivial) m.swept.pending m.swept
      ((visited_reached hread).turn m hm hc) hswept
    exact ⟨limits, host, (hturns t ht).1⟩

end ScriptHost

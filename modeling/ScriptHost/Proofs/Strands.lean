import ScriptHost.Proofs.Chronicle

/-!
# What a moment makes, strung together

The moments that a moment makes begin one after the other, each when the one before it is over (`Strung`). What lies between two of
them is little: a raw write at the end of a chain, an attribute that the code of a class writes, the queue of finalizers that moves
on. A relation between machines that allows these (`Tie`) links the parts of every moment that neither enters a function nor sweeps
nor asks for something that calls nothing (`strung_request`, `strung_body`, `strung_finalizers`), and in these three cases there is
at most one part.
-/

namespace ScriptHost

variable {χ σ α : Type} {Γ : Host χ σ} {L : Machine χ σ → Machine χ σ → Prop} {m m' m'' : Machine χ σ} {N : Moment χ σ}
  {Ns : List (Moment χ σ)}

/-- From the first machine to the second the moments follow each other, each going on to its end, with links between them. -/
inductive Strung (L : Machine χ σ → Machine χ σ → Prop) (Γ : Host χ σ) : Machine χ σ → List (Moment χ σ) → Machine χ σ → Prop where
  | nil {m m' : Machine χ σ} (h : L m m') : Strung L Γ m [] m'
  | cons {m m' : Machine χ σ} {N : Moment χ σ} {Ns : List (Moment χ σ)} (h : L m N.before)
      (rest : Strung L Γ (N.after Γ) Ns m') : Strung L Γ m (N :: Ns) m'

/-- The relation allows what lies between the parts of a moment. -/
structure Tie (L : Machine χ σ → Machine χ σ → Prop) : Prop where
  refl : ∀ m, L m m
  trans : ∀ {m m' m''}, L m m' → L m' m'' → L m m''
  stored : ∀ m t key v, L m (Action.rawSet t key v m).2
  queued : ∀ m rest, m.collecting = true → L m (m.queue rest)

/-- Writing an attribute is a raw write, if it is anything. -/
theorem Attribute.write_cases (c : Call) (m : Machine χ σ) :
    (write c m).2 = m ∨ ∃ t key v, (write c m).2 = (Action.rawSet t key v m).2 := by
  show (Action.bind (Action.query fun m => shadow? m (c.arg 1)) _ m).2 = m ∨ ∃ t key v,
    (Action.bind (Action.query fun m => shadow? m (c.arg 1)) _ m).2 = _
  rw [Action.query_bind]
  rcases shadow? m (c.arg 1) with e | _ | shadow
  · exact Or.inl rfl
  · exact Or.inl rfl
  · exact Or.inr ⟨shadow, c.arg 2, c.arg 3, Action.answer_snd (Action.rawSet shadow (c.arg 2) (c.arg 3)) (fun _ => []) m⟩

theorem Tie.written (hL : Tie L) (m : Machine χ σ) (c : Call) : L m (Attribute.write c m).2 := by
  rcases Attribute.write_cases c m with h | ⟨t, key, v, h⟩
  · rw [h]
    exact hL.refl m
  · rw [h]
    exact hL.stored m t key v

namespace Strung

theorem single (h : L m N.before) (h' : L (N.after Γ) m') : Strung L Γ m [N] m' := .cons h (.nil h')

theorem of_link (hL : Tie L) (h : L m m') (h' : Strung L Γ m' Ns m'') : Strung L Γ m Ns m'' := by
  cases h' with
  | nil hr => exact .nil (hL.trans h hr)
  | cons hr rest => exact .cons (hL.trans h hr) rest

/-- What links the parts and holds over each of them holds over all of them, and up to each of them. -/
theorem keep {K : Machine χ σ → Machine χ σ → Prop} (h : Strung L Γ m Ns m') (htrans : ∀ {m m' m''}, K m m' → K m' m'' → K m m'')
    (hL : ∀ {m m'}, L m m' → K m m') (hNs : ∀ N ∈ Ns, K N.before (N.after Γ)) : K m m' ∧ ∀ N ∈ Ns, K m N.before := by
  induction h with
  | nil h => exact ⟨hL h, fun _ hN => absurd hN List.not_mem_nil⟩
  | cons h _ ih =>
    obtain ⟨hN, hrest⟩ := List.forall_mem_cons.1 hNs
    have hnext := htrans (hL h) hN
    obtain ⟨hend, hall⟩ := ih hrest
    exact ⟨htrans hnext hend, List.forall_mem_cons.2 ⟨hL h, fun N hN => htrans hnext (hall N hN)⟩⟩

/-- What leads to one of the parts: the parts before it. -/
theorem split {l l' : List (Moment χ σ)} (h : Strung L Γ m (l ++ N :: l') m') : Strung L Γ m l N.before := by
  induction l generalizing m with
  | nil =>
    cases h with
    | cons hN _ => exact .nil hN
  | cons _ l ih =>
    cases h with
    | cons hM rest => exact .cons hM (ih rest)

end Strung

/-! ## Programs, searches and queues -/

/-- What a program asks follows each other until it is over. -/
theorem strung_asked (hL : Tie L) (Γ : Host χ σ) (p : Prog χ σ α) (m : Machine χ σ) :
    Strung L Γ m ((p.asked (call Γ) m).map fun e => .request e.1 e.2) (p.run (call Γ) m).2 := by
  induction p generalizing m with
  | done a => exact .nil (hL.refl m)
  | fail e => exact .nil (hL.refl m)
  | ask r next ih => exact .cons (hL.refl m) (ih _ _)

/-- A search looks at one base after the other. -/
theorem strung_searched (hL : Tie L) (Γ : Host χ σ) (key : Value) (bases : List Value) (m : Machine χ σ) :
    Strung L Γ m ((Attribute.searched (call Γ) key bases m).map fun e => .request (.index (.table e.1) key) e.2)
      (Attribute.inBases (call Γ) key bases m).2 := by
  induction bases generalizing m with
  | nil => exact .nil (hL.refl m)
  | cons v bases ih =>
    cases v with
    | table t =>
      refine .cons (hL.refl m) ?_
      show Strung L Γ (Action.index (call Γ) (.table t) key m).2 _
        (Action.bind (Action.index (call Γ) (.table t) key) _ m).2
      unfold Action.bind
      rcases Action.index (call Γ) (.table t) key m with ⟨e | found, next⟩
      · exact .nil (hL.refl next)
      · by_cases hn : found.isNil = true
        · simp only [hn, if_true]
          exact ih next
        · simp only [hn]
          exact .nil (hL.refl next)
    | _ => exact ih m

/-- A class that has nothing under a key looks at its bases. -/
theorem strung_below (hL : Tie L) (Γ : Host χ σ) (key : Value) (values : List Value) (m : Machine χ σ) :
    Strung L Γ m ((Attribute.below (call Γ) key values m).map fun e => .request (.index (.table e.1) key) e.2)
      (Attribute.inHierarchy (call Γ) key values m).2 := by
  cases values with
  | nil => exact .nil (hL.refl m)
  | cons cls bases =>
    show Strung L Γ m _ (Action.bind (Action.query fun m => Attribute.inClass m key cls) _ m).2
    rw [Action.query_bind]
    cases hfound : Attribute.inClass m key cls with
    | error e =>
      simp only [Attribute.below, hfound]
      exact .nil (hL.refl m)
    | ok found =>
      simp only [Attribute.below, hfound]
      by_cases hn : found.isNil = true
      · simp only [hn, if_true]
        exact strung_searched hL Γ key bases m
      · simp only [hn]
        exact .nil (hL.refl m)

/-- A reader looks at the class and its bases if the shadow of the receiver has nothing. -/
theorem strung_lookedAt (hL : Tie L) (Γ : Host χ σ) (c : Call) (m : Machine χ σ) :
    Strung L Γ m ((Attribute.lookedAt (call Γ) c m).map fun e => .request (.index (.table e.1) (c.arg 2)) e.2)
      (Attribute.read (call Γ) c m).2 := by
  show Strung L Γ m _ (Action.bind (Action.query fun m => Attribute.inShadow m (c.arg 1) (c.arg 2)) _ m).2
  rw [Action.query_bind]
  unfold Attribute.lookedAt
  cases Attribute.inShadow m (c.arg 1) (c.arg 2) with
  | error e => exact .nil (hL.refl m)
  | ok own =>
    by_cases hn : own.isNil = true
    · simp only [hn, if_true]
      rw [Action.answer_snd]
      exact strung_below hL Γ (c.arg 2) c.upvalues m
    · simp only [hn]
      exact .nil (hL.refl m)

/-- The finalizers of a queue are called one after the other, while a collection is under way. -/
theorem strung_turns (hL : Tie L) (Γ : Host χ σ) (refs : List Ref) {m : Machine χ σ} (hc : m.collecting = true) :
    Strung L Γ m ((turns (call Γ) refs m).filterMap fun t =>
        t.finalizer?.map fun f => .call f [.userdata t.subject] t.machine) (Action.finalizeAll (call Γ) refs m).2 := by
  induction refs generalizing m with
  | nil => exact .nil (hL.refl m)
  | cons r rest ih =>
    have hqueue := hL.queued m rest hc
    rw [turns]
    cases hf : (m.queue rest).finalizer? r with
    | none =>
      rw [finalizeAll_skip hf, List.filterMap_cons_none (by simp [Turn.finalizer?, hf])]
      have hafter : Turn.after (call Γ) ⟨r, m.queue rest⟩ = m.queue rest := by simp [Turn.after, Turn.finalizer?, hf]
      rw [hafter]
      exact .of_link hL hqueue (ih hc)
    | some f =>
      have hcollecting : (call Γ f [.userdata r] (m.queue rest)).2.collecting = true :=
        (congrArg Machine.Frame.collecting (call_frame_eq Γ f [.userdata r] (m := m.queue rest) hc)).trans hc
      have hafter : Turn.after (call Γ) ⟨r, m.queue rest⟩ = (call Γ f [.userdata r] (m.queue rest)).2 := by
        simp [Turn.after, Turn.finalizer?, hf]
      rw [finalizeAll_call hf, List.filterMap_cons_some (b := .call f [.userdata r] (m.queue rest)) (by simp [Turn.finalizer?, hf]),
        hafter]
      exact .cons hqueue (ih hcollecting)

/-! ## Kinds of moments -/

namespace Moment

/-- A request that may call functions, unless it is a collection that sweeps. -/
theorem strung_request (hL : Tie L) (Γ : Host χ σ) {r : Request χ σ} {m : Machine χ σ} (hr : ¬r.IsSilent)
    (hc : r = .collect → m.collecting = true) : Strung L Γ m ((request r m).parts Γ) ((request r m).after Γ) := by
  cases r with
  | index v key =>
    show Strung L Γ m ((m.readEnters v key).map fun e => call e.1 [e.2, key] m).toList
      (Action.index (ScriptHost.call Γ) v key m).2
    rw [Action.index_snd]
    cases m.readEnters v key with
    | none => exact .nil (hL.refl m)
    | some e => exact .single (hL.refl m) (hL.refl _)
  | setIndex target key v =>
    show Strung L Γ m ((m.writeEnters target key).map fun e => call e.1 [e.2, key, v] m).toList
      (Action.setIndex (ScriptHost.call Γ) target key v m).2
    rw [Action.setIndex_snd]
    cases m.writeEnters target key with
    | none =>
      refine .nil ?_
      cases m.landsOn key m.limits.maxIndexChain target with
      | none => exact hL.refl m
      | some t => exact hL.stored m t key v
    | some e => exact .single (hL.refl m) (hL.refl _)
  | call f args => exact .single (hL.refl m) (hL.refl _)
  | callMethod v name args =>
    show Strung L Γ m _ (Action.callMethod (ScriptHost.call Γ) v name args m).2
    rw [Action.callMethod_eq]
    refine .cons (hL.refl m) ?_
    show Strung L Γ (Action.index (ScriptHost.call Γ) v (.string name) m).2 _ _
    rcases Action.index (ScriptHost.call Γ) v (.string name) m with ⟨e | method, m'⟩
    · exact .nil (hL.refl m')
    · by_cases hn : method.isNil = true
      · simp only [hn, if_true]
        exact .nil (hL.refl m')
      · simp only [hn]
        exact .single (hL.refl m') (hL.refl _)
  | isKindOf v name =>
    show Strung L Γ m _ (Action.isKindOf (ScriptHost.call Γ) v name m).2
    rw [Action.isKindOf_eq]
    simp only [parts]
    cases m.metafield v Registry.readName with
    | error e =>
      cases (m.identity? v).isNone <;> exact .nil (hL.refl m)
    | ok reader =>
      cases m.identity? v with
      | none => exact .nil (hL.refl m)
      | some a =>
        cases hn : reader.isNil with
        | true =>
          simp only [hn, Bool.true_eq_false, and_false, if_false, Option.isNone_some, Bool.false_eq_true, if_true]
          exact .nil (hL.refl m)
        | false =>
          simp only [hn, Option.isSome_some, and_self, if_true, Option.isNone_some, Bool.false_eq_true, if_false]
          refine .single (hL.refl m) ?_
          show L (Action.index (ScriptHost.call Γ) v (.string name) m).2
            ((do return (← Action.index (ScriptHost.call Γ) v (.string name)) == .boolean true : Action χ σ Bool) m).2
          rw [Action.answer_snd]
          exact hL.refl _
  | collect =>
    have hcoll := hc rfl
    show Strung L Γ m (if m.collecting then [] else [finalizers m.swept]) (Action.collect (ScriptHost.call Γ) m).2
    rw [collect_of_collecting hcoll, if_pos hcoll]
    exact .nil (hL.refl m)
  | _ => exact absurd trivial hr

/-- The body of a function. -/
theorem strung_body (hL : Tie L) (Γ : Host χ σ) (code : Code χ) (c : Call) (m : Machine χ σ) :
    Strung L Γ m ((body code c m).parts Γ) ((body code c m).after Γ) := by
  cases code with
  | readAttribute => exact strung_lookedAt hL Γ c m
  | writeAttribute => exact .nil (hL.written m c)
  | finalizeHandle =>
    show Strung L Γ m ((Attribute.finalizer? c m).map fun f => call (.function f) [c.arg 1] m).toList
      (Attribute.finalize (ScriptHost.call Γ) c m).2
    rw [Attribute.finalize_snd]
    cases Attribute.finalizer? c m with
    | none => exact .nil (hL.refl m)
    | some f => exact .single (hL.refl m) (hL.refl _)
  | host k => exact strung_asked hL Γ (Γ k c) m

/-- The finalizers of a collection that is under way. -/
theorem strung_finalizers (hL : Tie L) (Γ : Host χ σ) {m : Machine χ σ} (hc : m.collecting = true) :
    Strung L Γ m ((finalizers m).parts Γ) ((finalizers m).after Γ) :=
  strung_turns hL Γ m.pending hc

end Moment

end ScriptHost

import ScriptHost.Proofs.Moments
import ScriptHost.Proofs.Safe

/-!
# What a moment needs and what it leaves

An operation uses references it was handed after something else ran and let go of them in two places (`Moment.Late`): a method is
called after it was looked up, with a receiver and arguments that nothing kept meanwhile; and a class that looks at its bases one
after the other goes on with a key that may be gone. Where these calls find their arguments alive, a moment that has what it needs
(`Moment.Ready`) leaves a sound machine, and the moments it makes have what they need (`Moment.Passed`). This goes through kind by
kind of moment, and by induction on the rank of moments through a whole run (`Moment.passed_of_ready`).
-/

namespace ScriptHost

variable {χ σ α : Type}

/-! ## What is let in late -/

/-- The request is handed live references. -/
def Machine.Passes (m : Machine χ σ) (r : Request χ σ) : Prop := m.Live r.refs

instance (m : Machine χ σ) (r : Request χ σ) : Decidable (m.Passes r) := List.decidableBAll _ _

/-- Native code hands over live references only: the program at the top does, and the body of every function that runs. -/
structure Careful (Γ : Host χ σ) (p : Prog χ σ α) (m : Machine χ σ) : Prop where
  top : p.Obeys Machine.Passes (call Γ) m
  bodies : ∀ k c m', Happens Γ p m (.body (.host k) c m') → (Γ k c).Obeys Machine.Passes (call Γ) m'

/-- A call that a moment makes with references it was handed before something else ran: that of a method, after it was looked up,
and that of the function which a base of a class leads to. -/
inductive Moment.Late (Γ : Host χ σ) : Moment χ σ → Value → List Value → Machine χ σ → Prop where
  | method {v method : Value} {name : String} {args : List Value} {m m' : Machine χ σ}
      (h : Action.index (ScriptHost.call Γ) v (.string name) m = (.ok method, m')) (hn : method.isNil = false) :
      Late Γ (request (.callMethod v name args) m) method (v :: args) m'
  | base {c : Call} {m m' : Machine χ σ} {b : Ref} {f object : Value}
      (h : Attribute.LooksAt (ScriptHost.call Γ) c m b m') (hf : m'.readEnters (.table b) (c.arg 2) = some (f, object)) :
      Late Γ (body .readAttribute c m) f [object, c.arg 2] m'

/-- A late call is made within its moment. -/
theorem Moment.Late.within {Γ : Host χ σ} {M : Moment χ σ} {f : Value} {args : List Value} {m : Machine χ σ}
    (h : M.Late Γ f args m) : M.Within Γ (.call f args m) := by
  cases h with
  | method h hn => exact .single (.method h hn)
  | base h hf => exact (Relation.ReflTransGen.single (.base h)).tail (.read hf)

/-! ## What a moment needs -/

namespace Machine

variable {m : Machine χ σ}

/-- A value whose metatable has something is there. -/
theorem live_of_handlerHop {v : Value} (name : String) {hop : Hop} (h : m.handlerHop v name = .ok hop) : m.Live v.refs := by
  unfold handlerHop at h
  cases v with
  | table r =>
    cases hT : m.heap.table r with
    | error e => simp [metafield, metatable, hT] at h
    | ok T => simpa [Value.refs, Value.ref?] using Heap.contains_of_object? (Heap.table_eq_ok_iff.1 hT)
  | userdata r =>
    cases hu : m.heap.userdata r with
    | error e => simp [metafield, metatable, hu] at h
    | ok u => simpa [Value.refs, Value.ref?] using Heap.contains_of_object? (Heap.userdata_eq_ok_iff.1 hu)
  | function r => simp [metafield, metatable, Value.isNil] at h
  | _ => exact live_nil

theorem live_of_rawGet {t : Ref} {k v : Value} (h : m.rawGet t k = .ok v) : m.Live (Value.table t).refs := by
  unfold rawGet at h
  cases hT : m.heap.table t with
  | error e => simp [hT] at h
  | ok T => simpa [Value.refs, Value.ref?] using Heap.contains_of_object? (Heap.table_eq_ok_iff.1 hT)

/-- A read or a write that comes to a value finds it. -/
theorem live_of_readHop {v key : Value} {hop : Hop} (h : m.readHop v key = .ok hop) : m.Live v.refs := by
  cases v with
  | table t =>
    cases hget : m.rawGet t key with
    | error e => simp [readHop, hget] at h
    | ok found => exact live_of_rawGet hget
  | _ => exact live_of_handlerHop "__index" h

theorem live_of_writeHop {v key : Value} {hop : Hop} (h : m.writeHop v key = .ok hop) : m.Live v.refs := by
  cases v with
  | table t =>
    cases hget : m.rawGet t key with
    | error e => simp [writeHop, hget] at h
    | ok found => exact live_of_rawGet hget
  | _ => exact live_of_handlerHop "__newindex" h

theorem live_of_readEnters {v key f object : Value} (h : m.readEnters v key = some (f, object)) : m.Live object.refs :=
  live_of_readHop (hop_of_enters (fun current => m.readHop current key) h)

theorem live_of_writeEnters {v key f object : Value} (h : m.writeEnters v key = some (f, object)) : m.Live object.refs :=
  live_of_writeHop (hop_of_enters (fun current => m.writeHop current key) h)

/-- A function that is called is there. -/
theorem live_of_callee {f : Value} {args : List Value} {function : NativeFunction χ} (h : m.callee f args = .ok function) :
    m.Live f.refs := by
  unfold callee at h
  split at h
  · split at h
    · cases h
    · simpa [Value.refs, Value.ref?] using Heap.contains_of_object? (Heap.function_eq_ok_iff.1 h)
  · cases h

end Machine

namespace Moment

/-- What a moment needs to leave a sound machine: a sound machine to begin with, and live references wherever they may end up on
the stack. -/
def Ready : Moment χ σ → Prop
  | request (.index v key) m => m.Sound ∧ ∀ f object function, m.readEnters v key = some (f, object) →
      m.callee f [object, key] = .ok function → m.Live key.refs
  | request r m => m.Sound ∧ m.Live r.refs
  | call f args m => m.Sound ∧ ∀ function, m.callee f args = .ok function → m.Live (args.flatMap Value.refs)
  | body _ c m => m.Sound ∧ m.Live (c.args.flatMap Value.refs)
  | finalizers m => m.Sound ∧ m.collecting = true

theorem Ready.sound {M : Moment χ σ} (h : M.Ready) : M.before.Sound := by
  cases M with
  | request r m => cases r <;> exact h.1
  | call f args m => exact h.1
  | body code c m => exact h.1
  | finalizers m => exact h.1

/-- A request that is handed live references is ready. -/
theorem ready_request {r : Request χ σ} {m : Machine χ σ} (hm : m.Sound) (hr : m.Passes r) : (request r m).Ready := by
  cases r with
  | index v key => exact ⟨hm, fun _ _ _ _ _ => (Machine.live_append.1 hr).2⟩
  | _ => exact ⟨hm, hr⟩

variable {Γ : Host χ σ}

/-- A moment that is ready leaves a sound machine, and the moments it makes are ready. -/
def Passed (Γ : Host χ σ) (M : Moment χ σ) : Prop := (M.after Γ).Sound ∧ ∀ N, M.Makes Γ N → N.Ready

/-- The moments that a moment makes leave sound machines if they are ready. -/
def Below (Γ : Host χ σ) (M : Moment χ σ) : Prop := ∀ N, M.Makes Γ N → N.Ready → (N.after Γ).Sound

/-! ## Requests -/

theorem passed_index {v key : Value} {m : Machine χ σ} (h : (request (.index v key) m).Ready)
    (ih : (request (.index v key) m).Below Γ) : (request (.index v key) m).Passed Γ := by
  obtain ⟨hm, hkey⟩ := h
  have hcall : ∀ f object, m.readEnters v key = some (f, object) → (call f [object, key] m).Ready := by
    intro f object hf
    refine ⟨hm, fun function hfunction => ?_⟩
    simp only [List.flatMap_cons, List.flatMap_nil, Machine.live_append]
    exact ⟨Machine.live_of_readEnters hf, hkey f object function hf hfunction, Machine.live_nil⟩
  constructor
  · show (Action.index (ScriptHost.call Γ) v key m).2.Sound
    rw [Action.index_snd]
    split
    · rename_i f object hf
      exact ih _ (.read hf) (hcall f object hf)
    · exact hm
  · intro N hN
    cases hN with
    | read hf => exact hcall _ _ hf

theorem passed_setIndex {target key v : Value} {m : Machine χ σ} (hm : m.Sound)
    (hr : m.Passes (.setIndex target key v)) (ih : (request (.setIndex target key v) m).Below Γ) :
    (request (.setIndex target key v) m).Passed Γ := by
  have hlive : m.Live (key.refs ++ v.refs) := by
    simp only [Machine.Passes, Request.refs, Machine.live_append] at hr ⊢
    exact ⟨hr.1.2, hr.2⟩
  have hcall : ∀ f object, m.writeEnters target key = some (f, object) → (call f [object, key, v] m).Ready := by
    intro f object hf
    refine ⟨hm, fun function _ => ?_⟩
    simp only [List.flatMap_cons, List.flatMap_nil, List.append_nil, Machine.live_append]
    exact ⟨Machine.live_of_writeEnters hf, Machine.live_append.1 hlive⟩
  constructor
  · show (Action.setIndex (ScriptHost.call Γ) target key v m).2.Sound
    rw [Action.setIndex_snd]
    split
    · rename_i f object hf
      exact ih _ (.write hf) (hcall f object hf)
    · split
      · rename_i t _
        have hset : Action.Safe (fun _ => False) (key.refs ++ v.refs) (Action.rawSet t key v : Action χ σ Unit) (fun _ => []) :=
          Action.safe_rawSet t (List.subset_append_left _ _) (List.subset_append_right _ _)
        exact hset.sound hm hlive
      · exact hm
  · intro N hN
    cases hN with
    | write hf => exact hcall _ _ hf

/-- A lookup by name leaves a sound machine if the moment below it does. -/
theorem sound_lookup {v : Value} {name : String} {m : Machine χ σ} (hm : m.Sound)
    (ih : (request (.index v (.string name)) m).Ready → ((request (.index v (.string name)) m).after Γ).Sound) :
    (request (.index v (.string name)) m).Ready ∧ (Action.index (ScriptHost.call Γ) v (.string name) m).2.Sound := by
  have hready : (request (.index v (.string name)) m : Moment χ σ).Ready := ⟨hm, fun _ _ _ _ _ => Machine.live_nil⟩
  exact ⟨hready, ih hready⟩

theorem passed_callMethod {v : Value} {name : String} {args : List Value} {m : Machine χ σ} (hm : m.Sound)
    (hlate : ∀ f args' m' function, (request (.callMethod v name args) m).Late Γ f args' m' → m'.callee f args' = .ok function →
      m'.Live (args'.flatMap Value.refs))
    (ih : (request (.callMethod v name args) m).Below Γ) : (request (.callMethod v name args) m).Passed Γ := by
  obtain ⟨hready, hsound⟩ := sound_lookup hm (ih _ (.lookup v name args m))
  have hmethod : ∀ method m', Action.index (ScriptHost.call Γ) v (.string name) m = (.ok method, m') → method.isNil = false →
      (call method (v :: args) m').Ready := by
    intro method m' h hn
    rw [h] at hsound
    exact ⟨hsound, fun function hf => hlate _ _ _ function (.method h hn) hf⟩
  constructor
  · show (Action.callMethod (ScriptHost.call Γ) v name args m).2.Sound
    rw [Action.callMethod_eq]
    split
    · rename_i e m' h
      rwa [h] at hsound
    · rename_i method m' h
      split
      · rwa [h] at hsound
      · rename_i hn
        rw [Bool.not_eq_true] at hn
        exact ih _ (.method h hn) (hmethod method m' h hn)
  · intro N hN
    cases hN with
    | lookup => exact hready
    | method h hn => exact hmethod _ _ h hn

theorem passed_isKindOf {v : Value} {name : String} {m : Machine χ σ} (hm : m.Sound)
    (ih : (request (.isKindOf v name) m).Below Γ) : (request (.isKindOf v name) m).Passed Γ := by
  constructor
  · show (Action.isKindOf (ScriptHost.call Γ) v name m).2.Sound
    rw [Action.isKindOf_eq]
    split
    · exact hm
    · rename_i hv
      split
      · exact hm
      · rename_i reader hr
        split
        · exact hm
        · rename_i hn
          rw [Bool.not_eq_true] at hn
          rw [Action.answer_snd]
          have hmarker : Makes Γ (request (.isKindOf v name) m) (request (.index v (.string name)) m) :=
            .marker (by simpa [Option.isSome_iff_ne_none] using hv) hr hn
          exact (sound_lookup hm (ih _ hmarker)).2
  · intro N hN
    cases hN with
    | marker hv hr hn => exact (sound_lookup hm (ih _ (.marker hv hr hn))).1

theorem passed_collect {m : Machine χ σ} (hm : m.Sound) (ih : (request .collect m).Below Γ) :
    (request .collect m).Passed Γ := by
  have hready : (finalizers m.swept : Moment χ σ).Ready := ⟨hm.swept, rfl⟩
  constructor
  · show (Action.collect (ScriptHost.call Γ) m).2.Sound
    cases hc : m.collecting with
    | true =>
      rw [collect_of_collecting hc]
      exact hm
    | false =>
      rw [collect_eq hc]
      exact (ih _ (.sweep hc) hready).finish _
  · intro N hN
    cases hN with
    | sweep hc => exact hready

/-- A request passes if its late calls find their arguments alive. -/
theorem passed_request {r : Request χ σ} {m : Machine χ σ} (h : (request r m).Ready)
    (hlate : ∀ f args m' function, (request r m).Late Γ f args m' → m'.callee f args = .ok function →
      m'.Live (args.flatMap Value.refs))
    (ih : (request r m).Below Γ) : (request r m).Passed Γ := by
  have hsilent : r.IsSilent → m.Live r.refs → (∀ N, ¬(request r m).Makes Γ N) → (request r m).Passed Γ := by
    intro hs hr hnone
    exact ⟨(Request.safe_perform (ScriptHost.call Γ) hs).sound h.sound hr, fun N hN => absurd hN (hnone N)⟩
  cases r with
  | index v key => exact passed_index h ih
  | setIndex target key v => exact passed_setIndex h.1 h.2 ih
  | call f args =>
    have hcall : (Moment.call f args m).Ready := ⟨h.1, fun _ _ => (Machine.live_append.1 h.2).2⟩
    exact ⟨ih (Moment.call f args m) (.call f args m) hcall, fun N hN => by cases hN; exact hcall⟩
  | callMethod v name args => exact passed_callMethod h.1 hlate ih
  | collect => exact passed_collect h.1 ih
  | isKindOf v name => exact passed_isKindOf h.1 ih
  | _ => exact hsilent trivial h.2 fun N hN => nomatch hN

/-! ## Calls, bodies and finalizers -/

theorem passed_call {f : Value} {args : List Value} {m : Machine χ σ} (h : (call f args m).Ready)
    (ih : (call f args m).Below Γ) : (call f args m).Passed Γ := by
  obtain ⟨hm, hargs⟩ := h
  have hbody : ∀ function, m.callee f args = .ok function →
      (body function.code ⟨args, function.upvalues⟩ (m.enter f args)).Ready :=
    fun function hf => ⟨hm.enter (Machine.live_of_callee hf) (hargs function hf), hargs function hf⟩
  constructor
  · show (ScriptHost.call Γ f args m).2.Sound
    rw [call_eq]
    unfold callWith
    cases hf : m.callee f args with
    | error e => exact hm
    | ok function => exact Machine.Sound.leave (ih _ (.enter hf) (hbody function hf)) _
  · intro N hN
    cases hN with
    | enter hf => exact hbody _ hf

/-- A program that hands over live references leaves a sound machine, and its requests are ready. -/
theorem passed_run (p : Prog χ σ α) {m : Machine χ σ} (hm : m.Sound) (hp : p.Obeys Machine.Passes (ScriptHost.call Γ) m)
    (ih : ∀ r m', p.Asks (ScriptHost.call Γ) m r m' → (request r m').Ready → ((request r m').after Γ).Sound) :
    (p.run (ScriptHost.call Γ) m).2.Sound ∧ ∀ r m', p.Asks (ScriptHost.call Γ) m r m' → (request r m').Ready := by
  induction p generalizing m with
  | done a => exact ⟨hm, fun _ _ h => h.elim⟩
  | fail e => exact ⟨hm, fun _ _ h => h.elim⟩
  | ask r next ihp =>
    have hready := ready_request hm hp.1
    obtain ⟨hrun, hasks⟩ := ihp _ (ih r m (Or.inl ⟨rfl, rfl⟩) hready) hp.2 fun r' m' h => ih r' m' (Or.inr h)
    refine ⟨hrun, fun r' m' h => ?_⟩
    rcases h with ⟨rfl, rfl⟩ | h
    · exact hready
    · exact hasks r' m' h

/-- A search through bases leaves a sound machine if each look at a base does. -/
theorem sound_inBases {key : Value} (bases : List Value) {m : Machine χ σ} (hm : m.Sound)
    (ih : ∀ b m', Attribute.Searches (ScriptHost.call Γ) key bases m b m' → m'.Sound →
      (Action.index (ScriptHost.call Γ) (.table b) key m').2.Sound) :
    (Attribute.inBases (ScriptHost.call Γ) key bases m).2.Sound ∧
      ∀ b m', Attribute.Searches (ScriptHost.call Γ) key bases m b m' → m'.Sound := by
  induction bases generalizing m with
  | nil => exact ⟨hm, fun _ _ h => h.elim⟩
  | cons v bases ihb =>
    cases v with
    | table t =>
      have hindex := ih t m (Or.inl ⟨rfl, rfl⟩) hm
      show (Action.bind (Action.index (ScriptHost.call Γ) (.table t) key) _ m).2.Sound ∧ _
      unfold Action.bind
      cases h : Action.index (ScriptHost.call Γ) (.table t) key m with
      | mk result next =>
        rw [h] at hindex
        cases result with
        | error e =>
          refine ⟨hindex, fun b m' hs => ?_⟩
          rcases hs with ⟨-, rfl⟩ | ⟨found, next', h', -⟩
          · exact hm
          · rw [h] at h'
            cases h'
        | ok found =>
          by_cases hn : found.isNil = true
          · obtain ⟨hrest, hsearch⟩ := ihb hindex fun b m' hs => ih b m' (Or.inr ⟨found, next, h, hn, hs⟩)
            refine ⟨by simpa [hn] using hrest, fun b m' hs => ?_⟩
            rcases hs with ⟨-, rfl⟩ | ⟨found', next', h', -, hs⟩
            · exact hm
            · rw [h] at h'
              cases h'
              exact hsearch b m' hs
          · have hstop : (ite (found.isNil = true) (Attribute.inBases (ScriptHost.call Γ) key bases) (pure found) next).2 = next := by
              simp only [hn]
              rfl
            refine ⟨hstop.symm ▸ hindex, fun b m' hs => ?_⟩
            rcases hs with ⟨-, rfl⟩ | ⟨found', next', h', hn', -⟩
            · exact hm
            · rw [h] at h'
              cases h'
              exact absurd hn' hn
    | _ => exact ihb hm ih

/-- What a reader does to the machine is done by the search through its bases. -/
theorem read_snd (c : Caller χ σ) (call : Call) (m : Machine χ σ) :
    (Attribute.read c call m).2 = m ∨ ∃ bases, (Attribute.read c call m).2 = (Attribute.inBases c (call.arg 2) bases m).2 ∧
      ∀ b m', Attribute.Searches c (call.arg 2) bases m b m' → Attribute.LooksAt c call m b m' := by
  show (Action.bind (Action.query fun m => Attribute.inShadow m (call.arg 1) (call.arg 2)) _ m).2 = m ∨ ∃ bases,
    (Action.bind (Action.query fun m => Attribute.inShadow m (call.arg 1) (call.arg 2)) _ m).2 = _ ∧ _
  rw [Action.query_bind]
  cases hown : Attribute.inShadow m (call.arg 1) (call.arg 2) with
  | error e => exact Or.inl rfl
  | ok own =>
    by_cases hn : own.isNil = true
    · simp only [hn, ↓reduceIte]
      rw [Action.answer_snd]
      cases hup : call.upvalues with
      | nil => exact Or.inl rfl
      | cons cls bases =>
        show (Action.bind (Action.query fun m => Attribute.inClass m (call.arg 2) cls) _ m).2 = m ∨ ∃ bases,
          (Action.bind (Action.query fun m => Attribute.inClass m (call.arg 2) cls) _ m).2 = _ ∧ _
        rw [Action.query_bind]
        cases hfound : Attribute.inClass m (call.arg 2) cls with
        | error e => exact Or.inl rfl
        | ok found =>
          by_cases hn' : found.isNil = true
          · simp only [hn', ↓reduceIte]
            exact Or.inr ⟨bases, rfl, fun b m' h => ⟨own, cls, bases, found, hown, hn, hup, hfound, hn', h⟩⟩
          · simp only [hn']
            exact Or.inl rfl
    · simp only [hn]
      exact Or.inl rfl

theorem passed_read {c : Call} {m : Machine χ σ} (hm : m.Sound)
    (hlate : ∀ f args m' function, (body .readAttribute c m).Late Γ f args m' → m'.callee f args = .ok function →
      m'.Live (args.flatMap Value.refs))
    (ih : (body .readAttribute c m).Below Γ) : (body .readAttribute c m).Passed Γ := by
  have hready : ∀ b m', Attribute.LooksAt (ScriptHost.call Γ) c m b m' → m'.Sound →
      (request (.index (.table b) (c.arg 2)) m').Ready := by
    refine fun b m' h hm' => ⟨hm', fun f object function hf hfunction => ?_⟩
    have hlive := hlate f _ m' function (.base h hf) hfunction
    simp only [List.flatMap_cons, List.flatMap_nil, List.append_nil, Machine.live_append] at hlive
    exact hlive.2
  constructor
  · show (Attribute.read (ScriptHost.call Γ) c m).2.Sound
    rcases read_snd (ScriptHost.call Γ) c m with h | ⟨bases, h, hlooks⟩
    · rw [h]
      exact hm
    · rw [h]
      exact (sound_inBases bases hm fun b m' hs hm' => ih _ (.base (hlooks b m' hs)) (hready b m' (hlooks b m' hs) hm')).1
  · intro N hN
    cases hN with
    | @base _ _ m' b h =>
      obtain ⟨own, cls, bases, found, hown, hn, hup, hfound, hn', hs⟩ := id h
      have hlooks : ∀ b m', Attribute.Searches (ScriptHost.call Γ) (c.arg 2) bases m b m' →
          Attribute.LooksAt (ScriptHost.call Γ) c m b m' :=
        fun b m' hs => ⟨own, cls, bases, found, hown, hn, hup, hfound, hn', hs⟩
      have hsearch := (sound_inBases bases hm
        fun b m' hs hm' => ih _ (.base (hlooks b m' hs)) (hready b m' (hlooks b m' hs) hm')).2
      exact hready b m' h (hsearch b m' hs)

theorem passed_finalize {c : Call} {m : Machine χ σ} (h : (body .finalizeHandle c m).Ready)
    (ih : (body .finalizeHandle c m).Below Γ) : (body .finalizeHandle c m).Passed Γ := by
  obtain ⟨hm, hargs⟩ := h
  have hcall : ∀ f, (call (.function f) [c.arg 1] m).Ready := by
    refine fun f => ⟨hm, fun _ _ => ?_⟩
    simp only [List.flatMap_cons, List.flatMap_nil, List.append_nil]
    exact fun r hr => hargs r (c.refs_arg_subset 1 hr)
  constructor
  · show (Attribute.finalize (ScriptHost.call Γ) c m).2.Sound
    rw [Attribute.finalize_snd]
    cases hf : Attribute.finalizer? c m with
    | none => exact hm
    | some f => exact ih _ (.finalizer (Attribute.finalizer?_eq_some_iff.1 hf)) (hcall f)
  · intro N hN
    cases hN with
    | finalizer hf => exact hcall _

/-- Finalizers leave a sound machine, and each is called on one: nothing is freed meanwhile, so every userdata on the queue is
there when its turn comes. -/
theorem sound_turns (refs : List Ref) {m : Machine χ σ} (hm : m.Sound) (hc : m.collecting = true) (hq : m.pending = refs)
    (ih : ∀ t f, t ∈ turns (ScriptHost.call Γ) refs m → t.finalizer? = some f →
      (call f [.userdata t.subject] t.machine).Ready → (ScriptHost.call Γ f [.userdata t.subject] t.machine).2.Sound) :
    (Action.finalizeAll (ScriptHost.call Γ) refs m).2.Sound ∧
      ∀ t f, t ∈ turns (ScriptHost.call Γ) refs m → t.finalizer? = some f → (call f [.userdata t.subject] t.machine).Ready := by
  induction refs generalizing m with
  | nil => exact ⟨hm, fun _ _ h => nomatch h⟩
  | cons r rest ihr =>
    have hsub : rest ⊆ m.pending := hq ▸ List.subset_cons_self r rest
    have hqueue : (m.queue rest).Sound := hm.queue hsub
    have hready : ∀ f, (call f [.userdata r] (m.queue rest)).Ready := by
      refine fun f => ⟨hqueue, fun _ _ => ?_⟩
      have hr : m.heap.contains r = true := hm.intact.roots r (Or.inr (Or.inr (Or.inr (Or.inr (by simp [hq])))))
      exact Machine.live_cons.2 ⟨hr, Machine.live_nil⟩
    have hlater : ∀ m', Turn.after (ScriptHost.call Γ) ⟨r, m.queue rest⟩ = m' → m'.Sound → m'.collecting = true →
        m'.pending = rest → (Action.finalizeAll (ScriptHost.call Γ) rest m').2.Sound ∧
          ∀ t f, t ∈ turns (ScriptHost.call Γ) (r :: rest) m → t.finalizer? = some f →
            (call f [.userdata t.subject] t.machine).Ready := by
      rintro m' rfl hm' hc' hq'
      obtain ⟨hend, hturns⟩ := ihr hm' hc' hq' fun t f ht => ih t f (List.mem_cons_of_mem _ ht)
      refine ⟨hend, fun t f ht hf => ?_⟩
      rcases List.mem_cons.1 ht with rfl | ht
      · exact hready f
      · exact hturns t f ht hf
    cases hf : (m.queue rest).finalizer? r with
    | none =>
      rw [finalizeAll_skip hf]
      exact hlater _ (by simp only [Turn.after, Turn.finalizer?, hf]) hqueue hc rfl
    | some f =>
      have hcalled := ih ⟨r, m.queue rest⟩ f List.mem_cons_self hf (hready f)
      have hframe := call_frame_eq Γ f [.userdata r] (m := m.queue rest) hc
      rw [finalizeAll_call hf]
      exact hlater _ (by simp only [Turn.after, Turn.finalizer?, hf]) hcalled
        ((congrArg Machine.Frame.collecting hframe).trans hc) (congrArg Machine.Frame.pending hframe)

theorem passed_finalizers {m : Machine χ σ} (h : (finalizers m).Ready) (ih : (finalizers m).Below Γ) :
    (finalizers m).Passed Γ := by
  obtain ⟨hend, hturns⟩ := sound_turns m.pending h.1 h.2 rfl fun t f ht hf hready => ih _ (.turn ht hf) hready
  refine ⟨hend, fun N hN => ?_⟩
  cases hN with
  | turn ht hf => exact hturns _ _ ht hf

/-! ## All moments of a run -/

/-- In a careful run whose late calls find their arguments alive, a moment that is ready passes. -/
theorem passed_of_ready {p : Prog χ σ α} {m : Machine χ σ} (hcareful : Careful Γ p m)
    (hlate : ∀ M f args m' function, Happens Γ p m M → M.Late Γ f args m' → m'.callee f args = .ok function →
      m'.Live (args.flatMap Value.refs))
    (M : Moment χ σ) (hM : Happens Γ p m M) (hready : M.Ready) : M.Passed Γ := by
  induction hrank : M.rank using Nat.strongRecOn generalizing M with
  | ind rank ih =>
    subst hrank
    have hbelow : M.Below Γ := fun N hN hNready => (ih N.rank hN.rank_lt N (hM.makes hN) hNready rfl).1
    have hlate' := fun f args m' function => hlate M f args m' function hM
    cases M with
    | request r m' => exact passed_request hready hlate' hbelow
    | call f args m' => exact passed_call hready hbelow
    | finalizers m' => exact passed_finalizers hready hbelow
    | body code c m' =>
      cases code with
      | readAttribute => exact passed_read hready.1 hlate' hbelow
      | writeAttribute =>
        exact ⟨(Action.safe_writeAttribute c).sound hready.1 hready.2, fun N hN => nomatch hN⟩
      | finalizeHandle => exact passed_finalize hready hbelow
      | host k =>
        obtain ⟨hrun, hasks⟩ := passed_run (Γ k c) hready.1 (hcareful.bodies k c m' hM)
          fun r m'' h hr => hbelow _ (.ask h) hr
        refine ⟨hrun, fun N hN => ?_⟩
        cases hN with
        | ask h => exact hasks _ _ h

end Moment

end ScriptHost

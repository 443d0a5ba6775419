import ScriptHost.Proofs.During
import ScriptHost.Proofs.Writes

/-!
# The moments of a run

What goes on in a run, down to the calls inside of calls: requests of native code, calls, bodies of functions, and the finalizers
of collections (`Moment`). Each of them may make others (`Moment.Makes`), one rule for each way: a read or a write that comes to
a function calls it, a call that is let in runs a body, the body of native code asks its requests, and so on. A moment happens in
a run when it is made, directly or through others, by a request that the program at the top asks (`Happens`).

What a moment makes is less deep or simpler than the moment itself (`Moment.Makes.rank_lt`), so that facts about all moments of a
run are proved from what each of them makes.
-/

namespace ScriptHost

variable {χ σ α : Type}

/-! ## Where a chain comes to a function -/

namespace Machine

/-- The function that a chain of accesses comes to, with the object it is found at, if it comes to one. -/
def enters (hop : Value → Except Fault Hop) : Nat → Value → Option (Value × Value)
  | 0, _ => none
  | hops + 1, current =>
    match hop current with
    | .ok (.enter f) => some (f, current)
    | .ok (.next v) => enters hop hops v
    | _ => none

/-- The function that a read comes to. -/
def readEnters (m : Machine χ σ) (v key : Value) : Option (Value × Value) :=
  enters (fun current => m.readHop current key) m.limits.maxIndexChain v

/-- The function that a write comes to. -/
def writeEnters (m : Machine χ σ) (target key : Value) : Option (Value × Value) :=
  enters (fun current => m.writeHop current key) m.limits.maxIndexChain target

/-- The object at which a chain comes to a function makes the hop there. -/
theorem hop_of_enters (hop : Value → Except Fault Hop) {hops : Nat} {v f object : Value}
    (h : enters hop hops v = some (f, object)) : hop object = .ok (.enter f) := by
  induction hops generalizing v with
  | zero => cases h
  | succ hops ih =>
    unfold enters at h
    split at h
    · cases h
      assumption
    · exact ih h
    · cases h

/-- How many calls inside each other the limits leave. -/
def room (m : Machine χ σ) : Nat := m.limits.maxCallDepth - m.depth

end Machine

/-- What a read does to the machine is done by the function it comes to. -/
theorem Action.index_snd (c : Caller χ σ) (v key : Value) (m : Machine χ σ) :
    (Action.index c v key m).2 = match m.readEnters v key with
      | some (f, object) => (c f [object, key] m).2
      | none => m := by
  show (Action.readAlong c key m.limits.maxIndexChain v m).2 = _
  unfold Machine.readEnters
  generalize m.limits.maxIndexChain = hops
  induction hops generalizing v with
  | zero => rfl
  | succ hops ih =>
    rw [readAlong_succ]
    unfold Machine.enters
    cases m.readHop v key with
    | error e => rfl
    | ok hop =>
      cases hop with
      | stop w => rfl
      | enter f => exact Action.answer_snd _ _ m
      | next w => exact ih w

/-- What a write does to the machine is done by the function it comes to, or it is a raw write where the chain ends. -/
theorem Action.setIndex_snd (c : Caller χ σ) (target key v : Value) (m : Machine χ σ) :
    (Action.setIndex c target key v m).2 = match m.writeEnters target key with
      | some (f, object) => (c f [object, key, v] m).2
      | none =>
        match m.landsOn key m.limits.maxIndexChain target with
        | some t => (Action.rawSet t key v m).2
        | none => m := by
  show (Action.writeAlong c key v m.limits.maxIndexChain target m).2 = _
  unfold Machine.writeEnters
  generalize m.limits.maxIndexChain = hops
  induction hops generalizing target with
  | zero => rfl
  | succ hops ih =>
    rw [writeAlong_succ]
    unfold Machine.enters Machine.landsOn
    cases m.writeHop target key with
    | error e => rfl
    | ok hop =>
      cases hop with
      | stop w => cases w <;> rfl
      | enter f => exact Action.answer_snd _ _ m
      | next w => exact ih w

/-- A method is looked up, then called. -/
theorem Action.callMethod_eq (c : Caller χ σ) (v : Value) (name : String) (args : List Value) (m : Machine χ σ) :
    Action.callMethod c v name args m = match Action.index c v (.string name) m with
      | (.error e, m') => (.error e, m')
      | (.ok method, m') =>
        if method.isNil then (.error (.runtime ("method '" ++ name ++ "' is not defined")), m')
        else c method (v :: args) m' := by
  show Action.bind (Action.index c v (.string name)) _ m = _
  unfold Action.bind
  rcases Action.index c v (.string name) m with ⟨e | method, m'⟩
  · rfl
  · show (ite _ _ _ : Action χ σ (List Value)) m' = ite _ _ _
    by_cases hn : method.isNil = true
    · simp only [hn, ↓reduceIte]
      rfl
    · simp only [hn]
      rfl

/-- Only a handle whose class has a reader is looked up on. -/
theorem Action.isKindOf_eq (c : Caller χ σ) (v : Value) (name : String) (m : Machine χ σ) :
    Action.isKindOf c v name m =
      if (m.identity? v).isNone then (.ok false, m)
      else match m.metafield v Registry.readName with
        | .error e => (.error e, m)
        | .ok reader =>
          if reader.isNil then (.ok false, m)
          else (do return (← Action.index c v (.string name)) == .boolean true : Action χ σ Bool) m := by
  rw [Action.isKindOf, Action.bind_of_ok (Action.look_eq m)]
  split
  · rfl
  · show Action.bind (Action.query fun m => m.metafield v Registry.readName) _ m = _
    rw [Action.query_bind]
    cases m.metafield v Registry.readName with
    | error e => rfl
    | ok reader =>
      show (ite _ _ _ : Action χ σ Bool) m = ite _ _ _
      by_cases hn : reader.isNil = true
      · simp only [hn, ↓reduceIte]
        rfl
      · simp only [hn]
        rfl

/-! ## Requests of a program, bases of a search -/

/-- The requests that a program asks from a machine on, each with the machine it is asked on. -/
def Prog.Asks (c : Caller χ σ) : Prog χ σ α → Machine χ σ → Request χ σ → Machine χ σ → Prop
  | .done _, _, _, _ => False
  | .fail _, _, _, _ => False
  | .ask r next, m, r', m' => (r' = r ∧ m' = m) ∨ (next (r.perform c m).1).Asks c (r.perform c m).2 r' m'

/-- A program obeys if each request it asks is permitted. -/
theorem Prog.obeys_iff {P : Machine χ σ → Request χ σ → Prop} {c : Caller χ σ} {p : Prog χ σ α} {m : Machine χ σ} :
    p.Obeys P c m ↔ ∀ r m', p.Asks c m r m' → P m' r := by
  induction p generalizing m with
  | done a => exact ⟨fun _ _ _ h => h.elim, fun _ => trivial⟩
  | fail e => exact ⟨fun _ _ _ h => h.elim, fun _ => trivial⟩
  | ask r next ih =>
    simp only [Obeys, Asks, ih]
    constructor
    · rintro ⟨hr, hrest⟩ r' m' (⟨rfl, rfl⟩ | h)
      · exact hr
      · exact hrest r' m' h
    · exact fun h => ⟨h r m (Or.inl ⟨rfl, rfl⟩), fun r' m' h' => h r' m' (Or.inr h')⟩

/-- What one program after another asks: what the first asks, and what the second asks from there on. -/
theorem Prog.asks_bind_iff {β : Type} {c : Caller χ σ} {p : Prog χ σ α} {f : α → Prog χ σ β} {m m' : Machine χ σ}
    {r : Request χ σ} :
    (p >>= f).Asks c m r m' ↔ p.Asks c m r m' ∨ ∃ a, (p.run c m).1 = .ok a ∧ (f a).Asks c (p.run c m).2 r m' := by
  show (p.bind f).Asks c m r m' ↔ _
  induction p generalizing m with
  | done a => simp [Prog.bind, Asks, run, Action.pure]
  | fail e => simp [Prog.bind, Asks, run, Action.fail]
  | ask r₀ next ih => simp only [Prog.bind, Asks, ih, or_assoc, run]

/-- One program after another obeys if both do, the second from there on. -/
theorem Prog.obeys_bind {β : Type} {P : Machine χ σ → Request χ σ → Prop} {c : Caller χ σ} {p : Prog χ σ α}
    {f : α → Prog χ σ β} {m : Machine χ σ} (hp : p.Obeys P c m)
    (hf : ∀ a, (p.run c m).1 = .ok a → (f a).Obeys P c (p.run c m).2) : (p >>= f).Obeys P c m := by
  refine Prog.obeys_iff.2 fun r m' h => ?_
  rcases Prog.asks_bind_iff.1 h with h | ⟨a, ha, h⟩
  · exact Prog.obeys_iff.1 hp r m' h
  · exact Prog.obeys_iff.1 (hf a ha) r m' h

/-- A program that asks one request asks nothing else. -/
theorem Prog.asks_request_iff {c : Caller χ σ} {r r' : Request χ σ} {m m' : Machine χ σ} :
    (Prog.request r).Asks c m r' m' ↔ r' = r ∧ m' = m := by
  show (r' = r ∧ m' = m) ∨ (Prog.ofExcept (r.perform c m).1).Asks c (r.perform c m).2 r' m' ↔ _
  cases (r.perform c m).1 <;> simp [Prog.ofExcept, Asks]

theorem Prog.obeys_single {P : Machine χ σ → Request χ σ → Prop} {c : Caller χ σ} {r : Request χ σ} {m : Machine χ σ}
    (hr : P m r) : (Prog.request r).Obeys P c m := by
  refine Prog.obeys_iff.2 fun r' m' h => ?_
  obtain ⟨rfl, rfl⟩ := Prog.asks_request_iff.1 h
  exact hr

/-- The bases that a search for a key looks at, each with the machine it is looked at on. -/
def Attribute.Searches (c : Caller χ σ) (key : Value) : List Value → Machine χ σ → Ref → Machine χ σ → Prop
  | [], _, _, _ => False
  | .table t :: bases, m, b, m' => (b = t ∧ m' = m) ∨
    ∃ found next, Action.index c (.table t) key m = (.ok found, next) ∧ found.isNil = true ∧ Searches c key bases next b m'
  | _ :: bases, m, b, m' => Searches c key bases m b m'

/-- A class looks at its bases for the key of a call: neither the shadow of the receiver nor the class itself has it. -/
def Attribute.LooksAt (c : Caller χ σ) (call : Call) (m : Machine χ σ) (b : Ref) (m' : Machine χ σ) : Prop :=
  ∃ own cls bases found, inShadow m (call.arg 1) (call.arg 2) = .ok own ∧ own.isNil = true ∧
    call.upvalues = cls :: bases ∧ inClass m (call.arg 2) cls = .ok found ∧ found.isNil = true ∧
    Searches c (call.arg 2) bases m b m'

/-- The function that finalizes the receiver of a call: what its shadow has under `__gc`. -/
def Attribute.Finalizes (call : Call) (m : Machine χ σ) (f : Ref) : Prop :=
  ∃ shadow, shadow? m (call.arg 1) = .ok (some shadow) ∧ m.rawField shadow Registry.finalizeName = .ok (.function f)

namespace Attribute

/-- The function that finalizes the receiver of a call, if its shadow has one. -/
def finalizer? (call : Call) (m : Machine χ σ) : Option Ref :=
  match shadow? m (call.arg 1) with
  | .ok (some shadow) =>
    match m.rawField shadow Registry.finalizeName with
    | .ok (.function f) => some f
    | _ => none
  | _ => none

theorem finalizer?_eq_some_iff {call : Call} {m : Machine χ σ} {f : Ref} :
    finalizer? call m = some f ↔ Finalizes call m f := by
  unfold finalizer? Finalizes
  constructor
  · intro h
    split at h
    · split at h
      · cases h
        exact ⟨_, ‹_›, ‹_›⟩
      · cases h
    · cases h
  · rintro ⟨shadow, hshadow, hf⟩
    rw [hshadow]
    simp only [hf]

/-- What the finalizer of a class does to the machine is done by the function in the shadow. -/
theorem finalize_snd (c : Caller χ σ) (call : Call) (m : Machine χ σ) :
    (finalize c call m).2 = match finalizer? call m with
      | some f => (c (.function f) [call.arg 1] m).2
      | none => m := by
  show (Action.bind (Action.query fun m => shadow? m (call.arg 1)) _ m).2 = _
  rw [Action.query_bind]
  unfold finalizer?
  rcases shadow? m (call.arg 1) with e | _ | shadow
  · rfl
  · rfl
  · show (Action.bind (Action.query fun m => m.rawField shadow Registry.finalizeName) _ m).2 = _
    rw [Action.query_bind]
    cases hfound : m.rawField shadow Registry.finalizeName with
    | error e => simp only [hfound]
    | ok found =>
      cases found with
      | function f =>
        simp only [hfound]
        exact Action.answer_snd _ _ m
      | _ =>
        simp only [hfound]
        rfl

end Attribute

/-! ## Moments -/

/-- Something that goes on in a run, with the machine it begins on: a request, a call of a function value, the body of a function,
or the finalizers of a collection whose sweep is over. -/
inductive Moment (χ σ : Type) where
  | request (r : Request χ σ) (m : Machine χ σ)
  | call (f : Value) (args : List Value) (m : Machine χ σ)
  | body (code : Code χ) (c : Call) (m : Machine χ σ)
  | finalizers (m : Machine χ σ)

namespace Moment

/-- The machine a moment begins on. -/
def before : Moment χ σ → Machine χ σ
  | request _ m | call _ _ m | body _ _ m | finalizers m => m

/-- The machine a moment ends on. -/
def after (Γ : Host χ σ) : Moment χ σ → Machine χ σ
  | request r m => (r.perform (ScriptHost.call Γ) m).2
  | call f args m => (ScriptHost.call Γ f args m).2
  | body code c m => (code.run Γ (ScriptHost.call Γ) c m).2
  | finalizers m => (Action.finalizeAll (ScriptHost.call Γ) m.pending m).2

/-- The first moment makes the second, directly. -/
inductive Makes (Γ : Host χ σ) : Moment χ σ → Moment χ σ → Prop where
  | read {v key f object : Value} {m : Machine χ σ} (h : m.readEnters v key = some (f, object)) :
      Makes Γ (request (.index v key) m) (call f [object, key] m)
  | write {target key v f object : Value} {m : Machine χ σ} (h : m.writeEnters target key = some (f, object)) :
      Makes Γ (request (.setIndex target key v) m) (call f [object, key, v] m)
  | call (f : Value) (args : List Value) (m : Machine χ σ) : Makes Γ (request (.call f args) m) (call f args m)
  | lookup (v : Value) (name : String) (args : List Value) (m : Machine χ σ) :
      Makes Γ (request (.callMethod v name args) m) (request (.index v (.string name)) m)
  | method {v method : Value} {name : String} {args : List Value} {m m' : Machine χ σ}
      (h : Action.index (ScriptHost.call Γ) v (.string name) m = (.ok method, m')) (hn : method.isNil = false) :
      Makes Γ (request (.callMethod v name args) m) (call method (v :: args) m')
  | marker {v reader : Value} {name : String} {m : Machine χ σ} (hv : (m.identity? v).isSome)
      (hr : m.metafield v Registry.readName = .ok reader) (hn : reader.isNil = false) :
      Makes Γ (request (.isKindOf v name) m) (request (.index v (.string name)) m)
  | sweep {m : Machine χ σ} (h : m.collecting = false) : Makes Γ (request .collect m) (finalizers m.swept)
  | turn {m : Machine χ σ} {t : Turn χ σ} {f : Value} (ht : t ∈ turns (ScriptHost.call Γ) m.pending m)
      (hf : t.finalizer? = some f) : Makes Γ (finalizers m) (call f [.userdata t.subject] t.machine)
  | enter {f : Value} {args : List Value} {m : Machine χ σ} {function : NativeFunction χ}
      (h : m.callee f args = .ok function) :
      Makes Γ (call f args m) (body function.code ⟨args, function.upvalues⟩ (m.enter f args))
  | ask {k : χ} {c : Call} {m m' : Machine χ σ} {r : Request χ σ} (h : (Γ k c).Asks (ScriptHost.call Γ) m r m') :
      Makes Γ (body (.host k) c m) (request r m')
  | base {c : Call} {m m' : Machine χ σ} {b : Ref} (h : Attribute.LooksAt (ScriptHost.call Γ) c m b m') :
      Makes Γ (body .readAttribute c m) (request (.index (.table b) (c.arg 2)) m')
  | finalizer {c : Call} {m : Machine χ σ} {f : Ref} (h : Attribute.Finalizes c m f) :
      Makes Γ (body .finalizeHandle c m) (call (.function f) [c.arg 1] m)

/-- The second moment is the first, or the first makes it through others. -/
abbrev Within (Γ : Host χ σ) : Moment χ σ → Moment χ σ → Prop := Relation.ReflTransGen (Makes Γ)

end Moment

/-- The moments of a run: what the program at the top asks for, and what comes of that. -/
def Happens (Γ : Host χ σ) (p : Prog χ σ α) (m : Machine χ σ) (M : Moment χ σ) : Prop :=
  ∃ r m', p.Asks (call Γ) m r m' ∧ Moment.Within Γ (.request r m') M

theorem Happens.makes {Γ : Host χ σ} {p : Prog χ σ α} {m : Machine χ σ} {M N : Moment χ σ} (h : Happens Γ p m M)
    (hmakes : M.Makes Γ N) : Happens Γ p m N := by
  obtain ⟨r, m', hask, hwithin⟩ := h
  exact ⟨r, m', hask, hwithin.tail hmakes⟩

/-! ## The depth of a moment -/

variable {Γ : Host χ σ}

/-- Requests leave the depth and the limits as they were. -/
theorem room_perform (Γ : Host χ σ) (r : Request χ σ) (m : Machine χ σ) : (r.perform (call Γ) m).2.room = m.room := by
  have hcall : ∀ f args, Action.Agree (fun _ => True) (Machine.At m.depth m.limits) (call Γ f args) (call Γ f args) := by
    refine fun f args => .of_keep fun m' hm' => ?_
    obtain ⟨hd, hl⟩ := call_at Γ f args m'
    exact ⟨hd.trans hm'.1, hl.trans hm'.2⟩
  have hat : Machine.At m.depth m.limits m := ⟨rfl, rfl⟩
  obtain ⟨-, hd, hl⟩ := (stable_at (P := fun _ _ => True) m.depth m.limits).perform (visited_all _ _) hcall trivial hat (r := r)
    trivial
  unfold Machine.room
  rw [hd, hl]

theorem room_index (Γ : Host χ σ) (v key : Value) (m : Machine χ σ) : (Action.index (call Γ) v key m).2.room = m.room :=
  room_perform Γ (.index v key) m

theorem Prog.Asks.room_eq {p : Prog χ σ α} {m m' : Machine χ σ} {r : Request χ σ} (h : p.Asks (call Γ) m r m') :
    m'.room = m.room := by
  induction p generalizing m with
  | done a => exact h.elim
  | fail e => exact h.elim
  | ask r₀ next ih =>
    rcases h with ⟨-, rfl⟩ | h
    · rfl
    · exact (ih _ h).trans (room_perform Γ r₀ m)

theorem Attribute.Searches.room_eq {key : Value} {bases : List Value} {m m' : Machine χ σ} {b : Ref}
    (h : Searches (call Γ) key bases m b m') : m'.room = m.room := by
  induction bases generalizing m with
  | nil => exact h.elim
  | cons v bases ih =>
    cases v with
    | table t =>
      rcases h with ⟨-, rfl⟩ | ⟨found, next, hindex, -, h⟩
      · rfl
      · have hroom := room_index Γ (.table t) key m
        rw [hindex] at hroom
        exact (ih h).trans hroom
    | _ => exact ih h

theorem room_turn {refs : List Ref} {m : Machine χ σ} {t : Turn χ σ} (ht : t ∈ turns (call Γ) refs m) :
    t.machine.room = m.room := by
  refine (finalizeAll_keeps (I := fun m' => m'.room = m.room) (fun f args m' hm' => ?_) (fun _ _ h => h) refs rfl).1 t ht
  exact (room_perform Γ (.call f args) m').trans hm'

namespace Moment

/-- How deep a moment can go on: first the calls that the limits leave, then the kind of the moment. -/
def rank : Moment χ σ → Nat
  | call _ _ m => 4 * m.room
  | finalizers m => 4 * m.room + 1
  | request (.index ..) m => 4 * m.room + 1
  | request _ m => 4 * m.room + 2
  | body _ _ m => 4 * m.room + 3

theorem rank_request_le (r : Request χ σ) (m : Machine χ σ) : (request r m).rank ≤ 4 * m.room + 2 := by
  cases r <;> simp [rank]

/-- What a moment makes is of lower rank. -/
theorem Makes.rank_lt {M N : Moment χ σ} (h : M.Makes Γ N) : N.rank < M.rank := by
  cases h with
  | read h => simp [rank]
  | write h => simp [rank]
  | call f args m => simp [rank]
  | lookup v name args m => simp [rank]
  | @method v _ name _ m _ h hn =>
    have hroom := room_index Γ v (.string name) m
    rw [h] at hroom
    simp [rank, hroom]
  | marker hv hr hn => simp [rank]
  | sweep h =>
    have hroom : ∀ m : Machine χ σ, m.swept.room = m.room := fun _ => rfl
    simp [rank, hroom]
  | turn ht hf => simp [rank, room_turn ht]
  | @enter f args m _ h =>
    have hlt := Machine.depth_lt_of_callee h
    show 4 * (m.limits.maxCallDepth - (m.depth + 1)) + 3 < 4 * (m.limits.maxCallDepth - m.depth)
    omega
  | @ask k c m m' r h =>
    have hle := rank_request_le r m'
    rw [h.room_eq] at hle
    show (request r m').rank < 4 * m.room + 3
    omega
  | base h =>
    obtain ⟨_, _, _, _, -, -, -, -, -, h⟩ := h
    simp [rank, h.room_eq]
  | finalizer h => simp [rank]

end Moment

end ScriptHost

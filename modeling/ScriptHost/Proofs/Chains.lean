import ScriptHost.Proofs.Isolation
import ScriptHost.Proofs.Kinds
import ScriptHost.Proofs.Metatables

/-!
# Chains of handlers

An access with metamethods follows a chain: the value it starts at, the handler of that value, the handler of the handler, and so on
(`Machine.chain`). It rests at the first object that has the key itself or has no handler (`Machine.Rests`). Where no handler that it
meets is a function and all objects that it meets are there, a read answers what the object it rests at has and a write changes one
entry of that object; if that is no table, both are type errors. Neither looks at more objects than the limits allow, and an access that
has not come to rest by then is a stack overflow (`chain_without_functions`). The heap may be any heap whose metatables are there, one
with cycles of metatables for instance.
-/

namespace ScriptHost

variable {χ σ α : Type}

namespace Machine

variable {m : Machine χ σ} {name : String} {key v w x : Value} {t : Ref} {n bound : Nat}

/-! ## The chain -/

/-- The object that a value refers to is there, and of the kind that the value says. -/
def Present (m : Machine χ σ) : Value → Prop
  | .table r => ∃ T, m.heap.object? r = some (.table T)
  | .userdata r => ∃ u, m.heap.object? r = some (.userdata u)
  | _ => True

/-- The handler of a value: what its metatable has under the name, if that is not nil. -/
def handler? (m : Machine χ σ) (name : String) (v : Value) : Option Value :=
  match m.metafield v name with
  | .ok handler => if handler.isNil then none else some handler
  | .error _ => none

/-- What a value has under a key without metamethods. Only a table has anything. -/
def own (m : Machine χ σ) (key : Value) : Value → Value
  | .table t => (m.rawGet t key).toOption.getD .nil
  | _ => .nil

/-- The values on a chain, counted from zero: each is the handler of the one before it. -/
def chain (m : Machine χ σ) (name : String) (v : Value) : Nat → Option Value
  | 0 => some v
  | n + 1 => (m.chain name v n).bind (m.handler? name)

/-- The access gets as far as the value on its chain: nothing before it has the key. -/
structure Comes (m : Machine χ σ) (name : String) (key v : Value) (n : Nat) (w : Value) : Prop where
  there : m.chain name v n = some w
  lacking : ∀ i u, i < n → m.chain name v i = some u → m.own key u = .nil

/-- The access rests at the value: nothing before it has the key, and it has the key or has no handler. -/
structure Rests (m : Machine χ σ) (name : String) (key v : Value) (n : Nat) (w : Value) : Prop where
  comes : m.Comes name key v n w
  last : m.own key w ≠ .nil ∨ m.handler? name w = none

/-- As far as the access gets on so many objects, each of them is there, and no handler that it meets is a function. -/
def Clear (m : Machine χ σ) (name : String) (key v : Value) (bound : Nat) : Prop :=
  ∀ n w, n < bound → m.Comes name key v n w →
    m.Present w ∧ (m.own key w = .nil → ∀ f, m.handler? name w ≠ some (.function f))

/-- A chain goes on as the chain of the first handler. -/
theorem chain_succ (m : Machine χ σ) (name : String) (v : Value) (n : Nat) :
    m.chain name v (n + 1) = (m.handler? name v).bind fun x => m.chain name x n := by
  induction n with
  | zero => cases h : m.handler? name v <;> simp [chain, h]
  | succ n ih =>
    rw [chain, ih]
    cases m.handler? name v <;> rfl

/-- An access that goes on from its first object does what an access from the handler does. -/
theorem comes_succ (hx : m.handler? name v = some x) (hown : m.own key v = .nil) :
    m.Comes name key v (n + 1) w ↔ m.Comes name key x n w := by
  have hchain : ∀ i, m.chain name v (i + 1) = m.chain name x i := fun i => by rw [chain_succ, hx, Option.bind_some]
  constructor
  · rintro ⟨hthere, hlacking⟩
    exact ⟨hchain n ▸ hthere, fun i u hi hu => hlacking (i + 1) u (by omega) (hchain i ▸ hu)⟩
  · rintro ⟨hthere, hlacking⟩
    refine ⟨(hchain n).trans hthere, fun i u hi hu => ?_⟩
    cases i with
    | zero =>
      cases hu
      exact hown
    | succ i => exact hlacking i u (by omega) (hchain i ▸ hu)

theorem comes_zero : m.Comes name key v 0 v := ⟨rfl, fun _ _ h => absurd h (Nat.not_lt_zero _)⟩

theorem Comes.eq_of_zero (h : m.Comes name key v 0 w) : w = v := (Option.some.inj h.there).symm

/-- An access rests at its first object, or goes on. -/
theorem rests_succ (hx : m.handler? name v = some x) (hown : m.own key v = .nil) :
    m.Rests name key v (n + 1) w ↔ m.Rests name key x n w :=
  ⟨fun h => ⟨(comes_succ hx hown).1 h.comes, h.last⟩, fun h => ⟨(comes_succ hx hown).2 h.comes, h.last⟩⟩

/-- An access that goes on from its first object does not rest there. -/
theorem Rests.exists_succ (hx : m.handler? name v = some x) (hown : m.own key v = .nil) (h : m.Rests name key v n w) :
    ∃ i, n = i + 1 ∧ m.Rests name key x i w := by
  cases n with
  | zero =>
    cases h.comes.eq_of_zero
    rcases h.last with h | h
    · exact absurd hown h
    · rw [hx] at h
      cases h
  | succ i => exact ⟨i, rfl, (rests_succ hx hown).1 h⟩

/-- An access rests once. -/
theorem Rests.unique {i : Nat} {u : Value} (h : m.Rests name key v n w) (h' : m.Rests name key v i u) : n = i ∧ w = u := by
  induction n generalizing v i with
  | zero =>
    cases h.comes.eq_of_zero
    cases i with
    | zero => exact ⟨rfl, h'.comes.eq_of_zero.symm⟩
    | succ i =>
      rcases h.last with hown | hlast
      · exact absurd (h'.comes.lacking 0 w (Nat.succ_pos i) rfl) hown
      · have hthere := h'.comes.there
        rw [chain_succ, hlast] at hthere
        cases hthere
  | succ n ih =>
    have hown := h.comes.lacking 0 v (Nat.succ_pos n) rfl
    have hthere := h.comes.there
    rw [chain_succ] at hthere
    obtain ⟨x, hx, -⟩ := Option.bind_eq_some_iff.1 hthere
    obtain ⟨j, rfl, hj⟩ := h'.exists_succ hx hown
    obtain ⟨rfl, rfl⟩ := ih ((rests_succ hx hown).1 h) hj
    exact ⟨rfl, rfl⟩

/-- An access from the handler is clear if the whole access is. -/
theorem Clear.next (h : m.Clear name key v (bound + 1)) (hx : m.handler? name v = some x) (hown : m.own key v = .nil) :
    m.Clear name key x bound :=
  fun n w hn hw => h (n + 1) w (by omega) ((comes_succ hx hown).2 hw)

/-! ## One hop -/

/-- What is looked up in a metatable is found, because the metatable is there. -/
theorem Present.metafield (hg : m.Grounded) (h : m.Present w) (name : String) : ∃ handler, m.metafield w name = .ok handler := by
  have hfield : ∀ {r o mt}, m.heap.object? r = some o → o.metatable = some mt → ∃ handler, m.rawField mt name = .ok handler := by
    intro r o mt ho hmt
    obtain ⟨M, hM⟩ := hg r o mt ho hmt
    exact ⟨M.field name, by simp only [rawField, Heap.table_eq_ok_iff.2 hM]⟩
  cases w with
  | table r =>
    obtain ⟨T, hT⟩ := h
    simp only [Machine.metafield, metatable, Heap.table_eq_ok_iff.2 hT]
    cases hclass : T.metatable with
    | none => exact ⟨_, rfl⟩
    | some mt => exact hfield hT hclass
  | userdata r =>
    obtain ⟨u, hu⟩ := h
    simp only [Machine.metafield, metatable, Heap.userdata_eq_ok_iff.2 hu]
    cases hclass : u.metatable with
    | none => exact ⟨_, rfl⟩
    | some mt => exact hfield hu hclass
  | _ => exact ⟨_, rfl⟩

/-- There is no handler where the field of the metatable is nil. -/
theorem Present.metafield_of_none (hg : m.Grounded) (h : m.Present w) (hx : m.handler? name w = none) :
    m.metafield w name = .ok .nil := by
  obtain ⟨handler, hfield⟩ := h.metafield hg name
  simp only [handler?, hfield] at hx
  cases handler <;> first | exact hfield | cases hx

theorem metafield_of_some (hx : m.handler? name w = some x) : m.metafield w name = .ok x ∧ x.isNil = false := by
  unfold handler? at hx
  split at hx
  · rename_i handler hfield
    split at hx
    · cases hx
    · cases hx
      exact ⟨hfield, Bool.eq_false_iff.2 ‹_›⟩
  · cases hx

theorem Present.rawGet (h : m.Present (.table t)) (key : Value) : m.rawGet t key = .ok (m.own key (.table t)) := by
  obtain ⟨T, hT⟩ := h
  obtain ⟨found, hfound⟩ := exists_rawGet hT key
  simp only [own, hfound, Except.toOption, Option.getD_some]

/-- A handler that is no function is where the access goes on. -/
theorem ofHandler_eq (hx : ∀ f, x ≠ .function f) : Hop.ofHandler x = .next x := by
  cases x with
  | function f => exact absurd rfl (hx f)
  | _ => rfl

/-- A read goes on from a value that has no such key to its handler. -/
theorem readHop_next (h : m.Present w) (hown : m.own key w = .nil) (hx : m.handler? "__index" w = some x)
    (hfunction : ∀ f, x ≠ .function f) : m.readHop w key = .ok (.next x) := by
  obtain ⟨hfield, hnil⟩ := metafield_of_some hx
  cases w with
  | table t =>
    simp only [readHop, h.rawGet, Value.isNil_iff.2 hown, hfield, hnil, ofHandler_eq hfunction, ↓reduceIte, Bool.false_eq_true]
  | _ => simp only [readHop, handlerHop, hfield, hnil, ofHandler_eq hfunction, ↓reduceIte, Bool.false_eq_true]

/-- A write goes on from a value that has no such key to its handler. -/
theorem writeHop_next (h : m.Present w) (hown : m.own key w = .nil) (hx : m.handler? "__newindex" w = some x)
    (hfunction : ∀ f, x ≠ .function f) : m.writeHop w key = .ok (.next x) := by
  obtain ⟨hfield, hnil⟩ := metafield_of_some hx
  cases w with
  | table t =>
    simp only [writeHop, h.rawGet, Value.isNil_iff.2 hown, hfield, hnil, ofHandler_eq hfunction, ↓reduceIte, Bool.false_eq_true]
  | _ => simp only [writeHop, handlerHop, hfield, hnil, ofHandler_eq hfunction, ↓reduceIte, Bool.false_eq_true]

/-- A read that rests at a table answers what the table has. -/
theorem readHop_table (hg : m.Grounded) (h : m.Present (.table t))
    (hlast : m.own key (.table t) ≠ .nil ∨ m.handler? "__index" (.table t) = none) :
    m.readHop (.table t) key = .ok (.stop (m.own key (.table t))) := by
  simp only [readHop, h.rawGet]
  split
  · rename_i hnil
    have hown := Value.isNil_iff.1 hnil
    rw [h.metafield_of_none hg (hlast.resolve_left (not_not_intro hown)), hown]
    rfl
  · rfl

/-- A write that rests at a table is made there. -/
theorem writeHop_table (hg : m.Grounded) (h : m.Present (.table t))
    (hlast : m.own key (.table t) ≠ .nil ∨ m.handler? "__newindex" (.table t) = none) :
    m.writeHop (.table t) key = .ok (.stop (.table t)) := by
  simp only [writeHop, h.rawGet]
  split
  · rename_i hnil
    have hown := Value.isNil_iff.1 hnil
    rw [h.metafield_of_none hg (hlast.resolve_left (not_not_intro hown))]
    rfl
  · rfl

/-- An access that rests at anything but a table is a type error. -/
theorem handlerHop_last (hg : m.Grounded) (h : m.Present w) (hw : w.table? = none)
    (hlast : m.own key w ≠ .nil ∨ m.handler? name w = none) :
    m.handlerHop w name = .error (.type (.notIndexable w.typeName)) := by
  have hnone : m.handler? name w = none := by
    refine hlast.resolve_left (not_not_intro ?_)
    cases w <;> first | rfl | cases hw
  simp only [handlerHop, h.metafield_of_none hg hnone]
  rfl

/-- What is no table is looked at through its handler only. -/
theorem hop_of_no_table (hw : w.table? = none) (key : Value) :
    m.readHop w key = m.handlerHop w "__index" ∧ m.writeHop w key = m.handlerHop w "__newindex" := by
  cases w <;> first | exact ⟨rfl, rfl⟩ | cases hw

/-! ## The whole chain -/

/-- What is done hop by hop, which at a value it rests at is done there and elsewhere is done at the handler, is done where the access
rests, or ends without having come to rest. -/
theorem walk (along : Nat → Value → Except Fault α × Machine χ σ) (atRest : Value → Except Fault α × Machine χ σ)
    (hend : ∀ w, along 0 w = (.error .overflow, m))
    (hrest : ∀ hops w, m.Present w → m.own key w ≠ .nil ∨ m.handler? name w = none → along (hops + 1) w = atRest w)
    (hnext : ∀ hops w x, m.Present w → m.own key w = .nil → m.handler? name w = some x → (∀ f, x ≠ .function f) →
      along (hops + 1) w = along hops x)
    (hclear : m.Clear name key v bound) :
    (∃ n w, n < bound ∧ m.Present w ∧ m.Rests name key v n w ∧ along bound v = atRest w) ∨
      (¬∃ n w, n < bound ∧ m.Rests name key v n w) ∧ along bound v = (.error .overflow, m) := by
  induction bound generalizing v with
  | zero => exact Or.inr ⟨fun ⟨_, _, hn, _⟩ => absurd hn (Nat.not_lt_zero _), hend v⟩
  | succ bound ih =>
    obtain ⟨hv, hfunction⟩ := hclear 0 v (Nat.succ_pos bound) comes_zero
    by_cases hlast : m.own key v ≠ .nil ∨ m.handler? name v = none
    · exact Or.inl ⟨0, v, Nat.succ_pos bound, hv, ⟨comes_zero, hlast⟩, hrest bound v hv hlast⟩
    · have hown : m.own key v = .nil := by_contra fun h => hlast (Or.inl h)
      obtain ⟨x, hx⟩ := Option.ne_none_iff_exists'.1 fun h => hlast (Or.inr h)
      have hstep := hnext bound v x hv hown hx fun f e => hfunction hown f (e ▸ hx)
      rw [hstep]
      rcases ih (hclear.next hx hown) with ⟨n, w, hn, hw, hr, ha⟩ | ⟨hnot, ha⟩
      · exact Or.inl ⟨n + 1, w, by omega, hw, (rests_succ hx hown).2 hr, ha⟩
      · refine Or.inr ⟨?_, ha⟩
        rintro ⟨n, w, hn, hr⟩
        obtain ⟨i, rfl, hi⟩ := hr.exists_succ hx hown
        exact hnot ⟨i, w, by omega, hi⟩

/-! ## Reads and writes -/

/-- What a read answers that rests at a value. -/
def readAtRest (m : Machine χ σ) (key : Value) : Value → Except Fault Value
  | .table t => .ok (m.own key (.table t))
  | w => .error (.type (.notIndexable w.typeName))

theorem readAtRest_of_no_table (m : Machine χ σ) (key : Value) (hw : w.table? = none) :
    m.readAtRest key w = .error (.type (.notIndexable w.typeName)) := by
  cases w <;> first | rfl | cases hw

end Machine

namespace Action

open Machine

variable {m : Machine χ σ} {key v w val : Value}

/-- What a write does that rests at a value. -/
def writeAtRest (key val : Value) : Value → Action χ σ Unit
  | .table t => rawSet t key val
  | w => fail (.type (.notIndexable w.typeName))

theorem writeAtRest_of_no_table (hw : w.table? = none) :
    writeAtRest key val w m = (.error (.type (.notIndexable w.typeName)), m) := by
  cases w <;> first | rfl | cases hw

theorem readAlong_rest (hg : m.Grounded) (c : Caller χ σ) (hops : Nat) (h : m.Present w)
    (hlast : m.own key w ≠ .nil ∨ m.handler? "__index" w = none) :
    readAlong c key (hops + 1) w m = (m.readAtRest key w, m) := by
  cases hw : w.table? with
  | none => rw [readAlong_succ, (hop_of_no_table hw key).1, handlerHop_last hg h hw hlast, readAtRest_of_no_table m key hw]
  | some t =>
    obtain rfl : w = .table t := by cases w <;> cases hw; rfl
    rw [readAlong_succ, readHop_table hg h hlast]
    rfl

theorem writeAlong_rest (hg : m.Grounded) (c : Caller χ σ) (hops : Nat) (h : m.Present w)
    (hlast : m.own key w ≠ .nil ∨ m.handler? "__newindex" w = none) :
    writeAlong c key val (hops + 1) w m = writeAtRest key val w m := by
  cases hw : w.table? with
  | none => rw [writeAlong_succ, (hop_of_no_table hw key).2, handlerHop_last hg h hw hlast, writeAtRest_of_no_table hw]
  | some t =>
    obtain rfl : w = .table t := by cases w <;> cases hw; rfl
    rw [writeAlong_succ, writeHop_table hg h hlast]
    rfl

/-- A read answers what is read where it rests, or is a stack overflow if it does not come to rest. -/
theorem index_walk (hg : m.Grounded) (c : Caller χ σ) (hclear : m.Clear "__index" key v m.limits.maxIndexChain) :
    (∃ n w, n < m.limits.maxIndexChain ∧ m.Present w ∧ m.Rests "__index" key v n w ∧
        index c v key m = (m.readAtRest key w, m)) ∨
      (¬∃ n w, n < m.limits.maxIndexChain ∧ m.Rests "__index" key v n w) ∧ index c v key m = (.error .overflow, m) := by
  refine walk (fun hops w => readAlong c key hops w m) (fun w => (m.readAtRest key w, m)) (fun _ => rfl)
    (fun hops w hw hlast => readAlong_rest hg c hops hw hlast) (fun hops w x hw hown hx hfunction => ?_) hclear
  show readAlong c key (hops + 1) w m = readAlong c key hops x m
  rw [readAlong_succ, readHop_next hw hown hx hfunction]

/-- A write is made where it rests, or is a stack overflow if it does not come to rest. -/
theorem setIndex_walk (hg : m.Grounded) (c : Caller χ σ) (val : Value) (hclear : m.Clear "__newindex" key v m.limits.maxIndexChain) :
    (∃ n w, n < m.limits.maxIndexChain ∧ m.Present w ∧ m.Rests "__newindex" key v n w ∧
        setIndex c v key val m = writeAtRest key val w m) ∨
      (¬∃ n w, n < m.limits.maxIndexChain ∧ m.Rests "__newindex" key v n w) ∧
        setIndex c v key val m = (.error .overflow, m) := by
  refine walk (fun hops w => writeAlong c key val hops w m) (fun w => writeAtRest key val w m) (fun _ => rfl)
    (fun hops w hw hlast => writeAlong_rest hg c hops hw hlast) (fun hops w x hw hown hx hfunction => ?_) hclear
  show writeAlong c key val (hops + 1) w m = writeAlong c key val hops x m
  rw [writeAlong_succ, writeHop_next hw hown hx hfunction]

end Action

open ScriptHost.Action Machine

/-- What a read along a chain comes to. It changes nothing. It answers what the first object that has the key has, or nil if the chain
ends at a table before that; if the chain ends at anything else it is a type error. It is a stack overflow exactly if it has not come to
rest at one of as many objects as the limits allow. -/
structure ReadsAlong (c : Caller χ σ) (m : Machine χ σ) (v key : Value) : Prop where
  still : (index c v key m).2 = m
  found : ∀ n w, n < m.limits.maxIndexChain → m.Comes "__index" key v n w → m.own key w ≠ .nil →
    (index c v key m).1 = .ok (m.own key w)
  missing : ∀ n t, n < m.limits.maxIndexChain → m.Comes "__index" key v n (.table t) → m.own key (.table t) = .nil →
    m.handler? "__index" (.table t) = none → (index c v key m).1 = .ok .nil
  refused : ∀ n w, n < m.limits.maxIndexChain → m.Comes "__index" key v n w → w.table? = none → m.handler? "__index" w = none →
    (index c v key m).1 = .error (.type (.notIndexable w.typeName))
  overflow : (index c v key m).1 = .error .overflow ↔
    ¬∃ n w, n < m.limits.maxIndexChain ∧ m.Rests "__index" key v n w

/-- What a write along a chain comes to. It fails and changes nothing, or it changes one entry and nothing else: that of the key in the
table it rests at. There it fails only for a key that is none; at anything but a table it is a type error. It is a stack overflow exactly
if it has not come to rest at one of as many objects as the limits allow. -/
structure WritesAlong (c : Caller χ σ) (m : Machine χ σ) (v key val : Value) : Prop where
  outcome : (∃ fault, setIndex c v key val m = (.error fault, m)) ∨
    ∃ n t T k m', n < m.limits.maxIndexChain ∧ m.Rests "__newindex" key v n (.table t) ∧ Key.ofValue key = .ok k ∧
      m.heap.object? t = some (.table T) ∧ setIndex c v key val m = (.ok (), m') ∧ m' = m.withTable t (T.set k val) ∧
      (∀ s, m'.heap.object? s = if s = t then some (.table (T.set k val)) else m.heap.object? s) ∧
      (T.set k val).metatable = T.metatable ∧ ∀ k', (T.set k val).get k' = if k' = k then val else T.get k'
  written : ∀ n t k, n < m.limits.maxIndexChain → m.Rests "__newindex" key v n (.table t) → Key.ofValue key = .ok k →
    (setIndex c v key val m).1 = .ok ()
  noKey : ∀ n t cause, n < m.limits.maxIndexChain → m.Rests "__newindex" key v n (.table t) → Key.ofValue key = .error cause →
    (setIndex c v key val m).1 = .error (.key cause)
  refused : ∀ n w, n < m.limits.maxIndexChain → m.Rests "__newindex" key v n w → w.table? = none →
    (setIndex c v key val m).1 = .error (.type (.notIndexable w.typeName))
  overflow : (setIndex c v key val m).1 = .error .overflow ↔
    ¬∃ n w, n < m.limits.maxIndexChain ∧ m.Rests "__newindex" key v n w

section

variable {m : Machine χ σ} {v key val w : Value} {n : Nat}

/-- Where a read rests decides its answer. -/
theorem Action.index_of_rests (hg : m.Grounded) (c : Caller χ σ) (hclear : m.Clear "__index" key v m.limits.maxIndexChain)
    (hn : n < m.limits.maxIndexChain) (hw : m.Rests "__index" key v n w) : (index c v key m).1 = m.readAtRest key w := by
  rcases index_walk hg c hclear with ⟨i, u, -, -, hu, hindex⟩ | ⟨hnot, -⟩
  · obtain ⟨-, rfl⟩ := hw.unique hu
    rw [hindex]
  · exact absurd ⟨n, w, hn, hw⟩ hnot

/-- Where a write rests decides what it does. -/
theorem Action.setIndex_of_rests (hg : m.Grounded) (c : Caller χ σ) (val : Value) (hclear : m.Clear "__newindex" key v m.limits.maxIndexChain)
    (hn : n < m.limits.maxIndexChain) (hw : m.Rests "__newindex" key v n w) :
    m.Present w ∧ setIndex c v key val m = writeAtRest key val w m := by
  rcases setIndex_walk hg c val hclear with ⟨i, u, -, hpresent, hu, hset⟩ | ⟨hnot, -⟩
  · obtain ⟨-, rfl⟩ := hw.unique hu
    exact ⟨hpresent, hset⟩
  · exact absurd ⟨n, w, hn, hw⟩ hnot

theorem readsAlong (hg : m.Grounded) (c : Caller χ σ) (hclear : m.Clear "__index" key v m.limits.maxIndexChain) : ReadsAlong c m v key where
  still := by
    rcases index_walk hg c hclear with ⟨n, w, -, -, -, hindex⟩ | ⟨-, hindex⟩ <;> rw [hindex]
  found n w hn hw hown := by
    rw [index_of_rests hg c hclear hn ⟨hw, Or.inl hown⟩]
    cases w <;> first | rfl | exact absurd rfl hown
  missing n t hn hw hown hlast := by
    rw [index_of_rests hg c hclear hn ⟨hw, Or.inr hlast⟩, readAtRest, hown]
  refused n w hn hw hno hlast := by
    rw [index_of_rests hg c hclear hn ⟨hw, Or.inr hlast⟩, readAtRest_of_no_table m key hno]
  overflow := by
    constructor
    · rintro hoverflow ⟨n, w, hn, hw⟩
      rw [index_of_rests hg c hclear hn hw] at hoverflow
      cases w <;> cases hoverflow
    · intro hnot
      rcases index_walk hg c hclear with ⟨n, w, hn, -, hw, -⟩ | ⟨-, hindex⟩
      · exact absurd ⟨n, w, hn, hw⟩ hnot
      · rw [hindex]

theorem writesAlong (hg : m.Grounded) (c : Caller χ σ) (val : Value) (hclear : m.Clear "__newindex" key v m.limits.maxIndexChain) :
    WritesAlong c m v key val where
  outcome := by
    rcases setIndex_walk hg c val hclear with ⟨n, w, hn, hpresent, hw, hset⟩ | ⟨-, hset⟩
    · rw [hset]
      cases w with
      | table t =>
        cases hk : Key.ofValue key with
        | error cause => exact Or.inl ⟨_, rawSet_of_no_key hk⟩
        | ok k =>
          obtain ⟨T, hT⟩ := hpresent
          exact Or.inr ⟨n, t, T, k, _, hn, hw, rfl, hT, rawSet_of_key hT hk, rfl, object?_withTable hT, Table.metatable_set T k val,
            fun k' => Table.get_set T k k' val⟩
      | _ => exact Or.inl ⟨_, rfl⟩
    · exact Or.inl ⟨_, hset⟩
  written n t k hn hw hk := by
    obtain ⟨hpresent, hset⟩ := setIndex_of_rests hg c val hclear hn hw
    obtain ⟨T, hT⟩ := hpresent
    rw [hset, writeAtRest, rawSet_of_key hT hk]
  noKey n t cause hn hw hk := by
    rw [(setIndex_of_rests hg c val hclear hn hw).2, writeAtRest, rawSet_of_no_key hk]
  refused n w hn hw hno := by
    rw [(setIndex_of_rests hg c val hclear hn hw).2, writeAtRest_of_no_table hno]
  overflow := by
    constructor
    · rintro hoverflow ⟨n, w, hn, hw⟩
      obtain ⟨hpresent, hset⟩ := setIndex_of_rests hg c val hclear hn hw
      rw [hset] at hoverflow
      cases w with
      | table t =>
        cases hk : Key.ofValue key with
        | error cause =>
          rw [writeAtRest, rawSet_of_no_key hk] at hoverflow
          cases hoverflow
        | ok k =>
          obtain ⟨T, hT⟩ := hpresent
          rw [writeAtRest, rawSet_of_key hT hk] at hoverflow
          cases hoverflow
      | _ => cases hoverflow
    · intro hnot
      rcases setIndex_walk hg c val hclear with ⟨n, w, hn, -, hw, -⟩ | ⟨-, hset⟩
      · exact absurd ⟨n, w, hn, hw⟩ hnot
      · rw [hset]

end

/-- **Chains without functions.** On every heap on which metatables are tables that are there, for every value, every key and whatever
calls functions: where the objects along the `__index` chain are there and no handler that is met is a function, a read comes to what
`ReadsAlong` says; and where that holds of the `__newindex` chain, a write comes to what `WritesAlong` says. On every machine of a run
metatables are tables that are there. -/
theorem chain_without_functions (c : Caller χ σ) (m : Machine χ σ) (v key val : Value) :
    (m.Grounded → m.Clear "__index" key v m.limits.maxIndexChain → ReadsAlong c m v key) ∧
      (m.Grounded → m.Clear "__newindex" key v m.limits.maxIndexChain → WritesAlong c m v key val) ∧
      ∀ (Γ : Host χ σ) (P : Machine χ σ → Request χ σ → Prop), Reached Γ P m → m.Grounded :=
  ⟨fun hg => readsAlong hg c, fun hg => writesAlong hg c val, fun _ _ hm => hm.grounded⟩

/-- A table whose metatable sends reads and writes back to it, and a userdata with the same metatable. -/
def looped : Machine Unit Unit :=
  requested [.newTable, .newTable, .rawSet ⟨3, 0⟩ (.string "__index") (.table ⟨2, 0⟩),
    .rawSet ⟨3, 0⟩ (.string "__newindex") (.table ⟨2, 0⟩), .setMetatable (.table ⟨2, 0⟩) (some ⟨3, 0⟩), .newUserdata .unit,
    .setMetatable (.userdata ⟨4, 0⟩) (some ⟨3, 0⟩), .rawSet ⟨2, 0⟩ (.string "x") (.integer 7)]

theorem handler?_looped {name : String} (hname : name = "__index" ∨ name = "__newindex") :
    looped.handler? name (.userdata ⟨4, 0⟩) = some (.table ⟨2, 0⟩) ∧ looped.handler? name (.table ⟨2, 0⟩) = some (.table ⟨2, 0⟩) := by
  rcases hname with rfl | rfl <;> decide +kernel

/-- After the userdata, the chain is the table over and over. -/
theorem chain_looped {name : String} (hname : name = "__index" ∨ name = "__newindex") (n : Nat) :
    looped.chain name (.userdata ⟨4, 0⟩) (n + 1) = some (.table ⟨2, 0⟩) := by
  induction n with
  | zero => exact (handler?_looped hname).1
  | succ n ih =>
    rw [chain, ih]
    exact (handler?_looped hname).2

theorem clear_looped {name : String} (hname : name = "__index" ∨ name = "__newindex") (key : Value) :
    looped.Clear name key (.userdata ⟨4, 0⟩) looped.limits.maxIndexChain := by
  obtain ⟨hu, hT⟩ : looped.heap.object? ⟨4, 0⟩ = some (.userdata ⟨.unit, some ⟨3, 0⟩, none, false⟩) ∧
      looped.heap.object? ⟨2, 0⟩ = some (.table ⟨[(.string "x", .integer 7)], some ⟨3, 0⟩⟩) := by
    decide +kernel
  intro n w _ hw
  have hthere := hw.there
  cases n with
  | zero =>
    cases hthere
    refine ⟨⟨_, hu⟩, fun _ f => ?_⟩
    rw [(handler?_looped hname).1]
    nofun
  | succ n =>
    rw [chain_looped hname] at hthere
    cases hthere
    refine ⟨⟨_, hT⟩, fun _ f => ?_⟩
    rw [(handler?_looped hname).2]
    nofun

/-- An access to a key that nothing on the chain has never comes to rest. -/
theorem not_rests_looped {name : String} (hname : name = "__index" ∨ name = "__newindex") :
    ¬∃ n w, n < looped.limits.maxIndexChain ∧ looped.Rests name (.string "y") (.userdata ⟨4, 0⟩) n w := by
  rintro ⟨n, w, -, hw⟩
  have hthere := hw.comes.there
  have hw' : w = .userdata ⟨4, 0⟩ ∨ w = .table ⟨2, 0⟩ := by
    cases n with
    | zero => exact Or.inl (Option.some.inj hthere).symm
    | succ n => exact Or.inr (Option.some.inj ((chain_looped hname n).symm.trans hthere)).symm
  have hown : looped.own (.string "y") (.userdata ⟨4, 0⟩) = .nil ∧ looped.own (.string "y") (.table ⟨2, 0⟩) = .nil := by
    decide +kernel
  obtain ⟨hu, ht⟩ := handler?_looped hname
  rcases hw' with rfl | rfl <;> rcases hw.last with h | h <;> simp_all

/-- Through the cycle, the userdata has what the table has, and a key that neither has is a stack overflow for a read and a write. -/
theorem chain_without_functions_looped :
    (index (call idleHost) (.userdata ⟨4, 0⟩) (.string "x") looped).1 = .ok (.integer 7) ∧
      (index (call idleHost) (.userdata ⟨4, 0⟩) (.string "y") looped).1 = .error .overflow ∧
      (setIndex (call idleHost) (.userdata ⟨4, 0⟩) (.string "y") (.integer 8) looped).1 = .error .overflow := by
  obtain ⟨hx, -, hgrounded⟩ := chain_without_functions (call idleHost) looped (.userdata ⟨4, 0⟩) (.string "x") .nil
  obtain ⟨hy, hy', -⟩ := chain_without_functions (call idleHost) looped (.userdata ⟨4, 0⟩) (.string "y") (.integer 8)
  have hg := hgrounded _ _ (reached_requested _)
  have hcomes : looped.Comes "__index" (.string "x") (.userdata ⟨4, 0⟩) 1 (.table ⟨2, 0⟩) := by
    refine ⟨chain_looped (Or.inl rfl) 0, fun i u hi hu => ?_⟩
    obtain rfl : i = 0 := by omega
    cases hu
    rfl
  have hown : looped.own (.string "x") (.table ⟨2, 0⟩) = .integer 7 := by decide +kernel
  refine ⟨?_, (hy hg (clear_looped (Or.inl rfl) _)).overflow.2 (not_rests_looped (Or.inl rfl)),
    (hy' hg (clear_looped (Or.inr rfl) _)).overflow.2 (not_rests_looped (Or.inr rfl))⟩
  rw [(hx hg (clear_looped (Or.inl rfl) _)).found 1 _ (by decide +kernel) hcomes (by rw [hown]; nofun), hown]

end ScriptHost

import ScriptHost.Proofs.WellFormed

/-!
# One object at a time

Making an object and overwriting one have the same effect: one reference finds another object than before, and all else is as it
was (`Machine.Written`). On a well-formed heap the primitive actions succeed with that effect wherever what they need is there,
so what an operation made of several of them comes to is read off one write after the other.
-/

namespace ScriptHost

variable {χ σ α β : Type}

/-! ## Answers and faults that are evaluated -/

theorem eq_ok_of_toOption {x : Except Fault α} {a : α} (h : x.toOption = some a) : x = .ok a := by
  cases x with
  | ok b => exact congrArg Except.ok (Option.some.inj h)
  | error e => cases h

/-- The fault, if there is one. -/
def faultOf? : Except Fault α → Option Fault
  | .error f => some f
  | .ok _ => none

theorem eq_error_of_fault {x : Except Fault α} {e : Fault} (h : faultOf? x = some e) : x = .error e := by
  cases x with
  | ok b => cases h
  | error f => exact congrArg Except.error (Option.some.inj h)

/-! ## One write -/

namespace Machine

/-- The second machine has the object at the reference, and is the first one apart from that. -/
structure Written (m m' : Machine χ σ) (r : Ref) (o : Object χ) : Prop where
  wellFormed : m'.heap.WellFormed
  registry : m'.registry = m.registry
  globals : m'.globals = m.globals
  object : ∀ s, m'.heap.object? s = if s = r then some o else m.heap.object? s

variable {m m' : Machine χ σ} {r : Ref} {o : Object χ}

theorem Written.self (h : m.Written m' r o) : m'.heap.object? r = some o := by
  rw [h.object, if_pos rfl]

theorem Written.other (h : m.Written m' r o) {s : Ref} (hs : s ≠ r) : m'.heap.object? s = m.heap.object? s := by
  rw [h.object, if_neg hs]

/-- Nothing is written where the object is there already. -/
theorem Written.refl (hw : m.heap.WellFormed) (hr : m.heap.object? r = some o) : m.Written m r o := by
  refine ⟨hw, rfl, rfl, fun s => ?_⟩
  split
  · rename_i hs
    rw [hs, hr]
  · rfl

/-- Of two writes at one reference the second counts. -/
theorem Written.again {m'' : Machine χ σ} {o' : Object χ} (h : m.Written m' r o) (h' : m'.Written m'' r o') : m.Written m'' r o' := by
  refine ⟨h'.wellFormed, h'.registry.trans h.registry, h'.globals.trans h.globals, fun s => ?_⟩
  rw [h'.object, h.object]
  split <;> rfl

/-- Writing a table makes no userdata. -/
theorem Written.userdata_of {t : Ref} {T : Table} (h : m.Written m' t (.table T)) {s : Ref} {u : Userdata}
    (hu : m'.heap.object? s = some (.userdata u)) : m.heap.object? s = some (.userdata u) := by
  rw [h.object] at hu
  split at hu
  · cases hu
  · exact hu

/-- What is there is not what is made. -/
theorem ne_of_not_contains (hr : ¬m.heap.contains r = true) {s : Ref} {p : Object χ} (hs : m.heap.object? s = some p) :
    s ≠ r := by
  rintro rfl
  exact hr (Heap.contains_of_object? hs)

theorem written_put (hw : m.heap.WellFormed) (hr : m.heap.contains r = true) (ho : ∀ t, o = .table t → t.Unique) :
    m.Written { m with heap := m.heap.put r.slot o } r o :=
  ⟨hw.put hr ho, rfl, rfl, Heap.object?_put hr o⟩

theorem registryField_of_table {R : Table} (hR : m.heap.object? m.registry = some (.table R)) (name : String) :
    m.registryField name = .ok (R.field name) := by
  simp only [registryField, rawField, Heap.table_eq_ok_iff.2 hR]

/-- A table under an address of it. -/
theorem rawGet_of_table {t : Ref} {T : Table} (hT : m.heap.object? t = some (.table T)) (a : Address) :
    m.rawGet t (.address a) = .ok (T.get (.address a)) := by
  simp only [rawGet, Heap.table_eq_ok_iff.2 hT, Key.ofValue]

end Machine

namespace Action

variable {m : Machine χ σ}

/-- What an action comes to, when its answer is known. -/
theorem eq_of_fst {x : Action χ σ α} {r : Except Fault α} (h : (x m).1 = r) : x m = (r, (x m).2) := by
  rw [← h]

theorem bind_of_ok {x : Action χ σ α} {f : α → Action χ σ β} {m' : Machine χ σ} {a : α} (h : x m = (.ok a, m')) :
    (x >>= f) m = f a m' := by
  show Action.bind x f m = f a m'
  unfold Action.bind
  rw [h]

theorem bind_of_error {x : Action χ σ α} {f : α → Action χ σ β} {m' : Machine χ σ} {e : Fault} (h : x m = (.error e, m')) :
    (x >>= f) m = (.error e, m') := by
  show Action.bind x f m = (.error e, m')
  unfold Action.bind
  rw [h]

theorem query_of_ok {f : Machine χ σ → Except Fault α} {a : α} (h : f m = .ok a) : query f m = (.ok a, m) := by
  unfold query
  rw [h]

theorem look_eq (m : Machine χ σ) : look m = (.ok m, m) := rfl

theorem onHeap_of_ok {f : Heap χ → Except Fault (Heap χ)} {h' : Heap χ} (h : f m.heap = .ok h') :
    onHeap f m = (.ok (), { m with heap := h' }) := by
  unfold onHeap
  rw [h]

/-- A function of the answer does not change what the machine is afterwards. -/
theorem answer_snd (x : Action χ σ α) (f : α → β) (m : Machine χ σ) : ((x >>= fun a => pure (f a)) m).2 = (x m).2 := by
  show (Action.bind x (fun a => pure (f a)) m).2 = _
  unfold Action.bind
  rcases x m with ⟨e | a, m'⟩ <;> rfl

/-- What holds after a change of the heap and where there is none. -/
theorem onHeap_elim {f : Heap χ → Except Fault (Heap χ)} {P : Machine χ σ → Prop} (hm : P m)
    (hf : ∀ h', f m.heap = .ok h' → P { m with heap := h' }) : P (onHeap f m).2 := by
  unfold onHeap
  cases h : f m.heap with
  | ok h' => exact hf h' h
  | error e => exact hm

/-! ## Making objects -/

theorem exists_allocate (hw : m.heap.WellFormed) {o : Object χ} (ho : ∀ t, o = .table t → t.Unique) :
    ∃ r m', allocate o m = (.ok r, m') ∧ ¬m.heap.contains r = true ∧ m.Written m' r o :=
  ⟨_, _, rfl, hw.not_contains_allocate o, hw.allocate ho, rfl, rfl, hw.object?_allocate o⟩

theorem exists_newTable (hw : m.heap.WellFormed) :
    ∃ t m', newTable m = (.ok t, m') ∧ ¬m.heap.contains t = true ∧ m.Written m' t (.table .empty) :=
  exists_allocate hw fun _ e => Object.table.inj e ▸ Table.unique_empty

theorem exists_newUserdata (hw : m.heap.WellFormed) (p : Payload) :
    ∃ r m', newUserdata p m = (.ok r, m') ∧ ¬m.heap.contains r = true ∧ m.Written m' r (.userdata (.ofPayload p)) :=
  exists_allocate hw fun _ e => nomatch e

/-! ## Overwriting objects -/

variable {t : Ref} {T : Table}

theorem exists_changeTable (hw : m.heap.WellFormed) (hT : m.heap.object? t = some (.table T)) {f : Table → Table}
    (hf : T.Unique → (f T).Unique) :
    ∃ m', onHeap (fun h => h.changeTable t f) m = (.ok (), m') ∧ m.Written m' t (.table (f T)) :=
  ⟨_, onHeap_of_ok (Heap.changeTable_eq_ok_iff.2 ⟨T, hT, rfl⟩), Machine.written_put hw (Heap.contains_of_object? hT)
    fun _ e => Object.table.inj e ▸ hf (hw.unique t T hT)⟩

theorem exists_setField (hw : m.heap.WellFormed) (hT : m.heap.object? t = some (.table T)) (name : String) (v : Value) :
    ∃ m', setField t name v m = (.ok (), m') ∧ m.Written m' t (.table (T.set (.string name) v)) :=
  exists_changeTable hw hT fun hu => hu.set _ _

theorem exists_setAt (hw : m.heap.WellFormed) (hT : m.heap.object? t = some (.table T)) (i : Int64) (v : Value) :
    ∃ m', setAt t i v m = (.ok (), m') ∧ m.Written m' t (.table (T.set (.integer i) v)) :=
  exists_changeTable hw hT fun hu => hu.set _ _

theorem exists_setAddress (hw : m.heap.WellFormed) (hT : m.heap.object? t = some (.table T)) (a : Address) (v : Value) :
    ∃ m', rawSet t (.address a) v m = (.ok (), m') ∧ m.Written m' t (.table (T.set (.address a) v)) :=
  exists_changeTable hw hT fun hu => hu.set _ _

theorem exists_setRegistry (hw : m.heap.WellFormed) (hT : m.heap.object? m.registry = some (.table T)) (name : String)
    (v : Value) :
    ∃ m', setRegistry name v m = (.ok (), m') ∧ m.Written m' m.registry (.table (T.set (.string name) v)) :=
  exists_setField hw hT name v

theorem requireTable_of_table (hT : m.heap.object? t = some (.table T)) : requireTable (some t) m = (.ok (), m) :=
  bind_of_ok (query_of_ok (Heap.table_eq_ok_iff.2 hT))

theorem exists_setMetatable (hw : m.heap.WellFormed) (hT : m.heap.object? t = some (.table T)) {mt : Ref} {N : Table}
    (hN : m.heap.object? mt = some (.table N)) :
    ∃ m', setMetatable (.table t) (some mt) m = (.ok (), m') ∧
      m.Written m' t (.table { T with metatable := some mt }) := by
  rw [setMetatable, bind_of_ok (requireTable_of_table hN)]
  exact exists_changeTable hw hT fun hu => hu

theorem exists_changeUserdata (hw : m.heap.WellFormed) {r : Ref} {u : Userdata}
    (hu : m.heap.object? r = some (.userdata u)) (f : Userdata → Userdata) :
    ∃ m', onHeap (fun h => h.changeUserdata r f) m = (.ok (), m') ∧ m.Written m' r (.userdata (f u)) :=
  ⟨_, onHeap_of_ok (Heap.changeUserdata_eq_ok_iff.2 ⟨u, hu, rfl⟩), Machine.written_put hw (Heap.contains_of_object? hu)
    fun _ e => nomatch e⟩

theorem exists_setEnvironment (hw : m.heap.WellFormed) {r e : Ref} {u : Userdata} {E : Table}
    (hu : m.heap.object? r = some (.userdata u)) (he : m.heap.object? e = some (.table E)) :
    ∃ m', setEnvironment r (some e) m = (.ok (), m') ∧ m.Written m' r (.userdata { u with environment := some e }) := by
  rw [setEnvironment, bind_of_ok (requireTable_of_table he)]
  exact exists_changeUserdata hw hu _

end Action

end ScriptHost

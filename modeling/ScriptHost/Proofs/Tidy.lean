import ScriptHost.Proofs.Listing

/-!
# Actions that keep the listing

An action is tidy when it leads from interned machines to interned machines, and the machine only evolves: names stay with their
tables and plain tables stay plain (`Action.Tidy`). Writes to plain tables and to class tables are tidy, and so is everything
the binding layer does: making its tables, handles and classes.
-/

namespace ScriptHost

variable {χ σ α β : Type}

/-- What holds of a machine holds of every machine it evolves into. -/
def Machine.Lasting (K : Machine χ σ → Prop) : Prop := ∀ m m' : Machine χ σ, m.Evolves m' → K m → K m'

/-- A table in the registry under another name than that of the pointer table. -/
def Machine.IsClass (t : Ref) (m : Machine χ σ) : Prop := ∃ name, name ≠ Registry.pointers ∧ m.Registered name t

/-- The pointer table has been made. -/
def Machine.HasPointers (m : Machine χ σ) : Prop := ∃ p, m.Registered Registry.pointers p

namespace Machine

theorem lasting_isClass (t : Ref) : Lasting (IsClass t : Machine χ σ → Prop) :=
  fun _ _ h ⟨name, hname, hr⟩ => ⟨name, hname, h.registered name t hr⟩

theorem lasting_plain (t : Ref) : Lasting (fun m : Machine χ σ => m.Plain t) := fun _ _ h ht => h.plain t ht

end Machine

namespace Action

/-- From an interned machine with the property the action leads to an interned machine that the first evolves into. -/
def Tidy (K : Machine χ σ → Prop) (x : Action χ σ α) : Prop :=
  ∀ m, m.Interned → K m → (x m).2.Interned ∧ m.Evolves (x m).2

variable {K : Machine χ σ → Prop}

theorem tidy_of_still {x : Action χ σ α} (hx : ∀ m, (x m).2 = m) : Tidy K x := by
  intro m hm _
  rw [hx]
  exact ⟨hm, .refl m⟩

theorem tidy_pure (a : α) : Tidy K (pure a : Action χ σ α) := tidy_of_still fun _ => rfl

theorem tidy_fail (e : Fault) : Tidy K (fail e : Action χ σ α) := tidy_of_still fun _ => rfl

theorem tidy_look : Tidy K (look : Action χ σ (Machine χ σ)) := tidy_of_still fun _ => rfl

theorem tidy_query (f : Machine χ σ → Except Fault α) : Tidy K (query f) := tidy_of_still fun _ => rfl

/-- One tidy action after another, when the second may rely on what the answer of the first says. -/
theorem Tidy.bind_of {x : Action χ σ α} {f : α → Action χ σ β} {Q : α → Machine χ σ → Prop} (hx : Tidy K x)
    (hQ : ∀ m a, m.Interned → K m → (x m).1 = .ok a → Q a (x m).2) (hf : ∀ a, Tidy (Q a) (f a)) : Tidy K (x >>= f) := by
  intro m hm hk
  show (Action.bind x f m).2.Interned ∧ m.Evolves (Action.bind x f m).2
  obtain ⟨hi, he⟩ := hx m hm hk
  have hq := hQ m
  unfold Action.bind
  cases hxm : x m with
  | mk result m' =>
    rw [hxm] at hi he hq
    cases result with
    | error e => exact ⟨hi, he⟩
    | ok a =>
      obtain ⟨hi', he'⟩ := hf a m' hi (hq a hm hk rfl)
      exact ⟨hi', he.trans he'⟩

/-- One tidy action after another, under a property that lasts. -/
theorem Tidy.bind {x : Action χ σ α} {f : α → Action χ σ β} (hK : Machine.Lasting K) (hx : Tidy K x)
    (hf : ∀ a, Tidy K (f a)) : Tidy K (x >>= f) :=
  hx.bind_of (fun m _ hm hk _ => hK m _ (hx m hm hk).2 hk) hf

/-- A function of the answer of a tidy action. -/
theorem Tidy.answer {x : Action χ σ α} (hx : Tidy K x) (f : α → β) : Tidy K (x >>= fun a => pure (f a)) := by
  have hrest : ∀ a, Tidy (fun _ => True) (pure (f a) : Action χ σ β) := fun _ => tidy_pure _
  exact hx.bind_of (fun _ _ _ _ _ => trivial) hrest

/-- What follows on an action that leaves the machine as it is. -/
theorem Tidy.after_still {x : Action χ σ α} {f : α → Action χ σ β} (hx : ∀ m, (x m).2 = m) (hf : ∀ a, Tidy K (f a)) :
    Tidy K (x >>= f) := by
  refine (tidy_of_still hx).bind_of (Q := fun _ m => K m) ?_ hf
  intro m _ _ hk _
  rw [hx]
  exact hk

/-- Tame changes are tidy. -/
theorem tidy_of_tame {x : Action χ σ α} (h : ∀ m, m.Interned → K m → m.Tame (x m).2) : Tidy K x :=
  fun m hm hk => ⟨(h m hm hk).interned hm, (h m hm hk).evolves hm⟩

/-! ## Plain tables, class tables and other objects -/

theorem tidy_allocate {o : Object χ} (ho : ∀ t, o = .table t → t.Unique)
    (hu : ∀ u, o = .userdata u → u.environment = none ∧ ∀ a, u.payload ≠ .handle a) :
    Tidy K (allocate o : Action χ σ Ref) := by
  refine tidy_of_tame fun m hm _ => ?_
  obtain ⟨r, m', h, hfresh, hwritten⟩ := exists_allocate hm.wellFormed ho
  rw [h]
  exact hwritten.tame_new hfresh hu

theorem tidy_newTable : Tidy K (newTable : Action χ σ Ref) :=
  tidy_allocate (fun _ e => Object.table.inj e ▸ Table.unique_empty) (fun _ e => nomatch e)

theorem tidy_newFunction (name : String) (code : Code χ) (upvalues : List Value) :
    Tidy K (newFunction name code upvalues : Action χ σ Ref) :=
  tidy_allocate (fun _ e => nomatch e) (fun _ e => nomatch e)

/-- A new table is plain. -/
theorem plain_newTable {m : Machine χ σ} (hm : m.Interned) {t : Ref} (ht : ((newTable : Action χ σ Ref) m).1 = .ok t) :
    ((newTable : Action χ σ Ref) m).2.Plain t := by
  obtain ⟨r, m', h, hfresh, hwritten⟩ := exists_newTable hm.wellFormed
  have htame : m.Tame m' := hwritten.tame_new hfresh fun _ e => nomatch e
  rw [h] at ht ⊢
  cases ht
  refine ⟨⟨.empty, hwritten.self⟩, ?_⟩
  rw [htame.guarded_iff hm]
  intro hg
  exact hfresh (hm.contains_of_guarded hg)

theorem tidy_onHeap {f : Heap χ → Except Fault (Heap χ)}
    (hf : ∀ (m : Machine χ σ) h', m.Interned → K m → f m.heap = .ok h' → m.Tame { m with heap := h' }) :
    Tidy K (onHeap f) := by
  refine tidy_of_tame fun m hm hk => ?_
  unfold onHeap
  cases hc : f m.heap with
  | error e => exact Machine.tame_of_heap_eq hm.wellFormed rfl rfl rfl
  | ok h' => exact hf m h' hm hk hc

/-- A change of a plain table, or of a class table that still ends writes. -/
theorem tidy_changeTable {t : Ref} {f : Table → Table} (hunique : ∀ T, T.Unique → (f T).Unique)
    (hguard : ∀ m : Machine χ σ, m.Interned → K m → ∀ T, m.heap.object? t = some (.table T) → m.Guarded t →
      (f T).EndsWrites ∧ m.IsClass t) :
    Tidy K (onHeap (fun h => h.changeTable t f) : Action χ σ Unit) := by
  refine tidy_onHeap fun m h' hm hk hc => ?_
  obtain ⟨T, hT, rfl⟩ := Heap.changeTable_eq_ok_iff.1 hc
  have hu : ∀ T', Object.table (χ := χ) (f T) = .table T' → T'.Unique := by
    intro T' e
    cases e
    exact hunique T (hm.wellFormed.unique t T hT)
  exact (Machine.written_put hm.wellFormed (Heap.contains_of_object? hT) hu).tame_table hT (hguard m hm hk T hT)

theorem tidy_store_plain (t : Ref) (k : Key) (v : Value) (hK : ∀ m, K m → m.Interned → ¬m.Guarded t) :
    Tidy K (onHeap (fun h => h.changeTable t (fun table => table.set k v)) : Action χ σ Unit) :=
  tidy_changeTable (fun _ hT => hT.set k v) fun m hm hk _ _ hg => absurd hg (hK m hk hm)

theorem tidy_rawSet (t : Ref) (k v : Value) (hK : ∀ m, K m → m.Interned → ¬m.Guarded t) :
    Tidy K (rawSet t k v : Action χ σ Unit) := by
  unfold rawSet
  split
  · exact tidy_fail _
  · exact tidy_store_plain t _ v hK

theorem tidy_setField_plain (t : Ref) (name : String) (v : Value) (hK : ∀ m, K m → m.Interned → ¬m.Guarded t) :
    Tidy K (setField t name v : Action χ σ Unit) := tidy_store_plain t (.string name) v hK

/-- A class table takes whatever is neither a table nor a userdata. -/
theorem tidy_setField_class (t : Ref) (name : String) {v : Value} (hv : ∀ r, v ≠ .table r ∧ v ≠ .userdata r)
    (hK : ∀ m, K m → m.IsClass t) : Tidy K (setField t name v : Action χ σ Unit) := by
  refine tidy_changeTable (fun _ hT => hT.set _ _) fun m hm hk T hT _ => ⟨?_, hK m hk⟩
  obtain ⟨n, hn, hr⟩ := hK m hk
  obtain ⟨-, T₀, hT₀, hends⟩ := hm.registered n t hr
  rw [hT] at hT₀
  cases hT₀
  intro r
  unfold Table.field
  rw [Table.get_set]
  split
  · exact hv r
  · exact hends r

theorem requireTable_still (r : Option Ref) (m : Machine χ σ) : (requireTable r m).2 = m := by
  cases r with
  | none => rfl
  | some r =>
    show (Action.bind (query fun m => m.heap.table r) (fun _ => pure ()) m).2 = m
    rw [query_bind]
    cases m.heap.table r <;> rfl

/-- What is required to be a table is one. -/
theorem isTable_of_requireTable {r : Ref} {m : Machine χ σ} (h : (requireTable (some r) m).1 = .ok ()) :
    ∃ T, m.heap.object? r = some (.table T) := by
  have hquery : (requireTable (some r) m).1 = Except.map (fun _ => ()) (m.heap.table r) := by
    show (Action.bind (query fun m => m.heap.table r) (fun _ => pure ()) m).1 = _
    rw [query_bind]
    cases m.heap.table r <;> rfl
  rw [hquery] at h
  cases hT : m.heap.table r with
  | error e => rw [hT] at h; cases h
  | ok T => exact ⟨T, Heap.table_eq_ok_iff.1 hT⟩

/-- The metatable of a plain table or of a class table. -/
theorem tidy_setMetatable_table (t : Ref) (mt : Option Ref)
    (hguard : ∀ m, K m → m.Interned → m.Guarded t → m.IsClass t) :
    Tidy K (setMetatable (.table t) mt : Action χ σ Unit) := by
  refine .after_still (requireTable_still mt) fun _ => tidy_changeTable (fun _ hT => hT) fun m hm hk T hT hg => ?_
  obtain ⟨n, hn, hr⟩ := hguard m hk hm hg
  obtain ⟨-, T₀, hT₀, hends⟩ := hm.registered n t hr
  rw [hT] at hT₀
  cases hT₀
  exact ⟨hends, n, hn, hr⟩

/-- A change of a userdata that leaves its address and its flag. -/
theorem tidy_changeUserdata {r : Ref} {f : Userdata → Userdata} (hfin : ∀ u, (f u).finalized = u.finalized)
    (hK : ∀ m : Machine χ σ, m.Interned → K m → ∀ u, m.heap.object? r = some (.userdata u) →
      (∀ a, (f u).payload = .handle a ↔ u.payload = .handle a) ∧
      (∀ e, (f u).environment = some e → u.environment = some e ∨ m.Plain e) ∧
      ∀ a mt, (f u).payload = .handle a → (f u).metatable = some mt →
        u.metatable = some mt ∨ ∃ name, m.Registered name mt) :
    Tidy K (onHeap (fun h => h.changeUserdata r f) : Action χ σ Unit) := by
  refine tidy_onHeap fun m h' hm hk hc => ?_
  obtain ⟨u, hu, rfl⟩ := Heap.changeUserdata_eq_ok_iff.1 hc
  obtain ⟨hpay, henv, hclass⟩ := hK m hm hk u hu
  have hwritten := Machine.written_put (o := .userdata (f u)) hm.wellFormed (Heap.contains_of_object? hu) fun _ e => nomatch e
  exact hwritten.tame_userdata hu (hfin u) hpay henv hclass

/-- The metatable of a userdata: any, unless it is a handle, and a class table then. -/
theorem tidy_setMetatable_userdata (r : Ref) (mt : Option Ref)
    (hclass : ∀ m, K m → m.Interned → (∀ u a, m.heap.object? r = some (.userdata u) → u.payload ≠ .handle a) ∨
      ∀ t, mt = some t → ∃ name, m.Registered name t) :
    Tidy K (setMetatable (.userdata r) mt : Action χ σ Unit) := by
  refine .after_still (requireTable_still mt) fun _ => tidy_changeUserdata (fun _ => rfl) fun m hm hk u hu => ?_
  refine ⟨fun _ => .rfl, fun e he => Or.inl he, fun a t ha ht => ?_⟩
  rcases hclass m hk hm with h | h
  · exact absurd ha (h u a hu)
  · exact Or.inr (h t ht)

end Action

end ScriptHost

import Mathlib.Data.Set.Card
import ScriptHost.Proofs.KeyIdentity
import ScriptHost.Proofs.Runs
import ScriptHost.Proofs.TextTables
import ScriptHost.Proofs.Writes

/-!
# Tables are finite maps

However a table is written to, by a value, a text or an integer, what is written goes into one map from keys to values other than
nil. What one write does is said in `TableEdit.exists_perform`, and from that what a list of writes comes to
(`TableEdit.follow_table`): under each key what the last of them put there that has that key (`Table.get_edits_last`). The entries of
any table of a run are those of the map (`Reached.proper`), and its border is found however its keys lie
(`Table.border_isGreatest`).
-/

namespace ScriptHost

variable {χ σ : Type}

/-! ## Proper tables -/

/-- Each entry holds a value other than nil, under the key of a value. -/
structure Table.Proper (T : Table) : Prop where
  present : ∀ e ∈ T.entries, e.2 ≠ .nil
  keyed : ∀ e ∈ T.entries, ∃ w, Key.ofValue w = .ok e.1

namespace Table

variable {T T' : Table} {k : Key} {v : Value}

theorem proper_empty : Table.empty.Proper := ⟨nofun, nofun⟩

/-- What is left of a proper table is proper. -/
theorem Proper.subset (h : T.Proper) (hsub : T'.entries ⊆ T.entries) : T'.Proper :=
  ⟨fun e he => h.present e (hsub he), fun e he => h.keyed e (hsub he)⟩

theorem Proper.set (h : T.Proper) (hk : ∃ w, Key.ofValue w = .ok k) (v : Value) : (T.set k v).Proper := by
  constructor
  · intro e he
    rcases mem_entries_set he with ⟨rfl, hv⟩ | ⟨he, -⟩
    · exact hv
    · exact h.present e he
  · intro e he
    rcases mem_entries_set he with ⟨rfl, -⟩ | ⟨he, -⟩
    · exact hk
    · exact h.keyed e he

/-- In a proper table a key has an entry if something other than nil is read under it. -/
theorem Proper.isSome_find?_iff (h : T.Proper) : (T.find? k).isSome = true ↔ T.get k ≠ .nil := by
  rw [Option.isSome_iff_exists]
  constructor
  · rintro ⟨v, hv⟩
    rw [get, hv, Option.getD_some]
    exact h.present _ (mem_of_find? hv)
  · exact fun hne => ⟨_, find?_of_get rfl hne⟩

/-- There are as many entries as there are keys under which something other than nil is read. -/
theorem Proper.encard_keys (h : T.Proper) (hT : T.Unique) : {k : Key | T.get k ≠ .nil}.encard = T.size := by
  have hkeys : {k : Key | T.get k ≠ .nil} = ((T.entries.map Prod.fst).toFinset : Set Key) := by
    ext k
    rw [Set.mem_ofPred_eq, ← h.isSome_find?_iff, Option.isSome_iff_exists, Finset.mem_coe, List.mem_toFinset, List.mem_map]
    constructor
    · rintro ⟨v, hv⟩
      exact ⟨_, mem_of_find? hv, rfl⟩
    · rintro ⟨⟨k, v⟩, he, rfl⟩
      exact ⟨v, hT.mem_entries_iff.1 he⟩
  rw [hkeys, Set.encard_coe_eq_coe_finsetCard, List.toFinset_card_of_nodup hT, List.length_map, size]

/-! ## The border -/

/-- The number of a place that is a 64-bit integer. -/
theorem place_eq_iff {n : Nat} {j : Int64} (hn : n < 2 ^ 63) : place n = .integer j ↔ j.toInt = n := by
  rw [place, Key.integer.injEq, ← Int64.toInt_inj, Int64.toInt_ofNat_of_lt hn, eq_comm]

/-- A table has fewer entries than the places one finds that have one. -/
theorem exists_hole (T : Table) (hsize : T.size < 2 ^ 63) : ∃ n ≤ T.size, T.hasIndex (n + 1) = false := by
  by_contra hfull
  have hfull : ∀ n ≤ T.size, T.hasIndex (n + 1) = true := by simpa using hfull
  have hsubset : ((List.range (T.size + 1)).map fun n => place (n + 1)) ⊆ T.entries.map Prod.fst := by
    intro k hk
    obtain ⟨n, hn, rfl⟩ := List.mem_map.1 hk
    obtain ⟨v, hv⟩ := Option.isSome_iff_exists.1 (hfull n (Nat.le_of_lt_succ (List.mem_range.1 hn)))
    exact List.mem_map.2 ⟨_, mem_of_find? hv, rfl⟩
  have hle := (List.subperm_of_subset (nodup_places (by omega)) hsubset).length_le
  simp [size] at hle

/-- The places up to the border have entries, and the one after it has none. -/
theorem border_spec (T : Table) (hsize : T.size < 2 ^ 63) :
    T.border ≤ T.size ∧ T.hasIndex (T.border + 1) = false ∧ ∀ n < T.border, T.hasIndex (n + 1) = true := by
  obtain ⟨n, hn, hhole⟩ := T.exists_hole hsize
  unfold border
  cases hfind : (List.range (T.size + 1)).find? fun n => !T.hasIndex (n + 1) with
  | none =>
    have hnone := List.find?_eq_none.1 hfind n (List.mem_range.2 (Nat.lt_succ_of_le hn))
    simp [hhole] at hnone
  | some b =>
    obtain ⟨hb, hmem, hbefore⟩ := List.find?_range_eq_some.1 hfind
    refine ⟨Nat.le_of_lt_succ (List.mem_range.1 hmem), by simpa using hb, fun n hn => ?_⟩
    simpa using hbefore n hn

/-- The border is the largest number such that the integers from one to it all have something other than nil, whatever other keys
there are. -/
theorem Proper.border_isGreatest (h : T.Proper) (hsize : T.size < 2 ^ 63) :
    IsGreatest {n : Nat | ∀ i : Nat, 1 ≤ i → i ≤ n → ∃ j : Int64, j.toInt = i ∧ T.get (.integer j) ≠ .nil} T.border := by
  obtain ⟨hle, hend, hbefore⟩ := T.border_spec hsize
  have hplace : ∀ i : Nat, i < 2 ^ 63 → ((∃ j : Int64, j.toInt = i ∧ T.get (.integer j) ≠ .nil) ↔ T.hasIndex i = true) := by
    intro i hi
    rw [hasIndex, h.isSome_find?_iff]
    constructor
    · rintro ⟨j, hj, hget⟩
      rwa [← (place_eq_iff hi).2 hj] at hget
    · exact fun hget => ⟨_, (place_eq_iff hi).1 rfl, hget⟩
  constructor
  · intro i hi hle
    obtain ⟨i, rfl⟩ := Nat.exists_eq_add_of_le' hi
    exact (hplace (i + 1) (by omega)).2 (hbefore i hle)
  · intro n hn
    by_contra hlt
    obtain ⟨j, hj, hget⟩ := hn (T.border + 1) (by omega) (by omega)
    have hbound : T.border + 1 < 2 ^ 63 := by
      have := j.toInt_lt
      omega
    rw [(hplace _ hbound).1 ⟨j, hj, hget⟩] at hend
    cases hend

end Table

/-! ## The tables of a run -/

namespace Machine

variable {m m' : Machine χ σ} {t : Ref} {T : Table}

/-- The tables of a machine are proper. -/
def Proper (m : Machine χ σ) : Prop := ∀ t T, m.heap.object? t = some (.table T) → T.Proper

/-- An object that is put in the place of another one. -/
theorem Proper.put (hm : m.Proper) {r : Ref} {o : Object χ} (hr : m.heap.contains r = true) (ho : ∀ T, o = .table T → T.Proper) :
    Machine.Proper { m with heap := m.heap.put r.slot o } := by
  intro s S hS
  rw [Heap.object?_put hr] at hS
  split at hS
  · exact ho S (Option.some.inj hS)
  · exact hm s S hS

theorem Proper.step (hm : m.Proper) (hw : m.heap.WellFormed) (hs : m.Step m') : m'.Proper := by
  cases hs with
  | heap hh =>
    cases hh with
    | allocate o ho =>
      intro s S hS
      rw [hw.object?_allocate] at hS
      split at hS
      · cases Option.some.inj hS
        cases ho
        exact Table.proper_empty
      · exact hm s S hS
    | store k v ht hk => exact hm.put (Heap.contains_of_object? ht) fun _ e => Object.table.inj e ▸ (hm _ _ ht).set hk v
    | erase k ht =>
      refine hm.put (Heap.contains_of_object? ht) fun _ e => Object.table.inj e ▸ ?_
      exact (hm _ _ ht).subset (List.filter_subset_self _)
    | tableClass mt ht =>
      refine hm.put (Heap.contains_of_object? ht) fun _ e => Object.table.inj e ▸ ?_
      exact (hm _ _ ht).subset (List.Subset.refl _)
    | userdata hu _ => exact hm.put (Heap.contains_of_object? hu) nofun
  | _ => exact hm

/-- A table after a collection was there before it, with the entries it has and perhaps others. -/
theorem exists_of_swept_table (hT : m.swept.heap.object? t = some (.table T)) :
    ∃ T₀, m.heap.object? t = some (.table T₀) ∧ T.entries ⊆ T₀.entries := by
  have hr := contains_swept_iff.1 (Heap.contains_of_object? hT)
  obtain ⟨o, ho⟩ := Heap.contains_iff.1 hr.contains
  cases o with
  | table T₀ =>
    cases (swept_table hr ho).symm.trans hT
    exact ⟨T₀, ho, fun e he => (mem_remaining_iff.1 he).1⟩
  | userdata u =>
    obtain ⟨u', hu'⟩ : ∃ u', m.swept.heap.object? t = some (.userdata u') := ⟨_, swept_userdata hr ho⟩
    cases hu'.symm.trans hT
  | function f => cases (swept_function hr ho).symm.trans hT

theorem Proper.swept (hm : m.Proper) : m.swept.Proper := by
  intro t T hT
  obtain ⟨T₀, hT₀, hsub⟩ := exists_of_swept_table hT
  exact (hm t T₀ hT₀).subset hsub

theorem proper_start (limits : Limits) (host : σ) : (start limits host : Machine χ σ).Proper := by
  intro t T hT
  cases eq_empty_of_start hT
  exact Table.proper_empty

end Machine

/-- The tables of every machine of a run are proper. -/
theorem Reached.proper {Γ : Host χ σ} {P : Machine χ σ → Request χ σ → Prop} {m : Machine χ σ} (hm : Reached Γ P m) : m.Proper := by
  refine (hm.keep_all (I := fun m => m.heap.WellFormed ∧ m.Proper) ?_ ?_ (fun _ _ _ _ h _ => h) (fun _ _ h => h)).2
  · exact .of_steps (fun _ _ h hs => ⟨hs.wellFormed h.1, h.2.step h.1 hs⟩) (fun _ h _ => ⟨Machine.wellFormed_swept h.1, h.2.swept⟩)
      (fun _ _ _ _ _ h => h) (fun _ _ _ _ _ h => h)
  · exact fun limits host => ⟨Machine.wellFormed_start limits host, Machine.proper_start limits host⟩

/-! ## Changes of a table -/

/-- A raw change of a table: something is stored under a value, a text or an integer, or the entry of a value is removed. -/
inductive TableEdit where
  | set (key v : Value)
  | setField (name : String) (v : Value)
  | setAt (i : Int64) (v : Value)
  | remove (key : Value)
  deriving DecidableEq, Repr

namespace TableEdit

/-- The value under which a table is changed. -/
def key : TableEdit → Value
  | set k _ | remove k => k
  | setField name _ => .string name
  | setAt i _ => .integer i

/-- What is stored, nil where something is removed. -/
def value : TableEdit → Value
  | set _ v | setField _ v | setAt _ v => v
  | remove _ => .nil

/-- Changes a table. A removal answers what was there. -/
def perform (t : Ref) : TableEdit → Action χ σ (Option Value)
  | set k v => do
    Action.rawSet t k v
    return none
  | setField name v => do
    Action.setField t name v
    return none
  | setAt i v => do
    Action.setAt t i v
    return none
  | remove k => Action.remove t k

/-- The machine after changes of a table one after the other, some of which may have been refused. -/
def follow (t : Ref) : List TableEdit → Machine χ σ → Machine χ σ
  | [], m => m
  | e :: rest, m => follow t rest (e.perform t m).2

/-- What a change answers that is not refused. -/
def answer (e : TableEdit) (T : Table) (k : Key) : Option Value :=
  match e with
  | remove _ => T.find? k
  | _ => none

end TableEdit

namespace Table

variable {T : Table} {k : Key} {e : TableEdit} {edits earlier later : List TableEdit}

/-- The table after a change, which is the table before it where the change is refused. -/
def edit (T : Table) (e : TableEdit) : Table :=
  match Key.ofValue e.key with
  | .ok k => T.set k e.value
  | .error _ => T

theorem edit_of_key (T : Table) (h : Key.ofValue e.key = .ok k) : T.edit e = T.set k e.value := by
  rw [edit, h]

theorem edit_of_refused (T : Table) {cause : NoKey} (h : Key.ofValue e.key = .error cause) : T.edit e = T := by
  rw [edit, h]

/-- A change has to do with one key only. -/
theorem get_edit (T : Table) (e : TableEdit) (k : Key) :
    (T.edit e).get k = if Key.ofValue e.key = .ok k then e.value else T.get k := by
  cases h : Key.ofValue e.key with
  | error cause => rw [edit_of_refused T h, if_neg nofun]
  | ok k' =>
    rw [edit_of_key T h, get_set]
    simp only [Except.ok.injEq, eq_comm]

theorem Proper.edit (hT : T.Proper) (e : TableEdit) : (T.edit e).Proper := by
  cases h : Key.ofValue e.key with
  | error cause => exact (edit_of_refused T h).symm ▸ hT
  | ok k => exact (edit_of_key T h).symm ▸ hT.set ⟨_, h⟩ _

/-- What a change keeps, a list of changes keeps. -/
theorem keep_edits {p : Table → Prop} (h : ∀ T e, p T → p (Table.edit T e)) (hT : p T) (edits : List TableEdit) :
    p (edits.foldl Table.edit T) := by
  induction edits generalizing T with
  | nil => exact hT
  | cons e rest ih => exact ih (h T e hT)

/-- What no change has to do with stays as it was. -/
theorem get_edits_other (T : Table) (h : ∀ e ∈ edits, Key.ofValue e.key ≠ .ok k) : (edits.foldl Table.edit T).get k = T.get k := by
  induction edits generalizing T with
  | nil => rfl
  | cons e rest ih =>
    obtain ⟨he, hrest⟩ := List.forall_mem_cons.1 h
    rw [List.foldl_cons, ih _ hrest, get_edit, if_neg he]

/-- Under a key there is what the last change put there that has to do with it. -/
theorem get_edits_last (T : Table) (he : Key.ofValue e.key = .ok k) (hlater : ∀ e' ∈ later, Key.ofValue e'.key ≠ .ok k) :
    ((earlier ++ e :: later).foldl Table.edit T).get k = e.value := by
  rw [List.foldl_append, List.foldl_cons, get_edits_other _ hlater, get_edit, if_pos he]

end Table

namespace TableEdit

variable {m : Machine χ σ} {t : Ref} {T : Table} {e : TableEdit} {k : Key} {edits earlier later : List TableEdit}

/-- A change under what is no key is refused and does nothing. -/
theorem perform_of_refused (t : Ref) (m : Machine χ σ) {cause : NoKey} (h : Key.ofValue e.key = .error cause) :
    e.perform t m = (.error (.key cause), m) := by
  cases e with
  | set k v =>
    have hset : Action.rawSet t k v m = (.error (.key cause), m) := by
      rw [Action.rawSet, show Key.ofValue k = _ from h]
      rfl
    exact Action.bind_of_error hset
  | setField name v => cases h
  | setAt i v => cases h
  | remove k =>
    rw [perform, Action.remove, show Key.ofValue k = _ from h]
    rfl

/-- Any other change is made, and changes nothing but the table. -/
theorem exists_perform (hw : m.heap.WellFormed) (hT : m.heap.object? t = some (.table T)) (h : Key.ofValue e.key = .ok k) :
    ∃ m', e.perform t m = (.ok (e.answer T k), m') ∧ m.Written m' t (.table (T.edit e)) := by
  rw [T.edit_of_key h]
  obtain ⟨m', hwrite, hwritten⟩ := Action.exists_changeTable hw hT (f := fun T => T.set k e.value) fun hu => hu.set _ _
  refine ⟨m', ?_, hwritten⟩
  cases e with
  | set k' v =>
    have hset : Action.rawSet t k' v m = (.ok (), m') := by
      rw [Action.rawSet, show Key.ofValue k' = _ from h]
      exact hwrite
    exact Action.bind_of_ok hset
  | setField name v =>
    cases h
    exact Action.bind_of_ok (x := Action.setField t name v) hwrite
  | setAt i v =>
    cases h
    exact Action.bind_of_ok (x := Action.setAt t i v) hwrite
  | remove k' =>
    rw [perform, Action.remove, show Key.ofValue k' = _ from h]
    show (Action.query _ >>= _) m = _
    rw [Action.bind_of_ok (Action.query_of_ok (Heap.table_eq_ok_iff.2 hT))]
    exact Action.bind_of_ok hwrite

/-- Whether it is refused or made, the table is what it becomes by the change. -/
theorem perform_table (hw : m.heap.WellFormed) (hT : m.heap.object? t = some (.table T)) (e : TableEdit) :
    (e.perform t m).2.heap.WellFormed ∧ (e.perform t m).2.heap.object? t = some (.table (T.edit e)) := by
  cases h : Key.ofValue e.key with
  | error cause =>
    rw [perform_of_refused t m h, T.edit_of_refused h]
    exact ⟨hw, hT⟩
  | ok k =>
    obtain ⟨m', hperform, hwritten⟩ := exists_perform hw hT h
    rw [hperform]
    exact ⟨hwritten.wellFormed, hwritten.self⟩

/-- The table after a list of changes. -/
theorem follow_table (hw : m.heap.WellFormed) (hT : m.heap.object? t = some (.table T)) (edits : List TableEdit) :
    (follow t edits m).heap.WellFormed ∧
      (follow t edits m).heap.object? t = some (.table (edits.foldl Table.edit T)) := by
  induction edits generalizing m T with
  | nil => exact ⟨hw, hT⟩
  | cons e rest ih =>
    obtain ⟨hw', hT'⟩ := perform_table hw hT e
    exact ih hw' hT'

end TableEdit

/-! ## A table as a map -/

namespace Machine

variable {m : Machine χ σ} {t : Ref} {T : Table} {k : Key} {v : Value}

/-- Something other than nil is read under a value. -/
def HasUnder (m : Machine χ σ) (t : Ref) (v : Value) : Prop := ∃ w, m.rawGet t v = .ok w ∧ w ≠ .nil

theorem rawGet_of_key (hT : m.heap.object? t = some (.table T)) (h : Key.ofValue v = .ok k) : m.rawGet t v = .ok (T.get k) := by
  simp only [rawGet, Heap.table_eq_ok_iff.2 hT, h]

theorem rawGet_of_not_keyed (hT : m.heap.object? t = some (.table T)) (h : ¬v.Keyed) : m.rawGet t v = .ok .nil := by
  simp only [rawGet, Heap.table_eq_ok_iff.2 hT]
  cases hk : Key.ofValue v with
  | error cause => rfl
  | ok k => exact absurd (Value.keyed_iff.2 ⟨k, hk⟩) h

theorem hasUnder_iff (hT : m.heap.object? t = some (.table T)) (h : Key.ofValue v = .ok k) : m.HasUnder t v ↔ T.get k ≠ .nil := by
  rw [HasUnder, rawGet_of_key hT h]
  simp

/-- Under a key that is that of no value a proper table has nothing. -/
theorem keys_eq (hT : m.heap.object? t = some (.table T)) (hproper : T.Proper) :
    {k : Key | ∃ v, Key.ofValue v = .ok k ∧ m.HasUnder t v} = {k : Key | T.get k ≠ .nil} := by
  ext k
  rw [Set.mem_ofPred_eq, Set.mem_ofPred_eq]
  constructor
  · rintro ⟨v, hv, hunder⟩
    exact (hasUnder_iff hT hv).1 hunder
  · intro hget
    obtain ⟨v, hv⟩ := hproper.keyed _ (Table.mem_of_find? (Table.find?_of_get rfl hget))
    exact ⟨v, hv, (hasUnder_iff hT hv).2 hget⟩

end Machine

section

variable {Γ : Host χ σ} {P : Machine χ σ → Request χ σ → Prop} {m : Machine χ σ} {t : Ref} {T : Table}

/-- **Tables are finite maps to values other than nil.** Stores and removals under any values, texts and integers are made on a table
of a run, one after the other. Each of them under nil or a NaN is refused and does nothing; the others are made, and a removal answers
what was there. Under a value there is afterwards what the last of them put there that was made under the same value, and otherwise what
was there before, which is nothing in a new table. A text and an integer are read as any other value is. No entry holds nil, and there
are as many as there are keys under which something other than nil is read. The length is the largest number such that there is
something under each integer from one to it, as long as there are fewer entries than integers. -/
theorem tables_are_finite_maps (hm : Reached Γ P m) (hT : m.heap.object? t = some (.table T)) (edits : List TableEdit) :
    (∀ earlier e later, edits = earlier ++ e :: later →
      (∀ cause, Key.ofValue e.key = .error cause →
        e.perform t (TableEdit.follow t earlier m) = (.error (.key cause), TableEdit.follow t earlier m)) ∧
      (e.key.Keyed → ∃ answer, (e.perform t (TableEdit.follow t earlier m)).1 = .ok answer ∧
        ∀ k, e = .remove k → (TableEdit.follow t earlier m).rawGet t k = .ok (answer.getD .nil))) ∧
    (∀ k : Value, k.Keyed → (∀ earlier e later, edits = earlier ++ e :: later → k.rawEqual e.key = true →
      (∀ e' ∈ later, k.rawEqual e'.key = false) → (TableEdit.follow t edits m).rawGet t k = .ok e.value)) ∧
    (∀ k : Value, k.Keyed → (∀ e ∈ edits, k.rawEqual e.key = false) →
      (TableEdit.follow t edits m).rawGet t k = m.rawGet t k ∧
        (T.entries = [] → (TableEdit.follow t edits m).rawGet t k = .ok .nil)) ∧
    (∀ k : Value, ¬k.Keyed → (TableEdit.follow t edits m).rawGet t k = .ok .nil) ∧
    (∀ name, (TableEdit.follow t edits m).rawField t name = (TableEdit.follow t edits m).rawGet t (.string name)) ∧
    (∀ i, (TableEdit.follow t edits m).rawIndex t i = (TableEdit.follow t edits m).rawGet t (.integer i)) ∧
    ∃ T', (TableEdit.follow t edits m).heap.object? t = some (.table T') ∧ (∀ e ∈ T'.entries, e.2 ≠ .nil) ∧
      {k : Key | ∃ v, Key.ofValue v = .ok k ∧ (TableEdit.follow t edits m).HasUnder t v}.encard = T'.size ∧
      (T'.size < 2 ^ 63 → ∃ n, (TableEdit.follow t edits m).rawLength t = .ok n ∧
        IsGreatest {n : Nat | ∀ i : Nat, 1 ≤ i → i ≤ n →
          ∃ j : Int64, j.toInt = i ∧ (TableEdit.follow t edits m).HasUnder t (.integer j)} n) := by
  have hw := hm.wellFormed
  obtain ⟨hw', hT'⟩ := TableEdit.follow_table hw hT edits
  have hproper : (edits.foldl Table.edit T).Proper := Table.keep_edits (fun _ e h => h.edit e) (hm.proper t T hT) edits
  have hunique : (edits.foldl Table.edit T).Unique := hw'.unique _ _ hT'
  refine ⟨fun earlier e later _ => ?_, fun k hk earlier e later hedits he hlater => ?_, fun k hk hother => ?_,
    fun k hk => Machine.rawGet_of_not_keyed hT' hk, fun name => rfl, fun i => rfl, _, hT', hproper.present, ?_, fun hsize => ?_⟩
  · obtain ⟨hw₁, hT₁⟩ := TableEdit.follow_table hw hT earlier
    refine ⟨fun cause => TableEdit.perform_of_refused t _, fun hkeyed => ?_⟩
    obtain ⟨key, hkey⟩ := Value.keyed_iff.1 hkeyed
    obtain ⟨m₂, hperform, -⟩ := TableEdit.exists_perform hw₁ hT₁ hkey
    refine ⟨_, congrArg Prod.fst hperform, ?_⟩
    rintro k rfl
    exact Machine.rawGet_of_key hT₁ hkey
  · obtain ⟨key, hkey⟩ := Value.keyed_iff.1 hk
    have hsame : ∀ w, k.rawEqual w = true ↔ Key.ofValue w = .ok key := fun w => Value.rawEqual_iff_of_key hkey
    rw [Machine.rawGet_of_key hT' hkey, hedits, Table.get_edits_last T ((hsame _).1 he)]
    exact fun e' he' hkey' => Bool.eq_false_iff.1 (hlater e' he') ((hsame _).2 hkey')
  · obtain ⟨key, hkey⟩ := Value.keyed_iff.1 hk
    have hget : (edits.foldl Table.edit T).get key = T.get key := by
      refine Table.get_edits_other T fun e he hkey' => ?_
      exact Bool.eq_false_iff.1 (hother e he) ((Value.rawEqual_iff_of_key hkey).2 hkey')
    rw [Machine.rawGet_of_key hT' hkey, Machine.rawGet_of_key hT hkey, hget]
    refine ⟨rfl, fun hempty => ?_⟩
    rw [Table.get, Table.find?, hempty]
    rfl
  · rw [Machine.keys_eq hT' hproper]
    exact hproper.encard_keys hunique
  · refine ⟨(edits.foldl Table.edit T).border, by simp only [Machine.rawLength, Heap.table_eq_ok_iff.2 hT'], ?_⟩
    have hinteger : ∀ j, (TableEdit.follow t edits m).HasUnder t (.integer j) ↔
        (edits.foldl Table.edit T).get (.integer j) ≠ .nil := fun j => Machine.hasUnder_iff hT' rfl
    simpa only [hinteger] using hproper.border_isGreatest hsize

end

/-- Changes of a table under one integer and under the double that is the same, under what is no key, and under other keys. -/
def mixedEdits : List TableEdit :=
  [.set (.number ⟨0x3FF0000000000000⟩) (.string "first"), .setField "n" (.integer 5), .setAt 1 (.string "second"),
    .set .nil (.boolean true), .remove (.string "n"), .setAt 3 (.boolean true), .setAt (-1) (.boolean true),
    .set (.number ⟨0x7FF8000000000000⟩) (.boolean true)]

/-- In a new machine the table of the globals, which is empty, is a map after these changes: under the integer there is what was stored
last, the removed text has nothing, and the length is one. -/
theorem globals_are_finite_map :
    Reached (fun (_ : Unit) _ => (pure [] : Prog Unit Unit (List Value))) (fun _ _ => True) (.start .standard ()) ∧
    (Machine.start .standard () : Machine Unit Unit).heap.object? ⟨1, 0⟩ = some (.table .empty) ∧
    (TableEdit.follow ⟨1, 0⟩ mixedEdits (.start .standard () : Machine Unit Unit)).rawGet ⟨1, 0⟩ (.integer 1) =
      .ok (.string "second") ∧
    (TableEdit.follow ⟨1, 0⟩ mixedEdits (.start .standard () : Machine Unit Unit)).rawGet ⟨1, 0⟩ (.string "n") = .ok .nil ∧
    IsGreatest {n : Nat | ∀ i : Nat, 1 ≤ i → i ≤ n → ∃ j : Int64, j.toInt = i ∧
      (TableEdit.follow ⟨1, 0⟩ mixedEdits (.start .standard () : Machine Unit Unit)).HasUnder ⟨1, 0⟩ (.integer j)} 1 := by
  have hstart : Reached (fun (_ : Unit) _ => (pure [] : Prog Unit Unit (List Value))) (fun _ _ => True) (.start .standard ()) :=
    .start _ _
  have hempty : (Machine.start .standard () : Machine Unit Unit).heap.object? ⟨1, 0⟩ = some (.table .empty) := by decide
  obtain ⟨-, hlast, -, -, -, -, T', hT', -, -, hlength⟩ := tables_are_finite_maps hstart hempty mixedEdits
  refine ⟨hstart, hempty, ?_, ?_, ?_⟩
  · exact hlast (.integer 1) ⟨nofun, nofun⟩ (mixedEdits.take 2) _ (mixedEdits.drop 3) rfl (by decide) (by decide +kernel)
  · exact hlast (.string "n") ⟨nofun, nofun⟩ (mixedEdits.take 4) _ (mixedEdits.drop 5) rfl (by decide) (by decide +kernel)
  · have hborder : ((TableEdit.follow ⟨1, 0⟩ mixedEdits (.start .standard () : Machine Unit Unit)).heap.table ⟨1, 0⟩).toOption.map
        (fun T => (T.size, T.border)) = some (3, 1) := by decide +kernel
    rw [Heap.table_eq_ok_iff.2 hT'] at hborder
    obtain ⟨hsize, hone⟩ := Prod.mk.inj (Option.some.inj hborder)
    obtain ⟨n, hn, hgreatest⟩ := hlength (by omega)
    simp only [Machine.rawLength, Heap.table_eq_ok_iff.2 hT', hone, Except.ok.injEq] at hn
    rwa [← hn] at hgreatest

end ScriptHost

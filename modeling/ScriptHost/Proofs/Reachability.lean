import ScriptHost.Proofs.Heap

/-!
# What a set of references keeps alive

`Heap.Holds` says which object holds on to which, one rule for each kind of strong edge, and `Heap.Kept` closes a set of
references under it: the least set of live references with the ones the set starts from and everything they hold on to. A
collection of a machine starts from its roots (`Machine.IsRoot`), takes up the userdata outside that still have a finalizer to
run (`Machine.Doomed`), and lets live what the two keep together (`Machine.Survives`).

`Holds` does not mention the lists of edges the marking reads; `mem_strong_iff` says that they list the same edges.
-/

namespace ScriptHost

variable {χ σ : Type}

/-! ## Strong edges -/

namespace Heap

/-- The metatable of a table has a text under `__mode`, and the letter is in it: `k` for weak keys, `v` for weak values. -/
def ModeSays (h : Heap χ) (t : Table) (letter : Char) : Prop :=
  ∃ mt named mode, t.metatable = some mt ∧ h.object? mt = some (.table named) ∧
    named.field "__mode" = .string mode ∧ letter ∈ mode.toList

/-- A table without a metatable holds nothing weakly. -/
theorem not_modeSays_of_metatable_none {h : Heap χ} {t : Table} (hmt : t.metatable = none) (letter : Char) :
    ¬h.ModeSays t letter := by
  rintro ⟨mt, named, mode, hsome, -⟩
  cases hmt.symm.trans hsome

/-- Nor does a table that is its own metatable and has no text under `__mode`. -/
theorem not_modeSays_of_self {h : Heap χ} {r : Ref} {t : Table} (ht : h.object? r = some (.table t)) (hmt : t.metatable = some r)
    (hmode : ∀ s, t.field "__mode" ≠ .string s) (letter : Char) : ¬h.ModeSays t letter := by
  rintro ⟨mt, named, mode, hsome, hnamed, htext, -⟩
  cases hmt.symm.trans hsome
  cases ht.symm.trans hnamed
  exact hmode _ htext

/-- The first reference finds an object that holds on to the second. -/
inductive Holds (h : Heap χ) : Ref → Ref → Prop where
  | metatable {r mt : Ref} {t : Table} : h.object? r = some (.table t) → t.metatable = some mt → Holds h r mt
  | key {r s : Ref} {t : Table} {k : Key} {v : Value} :
      h.object? r = some (.table t) → ¬h.ModeSays t 'k' → (k, v) ∈ t.entries → k.ref? = some s → Holds h r s
  | value {r s : Ref} {t : Table} {k : Key} {v : Value} :
      h.object? r = some (.table t) → ¬h.ModeSays t 'v' → (k, v) ∈ t.entries → v.ref? = some s → Holds h r s
  | classOf {r mt : Ref} {u : Userdata} : h.object? r = some (.userdata u) → u.metatable = some mt → Holds h r mt
  | environment {r e : Ref} {u : Userdata} :
      h.object? r = some (.userdata u) → u.environment = some e → Holds h r e
  | upvalue {r s : Ref} {f : NativeFunction χ} {v : Value} :
      h.object? r = some (.function f) → v ∈ f.upvalues → v.ref? = some s → Holds h r s

/-- The least set of live references that has those of a set and whatever they hold on to. -/
inductive Kept (h : Heap χ) (start : Ref → Prop) : Ref → Prop where
  | root {r : Ref} : start r → h.contains r = true → Kept h start r
  | held {r s : Ref} : Kept h start r → h.Holds r s → h.contains s = true → Kept h start s

theorem Kept.contains {h : Heap χ} {start : Ref → Prop} {r : Ref} (hr : h.Kept start r) : h.contains r = true := by
  cases hr with
  | root _ hc => exact hc
  | held _ _ hc => exact hc

/-- What is kept is the least set: any set with the start that is closed under holding has all of it. -/
theorem Kept.least {h : Heap χ} {start : Ref → Prop} {S : Ref → Prop}
    (hstart : ∀ r, start r → h.contains r = true → S r)
    (hclosed : ∀ r s, S r → h.Holds r s → h.contains s = true → S s) {r : Ref} (hr : h.Kept start r) : S r := by
  induction hr with
  | root hs hc => exact hstart _ hs hc
  | held _ he hc ih => exact hclosed _ _ ih he hc

theorem Kept.mono {h : Heap χ} {S T : Ref → Prop} (hST : ∀ r, S r → T r) {r : Ref} (hr : h.Kept S r) : h.Kept T r :=
  hr.least (fun _ hs hc => .root (hST _ hs) hc) (fun _ _ hs he hc => hs.held he hc)

/-! ## The edges that marking reads -/

/-- The weak mode of a table is read off a text, whose letters are those the mode says, or the mode says nothing. -/
theorem weakMode_cases (h : Heap χ) (t : Table) :
    (∃ mode : String, h.weakMode t = .ofText mode ∧ ∀ c, h.ModeSays t c ↔ c ∈ mode.toList) ∨
      (h.weakMode t = .strong ∧ ∀ c, ¬h.ModeSays t c) := by
  unfold weakMode ModeSays
  cases hmt : t.metatable with
  | none => simp
  | some mt =>
    cases ht : h.table mt with
    | error e =>
      refine Or.inr ⟨by simp [ht], ?_⟩
      rintro c ⟨mt', named, mode, hmt', ho, -⟩
      rw [Option.some.inj hmt', table_eq_ok_iff.2 ho] at ht
      cases ht
    | ok named =>
      have ho := table_eq_ok_iff.1 ht
      cases hf : named.field "__mode" with
      | string mode =>
        refine Or.inl ⟨mode, by simp [ht, hf], fun c => ⟨?_, fun hc => ⟨mt, named, mode, rfl, ho, hf, hc⟩⟩⟩
        rintro ⟨mt', named', mode', hmt', ho', hf', hc⟩
        cases hmt'
        rw [ho] at ho'
        cases ho'
        rw [hf] at hf'
        cases hf'
        exact hc
      | _ =>
        refine Or.inr ⟨by simp [ht, hf], ?_⟩
        rintro c ⟨mt', named', mode', hmt', ho', hf', -⟩
        cases hmt'
        rw [ho] at ho'
        cases ho'
        rw [hf] at hf'
        cases hf'

theorem weakMode_keys_iff {h : Heap χ} {t : Table} : (h.weakMode t).keys = true ↔ h.ModeSays t 'k' := by
  rcases h.weakMode_cases t with ⟨mode, hw, hc⟩ | ⟨hw, hc⟩
  · simp [hw, hc, WeakMode.ofText]
  · simp [hw, hc, WeakMode.strong]

theorem weakMode_values_iff {h : Heap χ} {t : Table} : (h.weakMode t).values = true ↔ h.ModeSays t 'v' := by
  rcases h.weakMode_cases t with ⟨mode, hw, hc⟩ | ⟨hw, hc⟩
  · simp [hw, hc, WeakMode.ofText]
  · simp [hw, hc, WeakMode.strong]

theorem mem_strongEntry_iff {w : WeakMode} {k : Key} {v : Value} {s : Ref} :
    s ∈ strongEntry w (k, v) ↔ (w.keys = false ∧ k.ref? = some s) ∨ (w.values = false ∧ v.ref? = some s) := by
  cases w with
  | mk wk wv => cases wk <;> cases wv <;> simp [strongEntry]

/-- The edges that marking reads off an object are the strong edges. -/
theorem mem_strong_iff {h : Heap χ} {r s : Ref} : s ∈ h.strong r ↔ h.Holds r s := by
  unfold strong
  constructor
  · intro hs
    cases ho : h.object? r with
    | none => simp [ho] at hs
    | some o =>
      simp only [ho, Option.map_some, Option.getD_some] at hs
      cases o with
      | table t =>
        simp only [strongEdges, List.mem_append, Option.mem_toList, List.mem_flatMap] at hs
        rcases hs with hs | ⟨⟨k, v⟩, he, hs⟩
        · exact .metatable ho hs
        · rcases mem_strongEntry_iff.1 hs with ⟨hw, hs⟩ | ⟨hw, hs⟩
          · exact .key ho (by simp [← weakMode_keys_iff, hw]) he hs
          · exact .value ho (by simp [← weakMode_values_iff, hw]) he hs
      | userdata u =>
        simp only [strongEdges, List.mem_append, Option.mem_toList] at hs
        rcases hs with hs | hs
        · exact .classOf ho hs
        · exact .environment ho hs
      | function f =>
        simp only [strongEdges, List.mem_filterMap] at hs
        obtain ⟨v, hv, hs⟩ := hs
        exact .upvalue ho hv hs
  · intro hs
    cases hs with
    | metatable ho hmt => simp [ho, strongEdges, hmt]
    | @key t k v ho hw he hk =>
      have hw' : (h.weakMode t).keys = false := by simpa [← weakMode_keys_iff] using hw
      simp only [ho, strongEdges, Option.map_some, Option.getD_some, List.mem_append, List.mem_flatMap]
      exact Or.inr ⟨(k, v), he, mem_strongEntry_iff.2 (Or.inl ⟨hw', hk⟩)⟩
    | @value t k v ho hw he hv =>
      have hw' : (h.weakMode t).values = false := by simpa [← weakMode_values_iff] using hw
      simp only [ho, strongEdges, Option.map_some, Option.getD_some, List.mem_append, List.mem_flatMap]
      exact Or.inr ⟨(k, v), he, mem_strongEntry_iff.2 (Or.inr ⟨hw', hv⟩)⟩
    | classOf ho hmt => simp [ho, strongEdges, hmt]
    | environment ho he => simp [ho, strongEdges, he]
    | upvalue ho hv hs =>
      simp only [ho, strongEdges, Option.map_some, Option.getD_some, List.mem_filterMap]
      exact ⟨_, hv, hs⟩

/-- Heaps with the same objects and the same edges keep the same. -/
theorem kept_congr {h h' : Heap χ} (hc : ∀ r, h'.contains r = h.contains r) (hs : ∀ r, h'.strong r = h.strong r)
    {start : Ref → Prop} {r : Ref} : h'.Kept start r ↔ h.Kept start r := by
  constructor
  · intro hr
    refine hr.least (fun r hr hl => .root hr (hc r ▸ hl)) fun r s hr he hl => hr.held ?_ (hc s ▸ hl)
    exact mem_strong_iff.1 (hs r ▸ mem_strong_iff.2 he)
  · intro hr
    refine hr.least (fun r hr hl => .root hr ((hc r).trans hl)) fun r s hr he hl => hr.held ?_ ((hc s).trans hl)
    exact mem_strong_iff.1 ((hs r).symm ▸ mem_strong_iff.2 he)

end Heap

/-! ## Roots, finalizers and survivors of a collection -/

theorem Pins.mem_values_iff {s : Pins} {v : Value} : v ∈ s.values ↔ ∃ p, s.get? p = some v := by
  simp only [Pins.values, Pins.get?, List.mem_filterMap, id_eq, Array.mem_toList_iff, exists_eq_right,
    Array.mem_iff_getElem?, Option.join_eq_some_iff]
  exact ⟨fun ⟨i, hi⟩ => ⟨⟨i⟩, hi⟩, fun ⟨p, hp⟩ => ⟨p.index, hp⟩⟩

namespace Machine

/-- What a machine holds on to by itself. -/
def IsRoot (m : Machine χ σ) (r : Ref) : Prop :=
  r = m.registry ∨ r = m.globals ∨ (∃ v ∈ m.stack, v.ref? = some r) ∨
    (∃ p v, m.pins.get? p = some v ∧ v.ref? = some r) ∨ r ∈ m.pending

/-- A userdata that a collection takes up: the roots do not keep it, it was not taken up before, and its metatable has something
under `__gc`. -/
def Doomed (m : Machine χ σ) (r : Ref) : Prop :=
  ¬m.heap.Kept m.IsRoot r ∧ ∃ u mt named, m.heap.object? r = some (.userdata u) ∧ u.finalized = false ∧
    u.metatable = some mt ∧ m.heap.object? mt = some (.table named) ∧ named.field "__gc" ≠ .nil

/-- What lives on after a collection: what the roots keep, and what the userdata taken up keep. -/
def Survives (m : Machine χ σ) : Ref → Prop := m.heap.Kept (fun r => m.heap.Kept m.IsRoot r ∨ m.Doomed r)

/-- The references that marking starts from are the roots. -/
theorem mem_roots_iff {m : Machine χ σ} {r : Ref} : r ∈ m.roots ↔ m.IsRoot r := by
  simp only [roots, IsRoot, List.mem_cons, List.mem_append, List.mem_filterMap, Array.mem_toList_iff, Pins.mem_values_iff,
    or_assoc]
  have hpins : (∃ v, (∃ p, m.pins.get? p = some v) ∧ v.ref? = some r) ↔
      ∃ p v, m.pins.get? p = some v ∧ v.ref? = some r :=
    ⟨fun ⟨v, ⟨p, hp⟩, hr⟩ => ⟨p, v, hp, hr⟩, fun ⟨p, v, hp, hr⟩ => ⟨v, ⟨p, hp⟩, hr⟩⟩
  rw [hpins]

end Machine

end ScriptHost

import ScriptHost.Proofs.Marking
import ScriptHost.Proofs.Table

/-!
# What a collection does before it calls a finalizer

The phases of `Machine.reclaim`, one after the other, each described by what a reference finds after it: `flagAll` flags the
userdata taken up, which changes no edge (`Alike`), `clearWeak` takes weak entries out of marked tables, and the sweep releases
what is not marked. Together they say what every reference finds once the sweep is over (`object?_swept_of_survives`,
`object?_swept_of_not_survives`).
-/

namespace ScriptHost

variable {χ σ : Type}

/-! ## Flagging -/

/-- An object once a collection has taken it up: a userdata is flagged, and nothing else is different. -/
def Object.taken : Object χ → Object χ
  | .userdata u => .userdata { u with finalized := true }
  | o => o

/-- An object is taken up once and for all. -/
theorem Object.taken_comp_taken : Object.taken ∘ Object.taken = (Object.taken : Object χ → Object χ) := by
  funext o
  cases o <;> rfl

namespace Heap

theorem capacity_flagAll (refs : List Ref) (h : Heap χ) : (h.flagAll refs).capacity = h.capacity := by
  unfold flagAll
  induction refs generalizing h with
  | nil => rfl
  | cons r rest ih =>
    rw [List.foldl_cons, ih]
    unfold changeUserdata
    cases h.userdata r <;> simp [Except.toOption]

/-- Flagging what a reference finds; a reference to anything but a userdata flags nothing. -/
theorem object?_flag (h : Heap χ) (r s : Ref) :
    ((h.changeUserdata r (fun u => { u with finalized := true })).toOption.getD h).object? s =
      if s = r then (h.object? s).map Object.taken else h.object? s := by
  cases hc : h.changeUserdata r (fun u => { u with finalized := true }) with
  | ok h' =>
    obtain ⟨u, hu, rfl⟩ := changeUserdata_eq_ok_iff.1 hc
    simp only [Except.toOption, Option.getD_some, object?_put (contains_of_object? hu)]
    by_cases hs : s = r
    · simp [hs, hu, Object.taken]
    · simp [hs]
  | error e =>
    simp only [Except.toOption, Option.getD_none]
    by_cases hs : s = r
    · subst hs
      cases ho : h.object? s with
      | none => simp
      | some o =>
        cases o with
        | userdata u => rw [changeUserdata_eq_ok_iff.2 ⟨u, ho, rfl⟩] at hc; cases hc
        | table t => simp [Object.taken]
        | function f => simp [Object.taken]
    · simp [hs]

theorem object?_flagAll (refs : List Ref) (h : Heap χ) (s : Ref) :
    (h.flagAll refs).object? s = if s ∈ refs then (h.object? s).map Object.taken else h.object? s := by
  unfold flagAll
  induction refs generalizing h with
  | nil => simp
  | cons r rest ih =>
    rw [List.foldl_cons, ih, object?_flag]
    by_cases hsr : s = r
    · subst hsr
      by_cases hs : s ∈ rest
      · simp [hs, Object.taken_comp_taken]
      · simp [hs]
    · simp [hsr]

/-! ## Heaps that differ in flags only -/

/-- Every reference finds the same in both heaps, apart from the flags of userdata. -/
def Alike (h h' : Heap χ) : Prop := ∀ r, (h'.object? r).map Object.taken = (h.object? r).map Object.taken

theorem alike_flagAll (refs : List Ref) (h : Heap χ) : h.Alike (h.flagAll refs) := by
  intro r
  rw [object?_flagAll]
  split
  · rw [Option.map_map, Object.taken_comp_taken]
  · rfl

theorem Alike.symm {h h' : Heap χ} (ha : h.Alike h') : h'.Alike h := fun r => (ha r).symm

theorem Alike.contains {h h' : Heap χ} (ha : h.Alike h') (r : Ref) : h'.contains r = h.contains r := by
  have := congrArg Option.isSome (ha r)
  simpa [Heap.contains] using this

theorem Alike.table {h h' : Heap χ} (ha : h.Alike h') {r : Ref} {t : Table} (ht : h.object? r = some (.table t)) :
    h'.object? r = some (.table t) := by
  have := ha r
  rw [ht] at this
  obtain ⟨o, ho, ht'⟩ := Option.map_eq_some_iff.1 this
  cases o <;> simp_all [Object.taken]

theorem Alike.function {h h' : Heap χ} (ha : h.Alike h') {r : Ref} {f : NativeFunction χ}
    (hf : h.object? r = some (.function f)) : h'.object? r = some (.function f) := by
  have := ha r
  rw [hf] at this
  obtain ⟨o, ho, hf'⟩ := Option.map_eq_some_iff.1 this
  cases o <;> simp_all [Object.taken]

theorem Alike.userdata {h h' : Heap χ} (ha : h.Alike h') {r : Ref} {u : Userdata}
    (hu : h.object? r = some (.userdata u)) :
    ∃ u', h'.object? r = some (.userdata u') ∧ u'.metatable = u.metatable ∧ u'.environment = u.environment := by
  have := ha r
  rw [hu] at this
  obtain ⟨o, ho, hu'⟩ := Option.map_eq_some_iff.1 this
  cases o with
  | userdata u' =>
    simp only [Object.taken, Object.userdata.injEq, Userdata.mk.injEq] at hu'
    exact ⟨u', ho, hu'.2.1, hu'.2.2.1⟩
  | table t => simp [Object.taken] at hu'
  | function f => simp [Object.taken] at hu'

theorem Alike.modeSays {h h' : Heap χ} (ha : h.Alike h') {t : Table} {c : Char} (hm : h.ModeSays t c) :
    h'.ModeSays t c := by
  obtain ⟨mt, named, mode, hmt, ho, hf, hc⟩ := hm
  exact ⟨mt, named, mode, hmt, ha.table ho, hf, hc⟩

theorem Alike.modeSays_iff {h h' : Heap χ} (ha : h.Alike h') {t : Table} {c : Char} :
    h'.ModeSays t c ↔ h.ModeSays t c :=
  ⟨ha.symm.modeSays, ha.modeSays⟩

theorem Alike.holds {h h' : Heap χ} (ha : h.Alike h') {r s : Ref} (he : h.Holds r s) : h'.Holds r s := by
  cases he with
  | metatable ho hmt => exact .metatable (ha.table ho) hmt
  | key ho hw he hk => exact .key (ha.table ho) (mt ha.modeSays_iff.1 hw) he hk
  | value ho hw he hv => exact .value (ha.table ho) (mt ha.modeSays_iff.1 hw) he hv
  | classOf ho hmt =>
    obtain ⟨u', ho', hmt', -⟩ := ha.userdata ho
    exact .classOf ho' (hmt'.trans hmt)
  | environment ho he =>
    obtain ⟨u', ho', -, he'⟩ := ha.userdata ho
    exact .environment ho' (he'.trans he)
  | upvalue ho hv hs => exact .upvalue (ha.function ho) hv hs

theorem Alike.kept {h h' : Heap χ} (ha : h.Alike h') {S : Ref → Prop} {r : Ref} (hr : h.Kept S r) : h'.Kept S r :=
  hr.least (fun s hs hc => .root hs ((ha.contains s).trans hc))
    (fun _ s hs he hc => hs.held (ha.holds he) ((ha.contains s).trans hc))

theorem Alike.kept_iff {h h' : Heap χ} (ha : h.Alike h') {S : Ref → Prop} {r : Ref} : h'.Kept S r ↔ h.Kept S r :=
  ⟨ha.symm.kept, ha.kept⟩

/-! ## Finalizers, weak entries and the sweep -/

theorem awaitsFinalizer_iff {h : Heap χ} {r : Ref} :
    h.awaitsFinalizer r = true ↔ ∃ u mt named, h.object? r = some (.userdata u) ∧ u.finalized = false ∧
      u.metatable = some mt ∧ h.object? mt = some (.table named) ∧ named.field "__gc" ≠ .nil := by
  unfold awaitsFinalizer
  cases hu : h.userdata r with
  | error e =>
    simp only [Bool.false_eq_true, false_iff]
    rintro ⟨u, mt, named, ho, -⟩
    rw [userdata_eq_ok_iff.2 ho] at hu
    cases hu
  | ok u =>
    have ho := userdata_eq_ok_iff.1 hu
    constructor
    · intro hw
      simp only at hw
      split at hw
      · rename_i mt hf hmt
        cases ht : h.table mt with
        | error e => simp [ht] at hw
        | ok named =>
          refine ⟨u, mt, named, ho, hf, hmt, table_eq_ok_iff.1 ht, ?_⟩
          intro hnil
          simp [ht, hnil, Value.isNil] at hw
      · cases hw
    · rintro ⟨u', mt, named, ho', hf, hmt, ht, hg⟩
      rw [ho] at ho'
      cases ho'
      simp only [hf, hmt, table_eq_ok_iff.2 ht]
      cases hv : named.field "__gc" <;> simp_all [Value.isNil]

theorem mem_unmarked_iff {h : Heap χ} {marks : Marks} {r : Ref} :
    r ∈ h.unmarked marks ↔ h.contains r = true ∧ ¬marks.has r.slot = true := by
  simp [unmarked, mem_refs_iff]

theorem nodup_unmarked (h : Heap χ) (marks : Marks) : (h.unmarked marks).Nodup := h.nodup_refs.filter _

theorem object?_clearWeak (h : Heap χ) (marks : Marks) (r : Ref) :
    (h.clearWeak marks).object? r =
      if marks.has r.slot = true then (h.object? r).map (h.clearObject marks) else h.object? r := by
  unfold object? clearWeak
  rw [Array.getElem?_mapIdx]
  cases hs : h.slots[r.slot]? with
  | none => simp
  | some x =>
    by_cases hm : marks.has r.slot = true
    · by_cases hg : x.generation = r.generation
      · simp [hm, hg]
      · simp [hm, hg]
    · simp [hm]

/-- What an entry is lost by: which references are live, which userdata they find and which of the live ones are marked. -/
theorem losesEntry_congr {h h' : Heap χ} {marks marks' : Marks} (hcontains : ∀ r, h'.contains r = h.contains r)
    (huserdata : ∀ r, h'.userdata r = h.userdata r) (hmarks : ∀ r, h.contains r = true → marks'.has r.slot = marks.has r.slot) :
    h'.losesEntry marks' = h.losesEntry marks := by
  have hlost : h'.isLost marks' = h.isLost marks := by
    funext r
    unfold isLost
    rw [hcontains]
    cases hc : h.contains r with
    | false => rfl
    | true => rw [hmarks r hc]
  have hfinalized : h'.isFinalized = h.isFinalized := by
    funext r
    unfold isFinalized
    rw [huserdata]
  funext w e
  unfold losesEntry
  rw [hlost, hfinalized]

end Heap

/-! ## The machine in the middle of a collection -/

namespace Machine

/-- The marks of what the roots keep. -/
def held (m : Machine χ σ) : Marks := m.heap.markFrom m.roots (.none m.heap.capacity)

/-- The userdata a collection takes up, in ascending order of their slots. -/
def doomed (m : Machine χ σ) : List Ref := (m.heap.unmarked m.held).filter m.heap.awaitsFinalizer

/-- The heap with the userdata taken up flagged. -/
def flagged (m : Machine χ σ) : Heap χ := m.heap.flagAll m.doomed

/-- The marks of what the roots or the userdata taken up keep. -/
def survivors (m : Machine χ σ) : Marks := m.flagged.markFrom m.doomed m.held

/-- What the sweep releases. -/
def dead (m : Machine χ σ) : List Ref := (m.flagged.clearWeak m.survivors).unmarked m.survivors

/-- The machine in the middle of a collection: the sweep is over, and no finalizer was called yet. -/
def swept (m : Machine χ σ) : Machine χ σ := ({ m with collecting := true } : Machine χ σ).reclaim.2

theorem swept_eq (m : Machine χ σ) :
    m.swept = { m with
      heap := (m.flagged.clearWeak m.survivors).releaseAll m.dead
      pending := m.pending ++ m.doomed
      collecting := true } := rfl

@[simp] theorem registry_swept (m : Machine χ σ) : m.swept.registry = m.registry := by
  rw [swept_eq]

@[simp] theorem globals_swept (m : Machine χ σ) : m.swept.globals = m.globals := by
  rw [swept_eq]

variable {m : Machine χ σ}

theorem size_held (m : Machine χ σ) : m.held.marked.size = m.heap.capacity := by
  simp [held, Heap.size_markFrom, Marks.none]

theorem has_held_iff {r : Ref} (hr : m.heap.contains r = true) :
    m.held.has r.slot = true ↔ m.heap.Kept m.IsRoot r := by
  have hroots : (· ∈ m.roots) = m.IsRoot := funext fun s => propext mem_roots_iff
  rw [held, Heap.markFrom_none_iff m.roots hr, hroots]

theorem mem_doomed_iff {r : Ref} : r ∈ m.doomed ↔ m.Doomed r := by
  rw [doomed, List.mem_filter, Heap.mem_unmarked_iff, Heap.awaitsFinalizer_iff]
  constructor
  · rintro ⟨⟨hc, hn⟩, hw⟩
    exact ⟨mt (has_held_iff hc).2 hn, hw⟩
  · rintro ⟨hn, hw⟩
    obtain ⟨u, mt', named, ho, hrest⟩ := hw
    have hc := Heap.contains_of_object? ho
    exact ⟨⟨hc, mt (has_held_iff hc).1 hn⟩, u, mt', named, ho, hrest⟩

/-- A userdata taken up survives. -/
theorem Doomed.survives {r : Ref} (hr : m.Doomed r) : m.Survives r := by
  obtain ⟨-, u, -, -, hu, -⟩ := id hr
  exact .root (Or.inr hr) (Heap.contains_of_object? hu)

theorem nodup_doomed (m : Machine χ σ) : m.doomed.Nodup := (m.heap.nodup_unmarked m.held).filter _

theorem alike_flagged (m : Machine χ σ) : m.heap.Alike m.flagged := Heap.alike_flagAll _ _

theorem has_survivors_iff {r : Ref} (hr : m.heap.contains r = true) :
    m.survivors.has r.slot = true ↔ m.Survives r := by
  have ha := m.alike_flagged
  have hsize : m.held.marked.size = m.flagged.capacity := by
    rw [flagged, Heap.capacity_flagAll, size_held]
  have hmarks : ∀ s, m.flagged.contains s = true → (m.held.has s.slot = true ↔ m.flagged.Kept m.IsRoot s) := by
    intro s hs
    rw [ha.kept_iff]
    exact has_held_iff ((ha.contains s).symm.trans hs)
  have hstart : (fun s => m.flagged.Kept m.IsRoot s ∨ s ∈ m.doomed) =
      fun s => m.heap.Kept m.IsRoot s ∨ m.Doomed s := by
    funext s
    rw [ha.kept_iff, mem_doomed_iff]
  rw [survivors, Heap.markFrom_iff hsize hmarks m.doomed ((ha.contains r).trans hr), hstart, ha.kept_iff]
  rfl

theorem contains_clearWeak (h : Heap χ) (marks : Marks) (r : Ref) : (h.clearWeak marks).contains r = h.contains r := by
  unfold Heap.contains
  rw [Heap.object?_clearWeak]
  split <;> simp

/-- The sweep releases the live objects that do not survive. -/
theorem mem_dead_iff {r : Ref} : r ∈ m.dead ↔ m.heap.contains r = true ∧ ¬m.Survives r := by
  rw [dead, Heap.mem_unmarked_iff, contains_clearWeak, m.alike_flagged.contains]
  constructor
  · rintro ⟨hc, hn⟩
    exact ⟨hc, mt (has_survivors_iff hc).2 hn⟩
  · rintro ⟨hc, hn⟩
    exact ⟨hc, mt (has_survivors_iff hc).1 hn⟩

theorem nodup_dead (m : Machine χ σ) : m.dead.Nodup := Heap.nodup_unmarked _ _

theorem object?_flagged (r : Ref) :
    m.flagged.object? r = if r ∈ m.doomed then (m.heap.object? r).map Object.taken else m.heap.object? r :=
  Heap.object?_flagAll _ _ _

/-- What survives is found after the sweep, flagged if it was taken up and without the weak entries it loses. -/
theorem object?_swept_of_survives {r : Ref} (hr : m.Survives r) :
    m.swept.heap.object? r = (m.flagged.object? r).map (m.flagged.clearObject m.survivors) := by
  have hdead : r ∉ m.dead := fun hd => (mem_dead_iff.1 hd).2 hr
  rw [swept_eq]
  simp only [Heap.object?_releaseAll, hdead, ↓reduceIte, Heap.object?_clearWeak, (has_survivors_iff hr.contains).2 hr]

/-- Nothing else is found. -/
theorem object?_swept_of_not_survives {r : Ref} (hr : ¬m.Survives r) : m.swept.heap.object? r = none := by
  rw [swept_eq]
  simp only [Heap.object?_releaseAll]
  by_cases hd : r ∈ m.dead
  · simp [hd]
  · have hc : ¬m.heap.contains r = true := fun hc => hd (mem_dead_iff.2 ⟨hc, hr⟩)
    have hc' : (m.flagged.clearWeak m.survivors).contains r = false := by
      rw [contains_clearWeak, m.alike_flagged.contains]
      simpa using hc
    simpa [hd, Heap.contains] using hc'

theorem contains_swept_iff {r : Ref} : m.swept.heap.contains r = true ↔ m.Survives r := by
  constructor
  · intro hc
    refine Classical.byContradiction fun hr => ?_
    simp [Heap.contains, object?_swept_of_not_survives hr] at hc
  · intro hr
    have hc : m.flagged.contains r = true := (m.alike_flagged.contains r).trans hr.contains
    unfold Heap.contains at hc ⊢
    rw [object?_swept_of_survives hr, Option.isSome_map]
    exact hc

/-! ## The three kinds of object -/

/-- Nothing lives on at the reference, or it is stale. -/
theorem isLost_iff {s : Ref} : m.flagged.isLost m.survivors s = true ↔ ¬m.Survives s := by
  unfold Heap.isLost
  rw [m.alike_flagged.contains]
  by_cases hc : m.heap.contains s = true
  · simp [hc, ← has_survivors_iff hc]
  · have hs : ¬m.Survives s := fun hs => hc hs.contains
    simp [hc, hs]

/-- The reference finds a userdata that this collection or an earlier one has taken up. -/
def TakenUp (m : Machine χ σ) (s : Ref) : Prop :=
  ∃ u, m.heap.object? s = some (.userdata u) ∧ (u.finalized = true ∨ m.Doomed s)

theorem isFinalized_iff {s : Ref} : m.flagged.isFinalized s = true ↔ m.TakenUp s := by
  have hflag : m.flagged.isFinalized s = true ↔
      ∃ u, m.flagged.object? s = some (.userdata u) ∧ u.finalized = true := by
    unfold Heap.isFinalized
    cases hu : m.flagged.userdata s with
    | ok u =>
      have ho := Heap.userdata_eq_ok_iff.1 hu
      constructor
      · exact fun hf => ⟨u, ho, hf⟩
      · rintro ⟨u', ho', hf⟩
        rw [ho] at ho'
        cases ho'
        exact hf
    | error e =>
      simp only [Bool.false_eq_true, false_iff]
      rintro ⟨u, ho, -⟩
      rw [Heap.userdata_eq_ok_iff.2 ho] at hu
      cases hu
  rw [hflag, object?_flagged]
  unfold TakenUp
  by_cases hd : s ∈ m.doomed
  · obtain ⟨-, u, -, -, hu, -⟩ := mem_doomed_iff.1 hd
    simp only [hd, ↓reduceIte, hu, Option.map_some, Object.taken]
    exact ⟨fun _ => ⟨u, rfl, Or.inr (mem_doomed_iff.1 hd)⟩, fun _ => ⟨_, rfl, rfl⟩⟩
  · have hn : ¬m.Doomed s := mt mem_doomed_iff.2 hd
    simp [hd, hn]

/-- A collection takes the entry out of a table: its key is held weakly and does not survive, or its value is held weakly and
does not survive or is a userdata that was taken up. -/
def Loses (m : Machine χ σ) (t : Table) (e : Key × Value) : Prop :=
  (m.heap.ModeSays t 'k' ∧ ∃ s, e.1.ref? = some s ∧ ¬m.Survives s) ∨
    (m.heap.ModeSays t 'v' ∧ ∃ s, e.2.ref? = some s ∧ (¬m.Survives s ∨ m.TakenUp s))

theorem losesEntry_iff {t : Table} {e : Key × Value} :
    m.flagged.losesEntry m.survivors (m.flagged.weakMode t) e = true ↔ m.Loses t e := by
  have ha := m.alike_flagged
  simp only [Heap.losesEntry, Loses, Bool.or_eq_true, Bool.and_eq_true, Heap.weakMode_keys_iff,
    Heap.weakMode_values_iff, ha.modeSays_iff, Option.any_eq_true, isLost_iff, isFinalized_iff]

/-- The entries a table is left with. -/
def remaining (m : Machine χ σ) (t : Table) : List (Key × Value) :=
  t.entries.filter (fun e => !m.flagged.losesEntry m.survivors (m.flagged.weakMode t) e)

theorem mem_remaining_iff {t : Table} {e : Key × Value} :
    e ∈ m.remaining t ↔ e ∈ t.entries ∧ ¬m.Loses t e := by
  rw [remaining, List.mem_filter, ← losesEntry_iff, Bool.not_eq_true', Bool.not_eq_true]

/-- What is found under a key once weak entries are taken out: what was found there, unless it is lost. -/
theorem find?_remaining {t : Table} (ht : t.Unique) {k : Key} {v : Value} (hv : t.find? k = some v) :
    (m.Loses t (k, v) → Table.find? { t with entries := m.remaining t } k = none) ∧
      (¬m.Loses t (k, v) → Table.find? { t with entries := m.remaining t } k = some v) := by
  have hkept := ht.find?_filter (fun e => !m.flagged.losesEntry m.survivors (m.flagged.weakMode t) e) k
  rw [hv] at hkept
  unfold remaining
  rw [hkept]
  constructor
  · intro h
    simp [Option.filter, losesEntry_iff.2 h]
  · intro h
    have hnot : m.flagged.losesEntry m.survivors (m.flagged.weakMode t) (k, v) = false := by
      rw [← Bool.not_eq_true, losesEntry_iff]
      exact h
    simp [Option.filter, hnot]

/-- A text has what it had, or nothing. -/
theorem field_remaining {t : Table} (ht : t.Unique) (name : String) :
    Table.field { t with entries := m.remaining t } name = t.field name ∨
      Table.field { t with entries := m.remaining t } name = .nil := by
  have hkept := ht.find?_filter (fun e => !m.flagged.losesEntry m.survivors (m.flagged.weakMode t) e) (.string name)
  unfold Table.field Table.get remaining
  rw [hkept]
  cases t.find? (.string name) with
  | none => exact Or.inr rfl
  | some v =>
    by_cases hp : (!m.flagged.losesEntry m.survivors (m.flagged.weakMode t) (.string name, v)) = true
    · simp [Option.filter, hp]
    · simp [Option.filter, hp]

/-- A table that holds nothing weakly loses nothing. -/
theorem remaining_of_strong {t : Table} (ht : ∀ letter, ¬m.heap.ModeSays t letter) : m.remaining t = t.entries := by
  refine List.filter_eq_self.2 fun e _ => ?_
  rw [Bool.not_eq_true', ← Bool.not_eq_true, losesEntry_iff]
  rintro (⟨hmode, -⟩ | ⟨hmode, -⟩)
  · exact ht 'k' hmode
  · exact ht 'v' hmode

/-- A table without a metatable loses nothing. -/
theorem remaining_of_metatable_none {t : Table} (ht : t.metatable = none) : m.remaining t = t.entries :=
  remaining_of_strong (Heap.not_modeSays_of_metatable_none ht)

theorem clearTable_eq (t : Table) : m.flagged.clearTable m.survivors t = { t with entries := m.remaining t } := by
  unfold Heap.clearTable
  by_cases hw : (m.flagged.weakMode t).isWeak = true
  · simp only [hw, ↓reduceIte]
    rfl
  · have hall : m.remaining t = t.entries := by
      refine List.filter_eq_self.2 fun e _ => ?_
      simp only [WeakMode.isWeak, Bool.or_eq_true, not_or, Bool.not_eq_true] at hw
      simp [Heap.losesEntry, hw.1, hw.2]
    simp [hw, hall]

theorem swept_table {r : Ref} {t : Table} (hr : m.Survives r) (ht : m.heap.object? r = some (.table t)) :
    m.swept.heap.object? r = some (.table { t with entries := m.remaining t }) := by
  rw [object?_swept_of_survives hr, m.alike_flagged.table ht, Option.map_some, Heap.clearObject, clearTable_eq]

theorem swept_function {r : Ref} {f : NativeFunction χ} (hr : m.Survives r)
    (hf : m.heap.object? r = some (.function f)) : m.swept.heap.object? r = some (.function f) := by
  rw [object?_swept_of_survives hr, m.alike_flagged.function hf]
  rfl

theorem swept_userdata {r : Ref} {u : Userdata} (hr : m.Survives r) (hu : m.heap.object? r = some (.userdata u)) :
    m.swept.heap.object? r = some (.userdata { u with finalized := u.finalized || decide (r ∈ m.doomed) }) := by
  rw [object?_swept_of_survives hr, object?_flagged]
  by_cases hd : r ∈ m.doomed
  · simp [hd, hu, Object.taken, Heap.clearObject]
  · simp [hd, hu, Heap.clearObject]

/-- A userdata that is found after the sweep was there before it. -/
theorem exists_of_swept_userdata {r : Ref} {u' : Userdata} (hu' : m.swept.heap.object? r = some (.userdata u')) :
    m.Survives r ∧ ∃ u, m.heap.object? r = some (.userdata u) ∧
      u' = { u with finalized := u.finalized || decide (r ∈ m.doomed) } := by
  have hr := contains_swept_iff.1 (Heap.contains_of_object? hu')
  obtain ⟨o, ho⟩ := Heap.contains_iff.1 hr.contains
  cases o with
  | table t => cases (swept_table hr ho).symm.trans hu'
  | function f => cases (swept_function hr ho).symm.trans hu'
  | userdata u => exact ⟨hr, u, ho, Object.userdata.inj (Option.some.inj (hu'.symm.trans (swept_userdata hr ho)))⟩

end Machine

end ScriptHost

import Mathlib.Data.List.Nodup
import ScriptHost.Proofs.Counting
import ScriptHost.Proofs.Guards

/-!
# The book of cells

A book of cells says how many cells were staged, and which of them are alive, each with the number it was staged as (`CellBook`). It
is kept by looking at what happens and not at any table: a staging adds a cell, and a collection takes out those it frees. A machine
keeps the book (`Machine.Books`) if its table of cells lists exactly what the book has, each cell under its number. Then the table
counts the cells that are alive (`Books.entries`) and holds none of them (`StoresCells.not_holds`). What the book is kept in is left
alone by the events of `Machine.SparesCells`.
-/

namespace ScriptHost

variable {χ σ : Type}

/-! ## Stagings -/

namespace Event

/-- The payload that an event stages, if it stages any. -/
def staged? (m : Machine χ σ) : Event χ σ → Option Payload
  | .ask (.stage p) => some p
  | .ask (.stageInteger v) => some (.int32 (Arguments.initialInteger v))
  | .ask (.stageArguments (.table t)) =>
    (m.heap.table t).toOption.map fun T => .arguments (T.leadingTexts.map Arguments.cut)
  | _ => none

/-- The cell that an event is answered with. -/
def cell? (m : Machine χ σ) : Event χ σ → Option Ref
  | .ask (.stage p) => (Cell.stage p m).1.toOption
  | .ask (.stageInteger v) => (Arguments.stageInteger v m).1.toOption.map StagedInteger.cell
  | .ask (.stageArguments v) => (Arguments.ofValue v m).1.toOption.map StagedArguments.cell
  | _ => none

variable {m m' : Machine χ σ} {e : Event χ σ} {p : Payload} {r : Ref}

/-- What is staged is a cell around the payload, and that is the answer. -/
theorem after_of_staged (h : e.staged? m = some p) (hstage : Cell.stage p m = (.ok r, m')) :
    m.after e = m' ∧ e.cell? m = some r := by
  cases e with
  | ask q =>
    cases q with
    | stage p' =>
      cases h
      show (Cell.stage p m).2 = m' ∧ (Cell.stage p m).1.toOption = some r
      rw [hstage]
      exact ⟨rfl, rfl⟩
    | stageInteger v =>
      cases h
      show (Arguments.stageInteger v m).2 = m' ∧ (Arguments.stageInteger v m).1.toOption.map StagedInteger.cell = some r
      rw [Arguments.stageInteger, Action.bind_of_ok hstage]
      exact ⟨rfl, rfl⟩
    | stageArguments v =>
      cases v with
      | table t =>
        cases hT : m.heap.table t with
        | error cause =>
          simp only [staged?, hT] at h
          cases h
        | ok T =>
          simp only [staged?, hT] at h
          cases h
          have hquery := Action.query_of_ok (f := fun m => m.heap.table t) hT
          show (Arguments.ofValue (.table t) m).2 = m' ∧
            (Arguments.ofValue (.table t) m).1.toOption.map StagedArguments.cell = some r
          rw [Arguments.ofValue, Action.bind_of_ok hquery, Action.bind_of_ok hstage]
          exact ⟨rfl, rfl⟩
      | _ => cases h
    | _ => cases h
  | _ => cases h

/-- An event that stages nothing is no staging, or one of no argument vector, which leaves the machine as it is. -/
theorem after_of_not_staged (h : e.staged? m = none) : ¬e.Stages ∨ m.after e = m := by
  cases e with
  | ask q =>
    cases q with
    | stage | stageInteger => cases h
    | stageArguments v =>
      refine Or.inr ?_
      show (Arguments.ofValue v m).2 = m
      cases v with
      | table t =>
        cases hT : m.heap.table t with
        | error cause =>
          have hquery : Action.query (fun m => m.heap.table t) m = (.error cause, m) := by
            simp only [Action.query, hT]
          rw [Arguments.ofValue, Action.bind_of_error hquery]
        | ok T =>
          simp only [staged?, hT] at h
          cases h
      | _ => rfl
    | _ => exact Or.inl id
  | _ => exact Or.inl id

end Event

/-! ## Books -/

/-- How many cells were staged, and which of them are alive, with the numbers they were staged as. -/
structure CellBook where
  count : Nat
  living : List (Nat × Ref)
  deriving DecidableEq, Repr

/-- The book before anything is staged. -/
def CellBook.empty : CellBook := ⟨0, []⟩

/-- The book after an event: a staging adds the cell under the next number, and a collection takes out the cells that it frees. -/
def CellBook.after (b : CellBook) (m : Machine χ σ) (e : Event χ σ) : CellBook :=
  match e, e.staged? m with
  | .sweep, _ => { b with living := b.living.filter fun c => m.swept.heap.contains c.2 }
  | e, some _ => ⟨b.count + 1, b.living ++ (e.cell? m).toList.map fun r => (b.count + 1, r)⟩
  | _, none => b

/-- The entry of a cell in the table of cells. -/
def Cell.entry (c : Nat × Ref) : Key × Value := (.integer (Int64.ofNat c.1), .userdata c.2)

namespace Machine

/-- The book after events, one after the other. -/
def cellBook (m : Machine χ σ) (b : CellBook) : List (Event χ σ) → CellBook
  | [] => b
  | e :: es => (m.after e).cellBook (b.after m e) es

/-- What the table of cells has, if there is one. -/
def cellEntries (m : Machine χ σ) : List (Key × Value) :=
  ((Registry.find? m Registry.cells).bind fun c => (m.heap.table c).toOption).elim [] Table.entries

variable {m m' : Machine χ σ} {b : CellBook} {e : Event χ σ} {es es' : List (Event χ σ)} {c mt r : Ref} {C : Table}
  {L : List (Nat × Ref)}

/-- The cells that are alive are counted by the entries of their table. -/
theorem cellCount_eq (m : Machine χ σ) : m.cellCount = m.cellEntries.length := by
  unfold cellCount cellEntries
  cases Registry.find? m Registry.cells with
  | none => rfl
  | some c =>
    simp only [Option.bind_some]
    cases m.heap.table c <;> rfl

theorem cellBook_append (es es' : List (Event χ σ)) :
    m.cellBook b (es ++ es') = (m.follow es).cellBook (m.cellBook b es) es' := by
  induction es generalizing m b with
  | nil => rfl
  | cons e es ih => exact ih

end Machine

theorem CellBook.after_of_some (b : CellBook) {m : Machine χ σ} {e : Event χ σ} {p : Payload} (h : e.staged? m = some p) :
    b.after m e = ⟨b.count + 1, b.living ++ (e.cell? m).toList.map fun r => (b.count + 1, r)⟩ := by
  cases e with
  | sweep => cases h
  | _ => simp only [CellBook.after, h]

theorem CellBook.count_after_staged (b : CellBook) {m : Machine χ σ} {e : Event χ σ} {p : Payload} (h : e.staged? m = some p) :
    (b.after m e).count = b.count + 1 := by
  rw [b.after_of_some h]

theorem CellBook.after_staged (b : CellBook) {m : Machine χ σ} {e : Event χ σ} {p : Payload} {r : Ref} (h : e.staged? m = some p)
    (hr : e.cell? m = some r) : b.after m e = ⟨b.count + 1, b.living ++ [(b.count + 1, r)]⟩ := by
  rw [b.after_of_some h, hr]
  rfl

theorem CellBook.after_of_none {b : CellBook} {m : Machine χ σ} {e : Event χ σ} (h : e.staged? m = none) (hsweep : e ≠ .sweep) :
    b.after m e = b := by
  cases e with
  | sweep => exact absurd rfl hsweep
  | _ => simp only [CellBook.after, h]

/-- Events only add to the count, and what they add to the book has a larger number than what was counted. -/
theorem CellBook.after_spec (b : CellBook) (m : Machine χ σ) (e : Event χ σ) :
    b.count ≤ (b.after m e).count ∧ ∀ c ∈ (b.after m e).living, c.1 ≤ b.count → c ∈ b.living := by
  by_cases hsweep : e = .sweep
  · subst hsweep
    exact ⟨Nat.le_refl _, fun c hc _ => List.mem_of_mem_filter hc⟩
  cases h : e.staged? m with
  | none =>
    rw [after_of_none h hsweep]
    exact ⟨Nat.le_refl _, fun c hc _ => hc⟩
  | some p =>
    rw [b.after_of_some h]
    refine ⟨Nat.le_succ _, fun c hc hle => (List.mem_append.1 hc).resolve_right fun hnew => ?_⟩
    obtain ⟨r, -, rfl⟩ := List.mem_map.1 hnew
    exact Nat.not_succ_le_self _ hle

theorem CellBook.cellBook_spec (b : CellBook) (m : Machine χ σ) (es : List (Event χ σ)) :
    b.count ≤ (m.cellBook b es).count ∧ ∀ c ∈ (m.cellBook b es).living, c.1 ≤ b.count → c ∈ b.living := by
  induction es generalizing m b with
  | nil => exact ⟨Nat.le_refl _, fun c hc _ => hc⟩
  | cons e es ih =>
    obtain ⟨hcount, hliving⟩ := b.after_spec m e
    obtain ⟨hcount', hliving'⟩ := ih (b.after m e) (m.after e)
    exact ⟨Nat.le_trans hcount hcount', fun c hc hle => hliving c (hliving' c hc (Nat.le_trans hle hcount)) hle⟩

/-- The number of a cell is counted from its staging on. -/
theorem CellBook.count_lt_of_staged (b : CellBook) (m : Machine χ σ) {e : Event χ σ} {es es' : List (Event χ σ)}
    (h : (e.staged? (m.follow es)).isSome) : (m.cellBook b es).count < (m.cellBook b (es ++ e :: es')).count := by
  obtain ⟨p, hp⟩ := Option.isSome_iff_exists.1 h
  have hle := (((m.cellBook b es).after (m.follow es) e).cellBook_spec ((m.follow es).after e) es').1
  rw [count_after_staged _ hp] at hle
  rw [Machine.cellBook_append]
  exact hle

/-! ## Machines that keep a book -/

/-- Where two tables have the same under all keys, their entries are the same but for their order. -/
theorem Table.SameBut.perm {S : Key → Prop} {T T' : Table} (h : T.SameBut S T') (hS : ∀ k, ¬S k) (hT : T.Unique) (hT' : T'.Unique) :
    T'.entries.Perm T.entries := by
  refine (List.perm_ext_iff_of_nodup (List.Nodup.of_map Prod.fst hT') (List.Nodup.of_map Prod.fst hT)).2 fun e => ?_
  rw [hT'.mem_entries_iff, hT.mem_entries_iff, h.2 _ (hS _)]

namespace Machine

/-- The table of cells, or the metatable that makes it weak. -/
def CellTable (m : Machine χ σ) (t : Ref) : Prop :=
  ∃ c, m.Registered Registry.cells c ∧ (t = c ∨ ∃ C, m.heap.object? c = some (.table C) ∧ C.metatable = some t)

/-- The event leaves what the book is kept in: no table is asked for under the names of the registry for cells, native code writes
neither these entries nor the table of cells or its metatable, and no other name of the registry has one of these or the registry
itself for its table. No handle is staged. -/
structure SparesCells (m : Machine χ σ) (e : Event χ σ) : Prop where
  names : ∀ name, e.Names name → name ≠ Registry.cells ∧ name ≠ Registry.nextCell
  entries : ∀ key v, e.written? m m.registry = some (key, v) → key ≠ .string Registry.cells ∧ key ≠ .string Registry.nextCell
  table : ∀ t, m.CellTable t → e.written? m t = none ∧ ¬e.Reclasses t
  alone : ∀ name t, m.Registered name t → t = m.registry ∨ m.CellTable t → name = Registry.cells
  payload : ∀ p, e.staged? m = some p → ∀ a, p ≠ .handle a

/-- A userdata that no collection has taken up and that is no handle. -/
def IsCell (m : Machine χ σ) (r : Ref) : Prop :=
  ∃ u, m.heap.object? r = some (.userdata u) ∧ u.finalized = false ∧ ∀ a, u.payload ≠ .handle a

/-- The table of cells has the cells, each under its number, and a metatable that makes it weak. -/
structure StoresCells (m : Machine χ σ) (c mt : Ref) (C : Table) (L : List (Nat × Ref)) : Prop where
  table : m.heap.object? c = some (.table C)
  entries : C.entries.Perm (L.map Cell.entry)
  metatable : C.metatable = some mt
  weak : ∃ M, m.heap.object? mt = some (.table M) ∧ M.field Registry.modeName = .string "kv"
  apart : c ≠ m.registry ∧ c ≠ m.globals ∧ mt ≠ m.registry ∧ mt ≠ m.globals ∧ mt ≠ c

/-- The registry counts the cells of the book, and the table of cells has those that are alive. -/
structure Books (m : Machine χ σ) (b : CellBook) : Prop where
  wellFormed : m.heap.WellFormed
  registry : ∃ R, m.heap.object? m.registry = some (.table R)
  globals : m.globals ≠ m.registry ∧ m.heap.contains m.globals = true
  counted : m.CountsTo b.count
  store : ∀ c, m.Registered Registry.cells c → ∃ mt C, m.StoresCells c mt C b.living
  listed : b.living ≠ [] → ∃ c, m.Registered Registry.cells c
  living : ∀ e ∈ b.living, e.1 ≤ b.count ∧ m.IsCell e.2

variable {m m' : Machine χ σ} {b : CellBook} {e : Event χ σ} {es es' : List (Event χ σ)} {c mt r : Ref} {C : Table}
  {L : List (Nat × Ref)}

theorem IsCell.contains (h : m.IsCell r) : m.heap.contains r = true := by
  obtain ⟨u, hu, -⟩ := h
  exact Heap.contains_of_object? hu

/-- On a new machine nothing is staged. -/
theorem books_start (limits : Limits) (host : σ) : (start limits host : Machine χ σ).Books .empty := by
  have hm := (unshared_start limits host : (start limits host : Machine χ σ).Unshared False)
  obtain ⟨hne, -, G, hG⟩ := hm.globals
  exact ⟨hm.wellFormed, hm.registry.imp fun _ h => h.1, ⟨hne, Heap.contains_of_object? hG⟩, countsTo_start limits host,
    fun c hc => (not_registered_start limits host _ c hc).elim, fun h => absurd rfl h, nofun⟩

/-- A machine that keeps the book has the cells in their table that are alive by it, so they are counted. -/
theorem Books.entries (hm : m.Books b) : m.cellEntries.Perm (b.living.map Cell.entry) ∧ m.cellCount = b.living.length := by
  have hperm : m.cellEntries.Perm (b.living.map Cell.entry) := by
    obtain ⟨R, hR⟩ := hm.registry
    unfold cellEntries
    cases hfind : Registry.find? m Registry.cells with
    | none =>
      have hnil : b.living = [] := by
        refine Classical.byContradiction fun hne => ?_
        obtain ⟨c, hc⟩ := hm.listed hne
        rw [(find?_eq_some_iff hR).2 hc] at hfind
        cases hfind
      rw [hnil]
      rfl
    | some c =>
      obtain ⟨mt, C, hstore⟩ := hm.store c ((find?_eq_some_iff hR).1 hfind)
      simp only [Option.bind_some, Heap.table_eq_ok_iff.2 hstore.table]
      exact hstore.entries
  refine ⟨hperm, ?_⟩
  rw [cellCount_eq, hperm.length_eq, List.length_map]

/-- The table of cells holds no cell. -/
theorem StoresCells.not_holds (h : m.StoresCells c mt C L) (hr : m.IsCell r) : ¬m.heap.Holds c r := by
  obtain ⟨M, hM, hmode⟩ := h.weak
  have hweak : ∀ letter ∈ "kv".toList, m.heap.ModeSays C letter := fun letter hletter =>
    (Heap.modeSays_of_field h.metatable hM hmode letter).2 hletter
  intro hholds
  cases hholds with
  | metatable hT hmt =>
    cases h.table.symm.trans hT
    cases h.metatable.symm.trans hmt
    obtain ⟨u, hu, -⟩ := hr
    cases hu.symm.trans hM
  | key hT hnot =>
    cases h.table.symm.trans hT
    exact hnot (hweak 'k' (by decide))
  | value hT hnot =>
    cases h.table.symm.trans hT
    exact hnot (hweak 'v' (by decide))
  | classOf hu => cases h.table.symm.trans hu
  | environment hu => cases h.table.symm.trans hu
  | upvalue hf => cases h.table.symm.trans hf

end Machine

end ScriptHost

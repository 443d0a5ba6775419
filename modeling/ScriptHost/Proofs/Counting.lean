import ScriptHost.Proofs.Minds

/-!
# Counting cells

The cells are listed under the numbers from one on, and the number of the next one is kept in the registry. Only making a cell
counts (`Managed.exists_stage`): no other act and no collection changes the number or puts a cell under another one. So after a
course the number tells how many cells have been made in it, and it is larger than all the numbers that cells are listed under
(`Course.counted`), as long as they are fewer than the largest number.
-/

namespace ScriptHost

variable {χ σ : Type} {strict : Prop}

namespace Cell

/-- How many places there are: as many as the largest 64-bit number, `2 ^ 63 - 1`. -/
def places : Nat := 0x7fffffffffffffff

variable {n : Nat}

/-- A place as a number. -/
theorem toInt_place (hn : n < places) : (Int64.ofNat (n + 1)).toInt = n + 1 := by
  unfold places at hn
  rw [Int64.toInt_ofNat_of_lt (by omega)]
  rfl

/-- The place after one that is not the last. -/
theorem after_place (hn : n + 1 < places) : after (Int64.ofNat (n + 1)) = Int64.ofNat (n + 2) := by
  have hnext : Int64.ofNat (n + 1) + 1 = Int64.ofNat (n + 2) := by
    rw [Int64.ofNat_add (n + 1) 1]
    rfl
  unfold after
  rw [hnext, if_neg]
  rw [Int64.lt_iff_toInt_lt, toInt_place hn]
  simp
  omega

end Cell

/-- How many cells an event makes. What is no table is no argument vector. -/
def Event.stagings (m : Machine χ σ) : Event χ σ → Nat
  | .ask (.stage _) | .ask (.stageInteger _) => 1
  | .ask (.stageArguments (.table t)) => if (m.heap.table t).isOk then 1 else 0
  | _ => 0

namespace Machine

variable {m m' : Machine χ σ} {n : Nat}

/-- How many cells the events make, one after the other. -/
def stagings (m : Machine χ σ) : List (Event χ σ) → Nat
  | [] => 0
  | e :: es => e.stagings m + (m.after e).stagings es

theorem stagings_append (es es' : List (Event χ σ)) :
    m.stagings (es ++ es') = m.stagings es + (m.follow es).stagings es' := by
  induction es generalizing m with
  | nil => exact (Nat.zero_add _).symm
  | cons e es ih =>
    show e.stagings m + (m.after e).stagings (es ++ es') = e.stagings m + (m.after e).stagings es + _
    rw [ih, Nat.add_assoc]
    rfl

/-- So many cells have been counted: the registry has the number of the next one, if there has been any. -/
def CountsTo (m : Machine χ σ) (n : Nat) : Prop :=
  ∀ R, m.heap.object? m.registry = some (.table R) →
    R.field Registry.nextCell = if n = 0 then .nil else .integer (Int64.ofNat (n + 1))

/-- The cells are listed under numbers that are not larger. -/
def CellsUpTo (m : Machine χ σ) (n : Nat) : Prop :=
  ∀ c C, m.Registered Registry.cells c → m.heap.object? c = some (.table C) → ∀ e ∈ C.entries, ∀ i, e.1 = .integer i → i.toInt ≤ n

/-! ## What does not count -/

theorem Act.countsTo {S : Scope} (h : m.Act S m') (hm : m.Orderly S.strict) (hS : ¬S.stages) (hn : m.CountsTo n) :
    m'.CountsTo n := by
  intro R' hR'
  obtain ⟨R, hR, -⟩ := hm.unshared.registry
  rw [h.registry] at hR'
  rcases h.registry_cases hm hR with hsame | ⟨name, s, hf, hset⟩ | ⟨i, hstages, -⟩
  · cases hR'.symm.trans hsame
    exact hn _ hR
  · cases hR'.symm.trans hset
    rw [Table.field, Table.get_set, if_neg]
    · exact hn R hR
    · intro e
      cases e
      exact hf.name_ne rfl
  · exact absurd hstages hS

theorem Act.cellsUpTo {S : Scope} (h : m.Act S m') (hm : m.Orderly S.strict) (hS : ¬S.stages) (hn : m.CellsUpTo n) :
    m'.CellsUpTo n := by
  intro c C' hc hC' e he i hi
  rcases h.registered_of hm hc with hc | hf
  · obtain ⟨-, C, hC⟩ := hm.unshared.registered _ c hc
    rcases h.own_cases hm (by decide) hc hC with hsame | ⟨k, v, hsuits, -⟩
    · cases hC'.symm.trans hsame
      exact hn c _ hc hC e he i hi
    · generalize hname : Registry.cells = name at hsuits
      cases hsuits with
      | cell _ _ hstages => exact absurd hstages hS
      | handle | nothing | enumeration => exact absurd hname (by decide)
  · obtain ⟨C, hC, -, hown⟩ := hf.table
    cases hC'.symm.trans hC
    rw [(hown (by decide)).1] at he
    cases he

/-- What makes no cell leaves the count. -/
theorem lasts_counted {S : Scope} (n : Nat) (hS : ¬S.stages) :
    (acts S : Discipline χ σ).Lasts (fun m => m.CountsTo n ∧ m.CellsUpTo n) :=
  lasts_of_act fun _ _ hm hact h => ⟨hact.countsTo hm.orderly hS h.1, hact.cellsUpTo hm.orderly hS h.2⟩

theorem CountsTo.swept (hn : m.CountsTo n) (hm : m.Orderly strict) : m.swept.CountsTo n := by
  intro R hR
  obtain ⟨R₀, hR₀, hmt⟩ := hm.unshared.registry
  rw [(swept_registry_of_strong hR₀ hmt).2] at hR
  exact hn R hR

theorem CellsUpTo.swept (hn : m.CellsUpTo n) (hm : m.Orderly strict) : m.swept.CellsUpTo n := by
  intro c C hc hC e he i hi
  obtain ⟨hc, C₀, hC₀, rfl⟩ := hm.exists_of_swept hc hC
  exact hn c C₀ hc hC₀ e (mem_remaining_iff.1 he).1 i hi

/-! ## Making a cell -/

/-- The place of the next cell is the one in the registry, which has the place after it then. -/
theorem exists_nextPlace_of_table (hw : m.heap.WellFormed) {R : Table} (hR : m.heap.object? m.registry = some (.table R)) :
    ∃ m', Cell.nextPlace m = (.ok ((R.field Registry.nextCell).integer?.getD 1), m') ∧ m.Written m' m.registry
      (.table (R.set (.string Registry.nextCell) (.integer (Cell.after ((R.field Registry.nextCell).integer?.getD 1))))) := by
  obtain ⟨m', hset, hwritten⟩ := Action.exists_setRegistry hw hR Registry.nextCell
    (.integer (Cell.after ((R.field Registry.nextCell).integer?.getD 1)))
  refine ⟨m', ?_, hwritten⟩
  rw [Cell.nextPlace, Action.bind_of_ok (Action.query_of_ok (registryField_of_table hR _)), Action.bind_of_ok hset]
  rfl

/-- The place of the next cell is one more than how many have been counted, and is counted. -/
theorem exists_nextPlace (hw : m.heap.WellFormed) {R : Table} (hR : m.heap.object? m.registry = some (.table R))
    (hcount : m.CountsTo n) (hn : n + 1 < Cell.places) :
    ∃ m', Cell.nextPlace m = (.ok (Int64.ofNat (n + 1)), m') ∧
      m.Written m' m.registry (.table (R.set (.string Registry.nextCell) (.integer (Int64.ofNat (n + 2))))) := by
  have hplace : (R.field Registry.nextCell).integer?.getD 1 = Int64.ofNat (n + 1) := by
    rw [hcount R hR]
    split
    · rename_i hzero
      rw [hzero]
      rfl
    · rfl
  have hnext := exists_nextPlace_of_table hw hR
  rwa [hplace, Cell.after_place hn] at hnext

/-- A cell is made, counted and listed under its number. -/
theorem Managed.exists_stage (hm : m.Managed strict) {p : Payload} (hp : ∀ a, p ≠ .handle a) (hcount : m.CountsTo n)
    (hcells : m.CellsUpTo n) (hn : n + 1 < Cell.places) :
    ∃ r m', Cell.stage p m = (.ok r, m') ∧ m'.CountsTo (n + 1) ∧ m'.CellsUpTo (n + 1) := by
  -- up to the cell itself, nothing is counted
  let S : Scope := { Scope.wide strict with stages := False }
  have hL := lasts_counted (χ := χ) (σ := σ) (S := S) n fun h => h
  obtain ⟨R, hR, -⟩ := hm.orderly.unshared.registry
  obtain ⟨c, m₁, htable, -⟩ := Action.exists_registryTable hm.orderly.wellFormed hR Registry.cells (some "kv")
  obtain ⟨hm₁, -, hc⟩ := Action.acts_registryTable (S := S) hL (by decide) (by decide) Registry.modeOf_cells m
    ⟨hm, fun _ h => h.elim⟩ ⟨hcount, hcells⟩
  rw [htable] at hm₁ hc
  obtain ⟨r, m₂, hnew, -⟩ := Action.exists_newUserdata hm₁.1.orderly.wellFormed p
  obtain ⟨hm₂, -, hc₂⟩ := Action.acts_newUserdata (S := S) (Action.lasts_and (lasts_registered Registry.cells c) hL) hp m₁ hm₁
    (hc c rfl)
  rw [hnew] at hm₂ hc₂
  obtain ⟨hc₂, hcount₂, hcells₂⟩ := hc₂ r rfl
  obtain ⟨R₂, hR₂, -⟩ := hm₂.1.orderly.unshared.registry
  obtain ⟨hne, C, hC⟩ := hm₂.1.orderly.unshared.registered _ c hc₂
  -- the number goes into the registry, and the cell into the table
  obtain ⟨m₃, hplace, h₃⟩ := exists_nextPlace hm₂.1.orderly.wellFormed hR₂ hcount₂ hn
  obtain ⟨m₄, hset, h₄⟩ :=
    Action.exists_setAt h₃.wellFormed ((h₃.other hne).trans hC) (Int64.ofNat (n + 1)) (.userdata r)
  have hregistry : m₄.heap.object? m₄.registry =
      some (.table (R₂.set (.string Registry.nextCell) (.integer (Int64.ofNat (n + 2))))) := by
    rw [h₄.registry, h₃.registry, h₄.other hne.symm, h₃.self]
  refine ⟨r, m₄, ?_, fun R₄ hR₄ => ?_, fun c' C' hc' hC' e he i hi => ?_⟩
  · rw [Cell.stage, Action.bind_of_ok htable, Action.bind_of_ok hnew, Action.bind_of_ok hplace]
    exact Action.bind_of_ok hset
  · cases hR₄.symm.trans hregistry
    rw [Table.field, Table.get_set, if_pos rfl]
    rfl
  · have hcells' : m₂.Registered Registry.cells c' := by
      rw [registered_iff hregistry, Table.field, Table.get_set, if_neg (by decide)] at hc'
      exact ⟨R₂, hR₂, hc'⟩
    obtain rfl := hcells'.eq hc₂
    cases hC'.symm.trans h₄.self
    rcases Table.mem_entries_set he with ⟨rfl, -⟩ | ⟨he, -⟩
    · cases hi
      rw [Cell.toInt_place (by omega)]
      simp
    · have hle := hcells₂ c' C hcells' hC e he i hi
      omega

/-! ## Events and courses -/

/-- An argument vector is one cell, and what is no table is none. -/
theorem Managed.counted_arguments (hm : m.Managed strict) (v : Value) (hcount : m.CountsTo n) (hcells : m.CellsUpTo n)
    (hn : n + Event.stagings m (.ask (.stageArguments v)) < Cell.places) :
    (Arguments.ofValue v m).2.CountsTo (n + Event.stagings m (.ask (.stageArguments v))) ∧
      (Arguments.ofValue v m).2.CellsUpTo (n + Event.stagings m (.ask (.stageArguments v))) := by
  cases v with
  | table t =>
    cases ht : m.heap.table t with
    | error cause =>
      have hzero : Event.stagings m (.ask (.stageArguments (.table t))) = 0 := by
        simp only [Event.stagings, ht]
        rfl
      have hquery : Action.query (fun m => m.heap.table t) m = (.error cause, m) := by
        simp only [Action.query, ht]
      rw [hzero, Arguments.ofValue, Action.bind_of_error hquery]
      exact ⟨hcount, hcells⟩
    | ok T =>
      have hone : Event.stagings m (.ask (.stageArguments (.table t))) = 1 := by
        simp only [Event.stagings, ht]
        rfl
      rw [hone] at hn ⊢
      obtain ⟨r, m', h, hcounted⟩ := hm.exists_stage (p := .arguments (T.leadingTexts.map Arguments.cut)) (by simp) hcount
        hcells hn
      have hquery := Action.query_of_ok (f := fun m => m.heap.table t) ht
      rw [Arguments.ofValue, Action.bind_of_ok hquery, Action.bind_of_ok h]
      exact hcounted
  | _ => exact ⟨hcount, hcells⟩

/-- An event counts the cells it makes. -/
theorem Managed.counted_after (hm : m.Managed strict) {e : Event χ σ} (he : m.Allows (Minds (.wide strict)) e)
    (hcount : m.CountsTo n) (hcells : m.CellsUpTo n) (hn : n + e.stagings m < Cell.places) :
    (m.after e).CountsTo (n + e.stagings m) ∧ (m.after e).CellsUpTo (n + e.stagings m) := by
  by_cases hsweep : e = .sweep
  · subst hsweep
    exact ⟨hcount.swept hm.orderly, hcells.swept hm.orderly⟩
  by_cases hstages : e.Stages
  · cases e with
    | ask r =>
      cases r with
      | stage p =>
        obtain ⟨r, m', h, hcounted⟩ := hm.exists_stage he.2.2 hcount hcells hn
        show (Cell.stage p m).2.CountsTo (n + 1) ∧ (Cell.stage p m).2.CellsUpTo (n + 1)
        rw [h]
        exact hcounted
      | stageInteger v =>
        obtain ⟨r, m', h, hcounted⟩ := hm.exists_stage (p := .int32 (Arguments.initialInteger v)) (by simp) hcount hcells hn
        show (Arguments.stageInteger v m).2.CountsTo (n + 1) ∧ (Arguments.stageInteger v m).2.CellsUpTo (n + 1)
        rw [Arguments.stageInteger, Action.bind_of_ok h]
        exact hcounted
      | stageArguments v => exact hm.counted_arguments v hcount hcells hn
      | _ => exact hstages.elim
    | _ => exact hstages.elim
  · -- what makes no cell is a sequence of acts that do not count
    let S : Scope := { Scope.wide strict with stages := False }
    have he' : m.Allows (Minds S) e :=
      he.within .rfl (fun h => absurd h hstages) (fun _ _ => trivial) (fun _ _ => trivial) fun _ hs => hs.elim
    have hacts := hm.acts_after (S := S) (fun _ hs => False.elim hs) he' hsweep fun _ _ _ _ hs => False.elim hs
    have hzero : e.stagings m = 0 := by
      unfold Event.stagings
      split
      · exact absurd trivial hstages
      · exact absurd trivial hstages
      · exact absurd trivial hstages
      · rfl
    rw [hzero]
    exact lasts_counted n (fun h => h) m _ hacts ⟨hcount, hcells⟩

end Machine

open Machine in
/-- A course counts the cells it makes, if they do not become too many. -/
theorem Course.counted {m : Machine χ σ} {es : List (Event χ σ)} (h : Course (Minds (.wide strict)) m es) (hm : m.Managed strict)
    {n : Nat} (hcount : m.CountsTo n) (hcells : m.CellsUpTo n) (hn : n + m.stagings es < Cell.places) :
    (m.follow es).CountsTo (n + m.stagings es) ∧ (m.follow es).CellsUpTo (n + m.stagings es) := by
  induction es generalizing m n with
  | nil => exact ⟨hcount, hcells⟩
  | cons e es ih =>
    have hsplit : n + m.stagings (e :: es) = n + e.stagings m + (m.after e).stagings es := (Nat.add_assoc _ _ _).symm
    rw [hsplit] at hn ⊢
    obtain ⟨hcount', hcells'⟩ := hm.counted_after h.1 hcount hcells (by omega)
    exact ih h.2 (hm.after (S := .wide strict) (fun _ h => h) h.1) hcount' hcells' hn

/-- On a new machine nothing is counted. -/
theorem Machine.countsTo_start (limits : Limits) (host : σ) : (start limits host : Machine χ σ).CountsTo 0 := by
  intro R hR
  cases (rfl : (start limits host : Machine χ σ).heap.object? ⟨0, 0⟩ = some (.table .empty)).symm.trans hR
  rfl

theorem Machine.cellsUpTo_start (limits : Limits) (host : σ) : (start limits host : Machine χ σ).CellsUpTo 0 :=
  fun c _ hc => (not_registered_start limits host _ c hc).elim

open Machine in
/-- A course from a new machine on counts all cells that have been made. -/
theorem Course.counted_start {limits : Limits} {host : σ} {es : List (Event χ σ)}
    (h : Course (Minds (.wide strict)) (.start limits host) es) (hn : (start limits host).stagings es < Cell.places) :
    ((start limits host).follow es).Managed strict ∧
      ((start limits host).follow es).CountsTo ((start limits host).stagings es) ∧
      ((start limits host).follow es).CellsUpTo ((start limits host).stagings es) := by
  have hcounted := h.counted (managed_start limits host) (countsTo_start limits host) (cellsUpTo_start limits host) (by omega)
  rw [Nat.zero_add] at hcounted
  exact ⟨h.managed (S := .wide strict) (fun _ h => h) (managed_start limits host), hcounted⟩

end ScriptHost

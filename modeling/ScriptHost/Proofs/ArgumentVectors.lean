import Mathlib.Data.List.TakeWhile
import ScriptHost.Proofs.Counting
import ScriptHost.Proofs.Encoding
import ScriptHost.Proofs.Isolation
import ScriptHost.Proofs.TextTables

/-!
# Argument vectors there and back

A table with texts or numbers at the places from one on is staged as an argument vector: an array of byte strings, each the form of
its text up to the first NUL, and a null after them. What reads such an array finds the byte strings again, because none of them has
a NUL in it, and the table made of what was read has the texts, cut at their first NUL, at the places from one on
(`arguments_round_trip`). Whether the vector can be staged does not depend on the table: the registry must not have, where the cells
are kept, a reference to a table that is gone (`Machine.TakesCells`, `arguments_staged_in_every_run_false`).
-/

namespace ScriptHost

variable {χ σ : Type}

namespace Arguments

/-! ## Byte strings -/

/-- A text up to its first NUL. -/
def cutText (s : String) : String := String.ofList (s.toList.takeWhile (· != '\x00'))

/-- The bytes of an argument are those of the text up to its first NUL. -/
theorem cut_eq (s : String) : cut s = Utf8.encode (cutText s) := Utf8.takeWhile_encode s

theorem decode_cut (s : String) : Utf8.decode (cut s) = cutText s := by
  rw [cut_eq, Utf8.decode_encode]

theorem cutText_of_no_nul {s : String} (h : '\x00' ∉ s.toList) : cutText s = s := by
  have hall : s.toList.takeWhile (· != '\x00') = s.toList := by
    refine List.takeWhile_eq_self_iff.2 fun ch hch => bne_iff_ne.2 ?_
    rintro rfl
    exact h hch
  rw [cutText, hall, String.ofList_toList]

/-- An argument has no NUL in it. -/
theorem ne_zero_of_mem_cut {s : String} {b : UInt8} (hb : b ∈ cut s) : b ≠ 0 := by
  simpa using List.mem_takeWhile_imp hb

/-! ## Arrays -/

/-- What is read of an array: the byte strings in front of the first null, each up to its first NUL. -/
def readVector (argv : List (Option (List UInt8))) : List (List UInt8) :=
  (argv.takeWhile Option.isSome).filterMap (Option.map fun bytes => bytes.takeWhile (· != 0))

/-- A new table that holds the texts of an array. -/
def pushVector (argv : List (Option (List UInt8))) : Action χ σ Ref := toTableOfBytes (readVector argv)

end Arguments

/-- The array that native code is given: the byte strings, each with a NUL after it, and a null after them. -/
def StagedArguments.argv (s : StagedArguments) : List (Option (List UInt8)) :=
  s.texts.map (fun bytes => some (bytes ++ [0])) ++ [none]

namespace Arguments

/-- Byte strings without a NUL are read back from their array. -/
theorem readVector_argv {s : StagedArguments} (h : ∀ bytes ∈ s.texts, ∀ b ∈ bytes, b ≠ 0) : readVector s.argv = s.texts := by
  have hread : ∀ bytes ∈ s.texts, (bytes ++ [0]).takeWhile (· != 0) = bytes := by
    intro bytes hbytes
    rw [List.takeWhile_append_of_pos fun b hb => bne_iff_ne.2 (h bytes hbytes b hb)]
    exact List.append_nil bytes
  have hfront : s.argv.takeWhile Option.isSome = s.texts.map fun bytes => some (bytes ++ [0]) := by
    rw [StagedArguments.argv, List.takeWhile_append_of_pos (by simp)]
    exact List.append_nil _
  rw [readVector, hfront, List.filterMap_map]
  refine (List.filterMap_congr fun bytes hbytes => ?_).trans List.filterMap_some
  exact congrArg some (hread bytes hbytes)

end Arguments

/-! ## The registry of a run -/

open Machine in
/-- The registry is a table on every machine of a run. -/
theorem Reached.exists_registry {Γ : Host χ σ} {P : Machine χ σ → Request χ σ → Prop} {m : Machine χ σ} (hm : Reached Γ P m) :
    ∃ R, m.heap.object? m.registry = some (.table R) := by
  have hstable : Stable (fun m : Machine χ σ => m.heap.WellFormed ∧ ∃ R, m.heap.object? m.registry = some (.table R))
      (fun _ _ => True) := by
    refine .of_steps (fun m m' hm hs => ?_) (fun m hm _ => ?_) (fun _ _ _ _ _ hm => hm) (fun _ _ _ _ _ hm => hm)
    · obtain ⟨hw, R, hR⟩ := hm
      obtain ⟨_, hR', R', rfl⟩ := hs.grown hw _ _ hR
      have hregistry : m'.registry = m.registry := congrArg Frame.registry hs.frame_eq
      exact ⟨hs.wellFormed hw, R', hregistry ▸ hR'⟩
    · obtain ⟨hw, R, hR⟩ := hm
      exact ⟨wellFormed_swept hw, _, (registry_swept m).symm ▸ swept_table (survives_registry hR) hR⟩
  exact (hm.keep_all hstable (fun limits host => ⟨wellFormed_start limits host, _, rfl⟩) (fun _ _ _ _ h _ => h) fun _ _ h => h).2

namespace Machine

/-! ## Staging -/

/-- Where the registry has a table under the name of the cells, it is there. -/
def TakesCells (m : Machine χ σ) : Prop := ∀ c, m.Registered Registry.cells c → ∃ C, m.heap.object? c = some (.table C)

/-- It is, where native code leaves the names of the registry to the binding layer. -/
theorem Unshared.takesCells {closed : Prop} {m : Machine χ σ} (hm : m.Unshared closed) : m.TakesCells :=
  fun c hc => (hm.registered _ c hc).2

end Machine

namespace Action

open Machine

variable {m : Machine χ σ} {R : Table}

/-- What is staged is in a cell, if there is a table to list it in. -/
theorem exists_stage (hw : m.heap.WellFormed) (hR : m.heap.object? m.registry = some (.table R)) (hcells : m.TakesCells)
    (p : Payload) : ∃ r m', Cell.stage p m = (.ok r, m') ∧ m'.heap.WellFormed ∧
      m'.heap.object? r = some (.userdata (.ofPayload p)) := by
  obtain ⟨c, m₁, htable, hfound⟩ := exists_registryTable hw hR Registry.cells (some "kv")
  obtain ⟨hw₁, hR₁, hC₁⟩ : m₁.heap.WellFormed ∧ (∃ R₁, m₁.heap.object? m₁.registry = some (.table R₁)) ∧
      ∃ C, m₁.heap.object? c = some (.table C) := by
    rcases hfound with ⟨rfl, hc⟩ | ⟨T, hregisters, -⟩
    · exact ⟨hw, ⟨R, hR⟩, hcells c hc⟩
    · obtain ⟨R₀, -, hR₁⟩ := hregisters.added
      exact ⟨hregisters.wellFormed, ⟨_, hregisters.registry ▸ hR₁⟩, T, hregisters.table⟩
  obtain ⟨R₁, hR₁⟩ := hR₁
  obtain ⟨C₁, hC₁⟩ := hC₁
  obtain ⟨r, m₂, hnew, hfresh, h₂⟩ := exists_newUserdata hw₁ p
  have hR₂ : m₂.heap.object? m₂.registry = some (.table R₁) := by
    rw [h₂.registry, h₂.other (ne_of_not_contains hfresh hR₁), hR₁]
  obtain ⟨m₃, hplace, h₃⟩ := exists_nextPlace_of_table h₂.wellFormed hR₂
  -- the table of the cells may be the registry itself
  obtain ⟨C₃, hC₃⟩ : ∃ C, m₃.heap.object? c = some (.table C) := by
    by_cases hc : c = m₂.registry
    · exact ⟨_, hc ▸ h₃.self⟩
    · exact ⟨C₁, by rw [h₃.other hc, h₂.other (ne_of_not_contains hfresh hC₁), hC₁]⟩
  obtain ⟨m₄, hset, h₄⟩ :=
    exists_setAt h₃.wellFormed hC₃ ((R₁.field Registry.nextCell).integer?.getD 1) (.userdata r)
  have hrc : r ≠ c := (ne_of_not_contains hfresh hC₁).symm
  have hrr : r ≠ m₂.registry := h₂.registry ▸ (ne_of_not_contains hfresh hR₁).symm
  refine ⟨r, m₄, ?_, h₄.wellFormed, by rw [h₄.other hrc, h₃.other hrr, h₂.self]⟩
  rw [Cell.stage, bind_of_ok htable, bind_of_ok hnew, bind_of_ok hplace]
  exact bind_of_ok hset

/-- Nothing can be staged where the registry has, instead of the table of the cells, a reference to no table. -/
theorem stage_refused (hw : m.heap.WellFormed) (hR : m.heap.object? m.registry = some (.table R)) (hcells : ¬m.TakesCells)
    (p : Payload) : ∃ e m', Cell.stage p m = (.error e, m') := by
  obtain ⟨c, hc⟩ := Classical.not_forall.1 hcells
  obtain ⟨hc, hnone⟩ := Classical.not_imp.1 hc
  obtain ⟨c', m₁, htable, ⟨rfl, hc'⟩ | ⟨_, hregisters, -⟩⟩ := exists_registryTable hw hR Registry.cells (some "kv")
  swap
  · exact absurd hc (hregisters.unused c)
  obtain rfl := hc'.eq hc
  obtain ⟨r, m₂, hnew, hfresh, h₂⟩ := exists_newUserdata hw p
  have hR₂ : m₂.heap.object? m₂.registry = some (.table R) := by
    rw [h₂.registry, h₂.other (ne_of_not_contains hfresh hR), hR]
  obtain ⟨m₃, hplace, h₃⟩ := exists_nextPlace_of_table h₂.wellFormed hR₂
  have hcr : c' ≠ m₂.registry := by
    rintro rfl
    exact hnone ⟨R, h₂.registry ▸ hR⟩
  have hnone₃ : ∀ C, m₃.heap.object? c' ≠ some (.table C) := by
    intro C hC
    rw [h₃.other hcr, h₂.object] at hC
    split at hC
    · cases hC
    · exact hnone ⟨C, hC⟩
  obtain ⟨e, he⟩ : ∃ e, m₃.heap.table c' = .error e := by
    cases hC : m₃.heap.table c' with
    | error e => exact ⟨e, rfl⟩
    | ok C => exact absurd (Heap.table_eq_ok_iff.1 hC) (hnone₃ C)
  have hset : ∀ place, (setAt c' place (.userdata r) : Action χ σ Unit) m₃ = (.error e, m₃) := fun place => by
    simp only [setAt, onHeap, Heap.changeTable, he]
  refine ⟨e, m₃, ?_⟩
  rw [Cell.stage, bind_of_ok htable, bind_of_ok hnew, bind_of_ok hplace]
  exact bind_of_error (hset _)

/-! ## Making a table of texts -/

/-- A table is filled with texts. -/
theorem exists_fill (hw : m.heap.WellFormed) {t : Ref} {T : Table} (hT : m.heap.object? t = some (.table T)) (n : Nat)
    (texts : List String) :
    ∃ m', Arguments.fill t n texts m = (.ok (), m') ∧ m.Written m' t (.table (T.withTexts n texts)) := by
  induction texts generalizing m T n with
  | nil => exact ⟨m, rfl, .refl hw hT⟩
  | cons s rest ih =>
    obtain ⟨m₁, hset, h₁⟩ := exists_setAt hw hT (Int64.ofNat (n + 1)) (.string s)
    obtain ⟨m₂, hfill, h₂⟩ := ih h₁.wellFormed h₁.self (n + 1)
    exact ⟨m₂, (bind_of_ok hset).trans hfill, h₁.again h₂⟩

/-- A new table is made of texts. -/
theorem exists_toTable (hw : m.heap.WellFormed) (texts : List String) :
    ∃ t m', Arguments.toTable texts m = (.ok t, m') ∧ ¬m.heap.contains t = true ∧
      m.Written m' t (.table (Table.empty.withTexts 0 texts)) := by
  obtain ⟨t, m₁, hnew, hfresh, h₁⟩ := exists_newTable hw
  obtain ⟨m₂, hfill, h₂⟩ := exists_fill h₁.wellFormed h₁.self 0 texts
  refine ⟨t, m₂, ?_, hfresh, h₁.again h₂⟩
  rw [Arguments.toTable, bind_of_ok hnew, bind_of_ok hfill]
  rfl

end Action

namespace Arguments

open ScriptHost.Action Machine

variable {m : Machine χ σ} {R T : Table} {t : Ref} {n : Nat} {texts : List String}

/-- What is no table is no list of arguments. -/
theorem ofValue_of_no_table {v : Value} (hv : v.table? = none) :
    (ofValue v : Action χ σ StagedArguments) m = (.error (.mismatch "table" v.typeName.text), m) := by
  cases v <;> first | rfl | cases hv

/-- Nor is a reference that finds no table. -/
theorem ofValue_of_missing {e : Fault} (ht : m.heap.table t = .error e) : ofValue (.table t) m = (.error e, m) := by
  have hquery : query (fun m => m.heap.table t) m = (.error e, m) := by
    simp only [query, ht]
  rw [ofValue, bind_of_error hquery]

/-- A table with texts up to a number is staged exactly if cells can be, in a cell that holds the forms of the texts up to their first
NUL. -/
theorem ofValue_spec (hw : m.heap.WellFormed) (hR : m.heap.object? m.registry = some (.table R))
    (hT : m.heap.object? t = some (.table T)) (htexts : T.TextsUpTo n) :
    ((∃ staged m', ofValue (.table t) m = (.ok staged, m')) ↔ m.TakesCells) ∧
      ∀ staged m', ofValue (.table t) m = (.ok staged, m') → staged.texts = (T.forms n).map cut ∧ m'.heap.WellFormed ∧
        m'.heap.object? staged.cell = some (.userdata (.ofPayload (.arguments staged.texts))) := by
  have hstep : ofValue (.table t) m = (Cell.stage (.arguments ((T.forms n).map cut)) >>= fun r =>
      pure ⟨r, (T.forms n).map cut⟩ : Action χ σ StagedArguments) m := by
    rw [ofValue, bind_of_ok (query_of_ok (Heap.table_eq_ok_iff.2 hT)), Table.leadingTexts_eq htexts]
  by_cases hcells : m.TakesCells
  · obtain ⟨r, m₁, hstage, hw₁, hr⟩ := exists_stage hw hR hcells (.arguments ((T.forms n).map cut))
    have hvalue : ofValue (.table t) m = (.ok ⟨r, (T.forms n).map cut⟩, m₁) := hstep.trans (bind_of_ok hstage)
    refine ⟨⟨fun _ => hcells, fun _ => ⟨_, _, hvalue⟩⟩, fun staged m' h => ?_⟩
    cases hvalue.symm.trans h
    exact ⟨rfl, hw₁, hr⟩
  · obtain ⟨e, m₁, hstage⟩ := stage_refused hw hR hcells (.arguments ((T.forms n).map cut))
    have hvalue : ofValue (.table t) m = (.error e, m₁) := hstep.trans (bind_of_error hstage)
    refine ⟨⟨?_, fun h => absurd h hcells⟩, fun staged m' h => ?_⟩
    · rintro ⟨staged, m', h⟩
      cases hvalue.symm.trans h
    · cases hvalue.symm.trans h

/-- From every machine on, what is read of the array is pushed as a new table with the texts. -/
def Returns (χ σ : Type) (argv : List (Option (List UInt8))) (texts : List String) : Prop :=
  ∀ m : Machine χ σ, m.heap.WellFormed → ∃ t m' T, pushVector argv m = (.ok t, m') ∧ ¬m.heap.contains t = true ∧
    m'.heap.object? t = some (.table T) ∧ T.Lists texts

/-- The array of staged texts returns them, cut at their first NUL. -/
theorem returns_argv (χ σ : Type) (r : Ref) (hlen : texts.length < 2 ^ 64) :
    Returns χ σ (StagedArguments.argv ⟨r, texts.map cut⟩) (texts.map cutText) := by
  intro m hw
  have hread : readVector (StagedArguments.argv ⟨r, texts.map cut⟩) = texts.map cut := by
    refine readVector_argv fun bytes hbytes b hb => ?_
    obtain ⟨s, -, rfl⟩ := List.mem_map.1 hbytes
    exact ne_zero_of_mem_cut hb
  have hdecode : (texts.map cut).map Utf8.decode = texts.map cutText := by
    rw [List.map_map]
    exact List.map_congr_left fun s _ => decode_cut s
  obtain ⟨t, m', hpush, hfresh, h⟩ := exists_toTable hw (texts.map cutText)
  refine ⟨t, m', _, ?_, hfresh, h.self, Table.lists_withTexts (by rwa [List.length_map])⟩
  rw [pushVector, hread, toTableOfBytes, hdecode, hpush]

end Arguments

open Arguments Machine

/-- **Argument vectors there and back.** On every machine of a run:

A table with texts or numbers at the places from one to a number, and neither at the place after it, is staged exactly if the registry
does not have, where the cells are kept, a reference to no table; and it has none if native code has left the names of the registry to
the binding layer. There are then as many arguments as that number, the array has the forms of the texts, each cut at its first NUL,
with a null after them, and what is read of the array is pushed, from every machine on, as a table that has those texts for entries.

A list of texts, which is no longer than a 64-bit length, is pushed as a table of them. It is staged, on the same condition, and the
array returns the texts, each cut at its first NUL; those without a NUL are not cut.

What is no table, or refers to none that is there, is refused, and the machine is what it was. -/
theorem arguments_round_trip {Γ : Host χ σ} {P : Machine χ σ → Request χ σ → Prop} {m : Machine χ σ} (hm : Reached Γ P m) :
    (Γ.Lawful (Spares False) (Unshared False) → Reached Γ (Spares False) m → m.TakesCells) ∧
    (∀ t T n, m.heap.object? t = some (.table T) → T.TextsUpTo n →
      ((∃ staged m', ofValue (.table t) m = (.ok staged, m')) ↔ m.TakesCells) ∧
      ∀ staged m', ofValue (.table t) m = (.ok staged, m') →
        staged.count = n ∧ staged.argv = (T.forms n).map (fun s => some (cut s ++ [0])) ++ [none] ∧
        m'.heap.object? staged.cell = some (.userdata (.ofPayload (.arguments staged.texts))) ∧
        Returns χ σ staged.argv ((T.forms n).map cutText)) ∧
    (∀ texts : List String, texts.length < UInt64.size →
      ∃ t m', toTable texts m = (.ok t, m') ∧ (m.TakesCells → m'.TakesCells) ∧
        ((∃ staged m'', ofValue (.table t) m' = (.ok staged, m'')) ↔ m'.TakesCells) ∧
        (∀ staged m'', ofValue (.table t) m' = (.ok staged, m'') →
          m''.heap.WellFormed ∧ staged.count = texts.length ∧ Returns χ σ staged.argv (texts.map cutText)) ∧
        ((∀ s ∈ texts, '\x00' ∉ s.toList) → texts.map cutText = texts)) ∧
    (∀ v, v.table? = none → ofValue v m = (.error (.mismatch "table" v.typeName.text), m)) ∧
    ∀ t e, m.heap.table t = .error e → ofValue (.table t) m = (.error e, m) := by
  obtain ⟨R, hR⟩ := hm.exists_registry
  refine ⟨fun hΓ hspares => (hspares.unshared hΓ).takesCells, fun t T n hT htexts => ?_, fun texts hlen => ?_,
    fun v => ofValue_of_no_table, fun t e => ofValue_of_missing⟩
  · obtain ⟨hstaged, hspec⟩ := ofValue_spec hm.wellFormed hR hT htexts
    refine ⟨hstaged, fun staged m' h => ?_⟩
    obtain ⟨r, argv⟩ := staged
    obtain ⟨rfl, -, hcell⟩ := hspec _ m' h
    have hforms : (T.forms n).length = n := by simp [Table.forms]
    refine ⟨by rw [StagedArguments.count, List.length_map, hforms], by rw [StagedArguments.argv, List.map_map]; rfl, hcell, ?_⟩
    exact returns_argv χ σ r (hforms.symm ▸ htexts.bounds.1)
  · obtain ⟨t, m', hpush, hfresh, h⟩ := Action.exists_toTable hm.wellFormed texts
    obtain ⟨htexts, hforms⟩ := (Table.lists_withTexts hlen).textsUpTo (Table.unique_empty.withTexts 0 texts) hlen
    have hR' : m'.heap.object? m'.registry = some (.table R) := by
      rw [h.registry, h.other (ne_of_not_contains hfresh hR), hR]
    obtain ⟨hstaged, hspec⟩ := ofValue_spec h.wellFormed hR' h.self htexts
    refine ⟨t, m', hpush, fun hcells c hc => ?_, hstaged, fun staged m'' hvalue => ?_, fun hno => ?_⟩
    · have hc' : m.Registered Registry.cells c := (registered_iff hR).2 ((registered_iff hR').1 hc)
      obtain ⟨C, hC⟩ := hcells c hc'
      exact ⟨C, by rw [h.other (ne_of_not_contains hfresh hC), hC]⟩
    · obtain ⟨r, argv⟩ := staged
      obtain ⟨rfl, hw'', -⟩ := hspec _ m'' hvalue
      rw [hforms]
      exact ⟨hw'', List.length_map _, returns_argv χ σ r hlen⟩
    · exact (List.map_congr_left fun s hs => cutText_of_no_nul (hno s hs)).trans (List.map_id texts)

/-- What a new machine stages of texts, one of them with a NUL in it, comes back cut there. -/
theorem arguments_round_trip_start :
    ∃ t m' staged m'', toTable ["prog", "a\x00b", ""] (.start .standard () : Machine Unit Unit) = (.ok t, m') ∧
      ofValue (.table t) m' = (.ok staged, m'') ∧ Returns Unit Unit staged.argv ["prog", "a", ""] := by
  have hm : Reached idleHost (fun _ _ => True) (.start .standard () : Machine Unit Unit) := .start .standard ()
  obtain ⟨htakes, -, hlist, -⟩ := arguments_round_trip hm
  obtain ⟨t, m', hpush, hcells, hstaged, hspec, -⟩ := hlist ["prog", "a\x00b", ""] (by decide)
  obtain ⟨staged, m'', hvalue⟩ := hstaged.2 (hcells (htakes lawful_idleHost (.start .standard ())))
  have hcut : ["prog", "a\x00b", ""].map cutText = ["prog", "a", ""] := by decide +kernel
  exact ⟨t, m', staged, m'', hpush, hvalue, hcut ▸ (hspec staged m'' hvalue).2.2⟩

/-- A table is dropped, and a reference to it is put into the registry where the cells are kept. Then a list of arguments is made. -/
def cellsGone : Machine Unit Unit :=
  requested [.newTable, .collect, .rawSet ⟨0, 0⟩ (.string Registry.cells) (.table ⟨2, 0⟩), .newTexts ["a"]]

/-- Not in every run can a list of arguments be staged: the cells may be gone. -/
theorem arguments_staged_in_every_run_false :
    ¬∀ (m : Machine Unit Unit), Reached idleHost (fun _ _ => True) m → ∀ t T n, m.heap.object? t = some (.table T) →
      T.TextsUpTo n → ∃ staged m', ofValue (.table t) m = (.ok staged, m') := by
  intro h
  have hT : cellsGone.heap.object? ⟨2, 1⟩ = some (.table (Table.empty.withTexts 0 ["a"])) := by decide +kernel
  have hlen : ["a"].length < 2 ^ 64 := by decide
  obtain ⟨htexts, -⟩ := (Table.lists_withTexts hlen).textsUpTo (Table.unique_empty.withTexts 0 _) hlen
  obtain ⟨staged, m', hvalue⟩ := h cellsGone (reached_requested _) ⟨2, 1⟩ _ _ hT htexts
  have hnone : (ofValue (.table ⟨2, 1⟩) cellsGone).1.toOption = none := by decide +kernel
  rw [hvalue] at hnone
  cases hnone

end ScriptHost

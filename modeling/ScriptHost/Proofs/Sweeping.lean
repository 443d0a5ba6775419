import ScriptHost.Proofs.Reclaim
import ScriptHost.Proofs.Reordering

/-!
# Sweeps in any order

The edges of a table are listed in the order of its entries, so marking goes through the objects of a machine in one order and
through those of the machine reordered in another. The marks are the same in the end, and with them everything that a sweep does:
what it takes up and frees, and in which order, and what the weak tables lose (`Machine.Reordered.swept`).
-/

namespace ScriptHost

variable {χ σ : Type}

/-! ## Marking and clearing of heaps reordered -/

namespace Heap.Reordered

variable {h h' : Heap χ} {t t' : Table} {r s : Ref} {S : Ref → Prop} {marks marks' : Marks}

theorem weakMode (h₁ : h.Reordered h') (ht : t.Reordered t') : h'.weakMode t' = h.weakMode t := by
  unfold Heap.weakMode
  rw [ht.metatable]
  cases t.metatable with
  | none => rfl
  | some mt =>
    obtain ⟨named, named', hx, hy, hnamed, -⟩ | ⟨e, hx, hy⟩ := h₁.table mt
    · simp only [hx, hy, hnamed.field]
    · simp only [hx, hy]

/-- What an object holds on to is listed in another order. -/
theorem perm_strong (h₁ : h.Reordered h') (r : Ref) : (h.strong r).Perm (h'.strong r) := by
  unfold Heap.strong
  obtain ⟨hx, hy⟩ | ⟨o, o', hx, hy, ho⟩ := exists_of_rel (h₁.object? r)
  · rw [hx, hy]
    exact .refl _
  · rw [hx, hy]
    cases ho with
    | table ht =>
      simp only [Option.map_some, Option.getD_some, Heap.strongEdges, ht.metatable, h₁.weakMode ht]
      exact (ht.entries.flatMap_right _).append_left _
    | userdata u => exact .refl _
    | function f => exact .refl _

theorem holds_iff (h₁ : h.Reordered h') : h'.Holds r s ↔ h.Holds r s := by
  rw [← mem_strong_iff, ← mem_strong_iff]
  exact (h₁.perm_strong r).mem_iff.symm

theorem kept_iff (h₁ : h.Reordered h') : h'.Kept S r ↔ h.Kept S r := by
  have hkept : ∀ {h h' : Heap χ}, h.Reordered h' → h'.Kept S r → h.Kept S r := fun h₁ hr =>
    hr.least (fun s hs hc => .root hs ((h₁.contains s).symm.trans hc)) fun s x hs he hc =>
      hs.held (h₁.holds_iff.1 he) ((h₁.contains x).symm.trans hc)
  exact ⟨hkept h₁, hkept h₁.symm⟩

theorem awaitsFinalizer (h₁ : h.Reordered h') (r : Ref) : h'.awaitsFinalizer r = h.awaitsFinalizer r := by
  have hawaits : ∀ {h h' : Heap χ}, h.Reordered h' → h.awaitsFinalizer r = true → h'.awaitsFinalizer r = true := by
    intro h h' h₁ hr
    obtain ⟨u, mt, named, hu, hf, hmt, hnamed, hgc⟩ := awaitsFinalizer_iff.1 hr
    have hu' : h'.object? r = some (.userdata u) :=
      userdata_eq_ok_iff.1 ((h₁.userdata r).trans (userdata_eq_ok_iff.2 hu))
    obtain ⟨_, named', hx, -, ht, -, hnamed'⟩ | ⟨e, hx, -⟩ := h₁.table mt
    · cases (table_eq_ok_iff.2 hnamed).symm.trans hx
      exact awaitsFinalizer_iff.2 ⟨u, mt, named', hu', hf, hmt, hnamed', (ht.field "__gc").symm ▸ hgc⟩
    · cases (table_eq_ok_iff.2 hnamed).symm.trans hx
  exact Bool.eq_iff_iff.2 ⟨hawaits h₁.symm, hawaits h₁⟩

theorem flagAll (h₁ : h.Reordered h') (refs : List Ref) : (h.flagAll refs).Reordered (h'.flagAll refs) := by
  induction refs generalizing h h' with
  | nil => exact h₁
  | cons r rest ih =>
    have hflag : ∀ f, ((h.changeUserdata r f).toOption.getD h).Reordered ((h'.changeUserdata r f).toOption.getD h') := fun f => by
      unfold changeUserdata
      rw [h₁.userdata]
      cases h.userdata r with
      | ok u => exact h₁.put _ (.userdata _)
      | error e => exact h₁
    exact ih (hflag _)

theorem releaseAll (h₁ : h.Reordered h') (refs : List Ref) : (h.releaseAll refs).Reordered (h'.releaseAll refs) := by
  induction refs generalizing h h' with
  | nil => exact h₁
  | cons r rest ih => exact ih (h₁.release r)

theorem losesEntry (h₁ : h.Reordered h') (hmarks : ∀ r, h.contains r = true → marks'.has r.slot = marks.has r.slot) :
    h'.losesEntry marks' = h.losesEntry marks :=
  losesEntry_congr h₁.contains h₁.userdata hmarks

/-- With the same marks the same entries are lost. -/
theorem clearTable (h₁ : h.Reordered h') (hmarks : ∀ r, h.contains r = true → marks'.has r.slot = marks.has r.slot)
    (ht : t.Reordered t') : (h.clearTable marks t).Reordered (h'.clearTable marks' t') := by
  unfold Heap.clearTable
  simp only [h₁.weakMode ht, h₁.losesEntry hmarks]
  split
  · exact ht.filter _
  · exact ht

theorem clearWeak (h₁ : h.Reordered h') (hmarks : ∀ r, h.contains r = true → marks'.has r.slot = marks.has r.slot) :
    (h.clearWeak marks).Reordered (h'.clearWeak marks') := by
  refine ⟨fun i => ?_, h₁.free, h₁.live⟩
  simp only [Heap.clearWeak, Array.getElem?_mapIdx]
  obtain ⟨hx, hy⟩ | ⟨s, s', hx, hy, hs⟩ := exists_of_rel (h₁.slots i)
  · rw [hx, hy]
    exact .none
  rw [hx, hy]
  refine .some ?_
  dsimp only
  obtain ⟨hso, hso'⟩ | ⟨o, o', hso, hso', ho⟩ := exists_of_rel hs.object
  · -- a free slot has nothing to lose, marked or not
    have hfree : ∀ {s : Slot χ}, s.object = none → ∀ (b : Bool) (f : Object χ → Object χ),
        (if b = true then { s with object := s.object.map f } else s) = s := fun hs b f => by
      cases b with
      | true => rw [if_pos rfl, hs, Option.map_none, ← hs]
      | false => rfl
    rw [hfree hso, hfree hso']
    exact hs
  · have hc : h.contains ⟨i, s.generation⟩ = true := contains_of_object? (object?_eq_some_iff.2 ⟨s, hx, rfl, hso⟩)
    rw [show marks'.has i = marks.has i from hmarks _ hc]
    split
    · refine ⟨hs.generation, ?_⟩
      dsimp only
      rw [hso, hso']
      refine .some ?_
      cases ho with
      | table ht => exact .table (h₁.clearTable hmarks ht)
      | userdata u => exact .userdata u
      | function f => exact .function f
    · exact hs

end Heap.Reordered

/-! ## Sweeps of machines reordered -/

namespace Machine.Reordered

variable {m n : Machine χ σ} {r : Ref}

theorem isRoot_iff (h : m.Reordered n) : n.IsRoot r ↔ m.IsRoot r := by
  rw [← mem_roots_iff, ← mem_roots_iff, h.roots]

theorem kept_iff (h : m.Reordered n) : n.heap.Kept n.IsRoot r ↔ m.heap.Kept m.IsRoot r := by
  have hroots : n.IsRoot = m.IsRoot := funext fun s => propext h.isRoot_iff
  rw [h.heap.kept_iff, hroots]

/-- The same userdata are taken up, in the same order. -/
theorem doomed (h : m.Reordered n) : n.doomed = m.doomed := by
  unfold Machine.doomed Heap.unmarked
  rw [h.heap.refs, List.filter_filter, List.filter_filter]
  refine List.filter_congr fun r hr => ?_
  have hc := Heap.mem_refs_iff.1 hr
  have hheld : n.held.has r.slot = m.held.has r.slot := by
    rw [Bool.eq_iff_iff, has_held_iff ((h.heap.contains r).trans hc), has_held_iff hc, h.kept_iff]
  rw [h.heap.awaitsFinalizer, hheld]

theorem doomed_iff (h : m.Reordered n) : n.Doomed r ↔ m.Doomed r := by
  rw [← mem_doomed_iff, ← mem_doomed_iff, h.doomed]

theorem survives_iff (h : m.Reordered n) : n.Survives r ↔ m.Survives r := by
  have hstart : (fun s => n.heap.Kept n.IsRoot s ∨ n.Doomed s) = fun s => m.heap.Kept m.IsRoot s ∨ m.Doomed s :=
    funext fun s => propext (or_congr h.kept_iff h.doomed_iff)
  unfold Machine.Survives
  rw [h.heap.kept_iff, hstart]

/-- What is live and survives has the same mark. -/
theorem has_survivors (h : m.Reordered n) (hr : m.heap.contains r = true) : n.survivors.has r.slot = m.survivors.has r.slot := by
  rw [Bool.eq_iff_iff, has_survivors_iff ((h.heap.contains r).trans hr), has_survivors_iff hr, h.survives_iff]

theorem flagged (h : m.Reordered n) : m.flagged.Reordered n.flagged := by
  unfold Machine.flagged
  rw [h.doomed]
  exact h.heap.flagAll _

theorem cleared (h : m.Reordered n) : (m.flagged.clearWeak m.survivors).Reordered (n.flagged.clearWeak n.survivors) :=
  h.flagged.clearWeak fun r hr => h.has_survivors ((m.alike_flagged.contains r).symm.trans hr)

/-- The same references are freed, in the same order. -/
theorem dead (h : m.Reordered n) : n.dead = m.dead := by
  unfold Machine.dead Heap.unmarked
  rw [h.cleared.refs]
  refine List.filter_congr fun r hr => ?_
  have hc := Heap.mem_refs_iff.1 hr
  rw [contains_clearWeak, m.alike_flagged.contains] at hc
  rw [h.has_survivors hc]

/-- The sweeps come to machines of which one is the other reordered. -/
theorem swept (h : m.Reordered n) : m.swept.Reordered n.swept := by
  constructor
  · rw [swept_eq, swept_eq, h.dead]
    exact h.cleared.releaseAll _
  · rw [swept_eq, swept_eq, h.doomed, h.registry, h.globals, h.stack, h.pins, h.limits, h.depth, h.pending, h.statistics]
    rw [show n.host = m.host by rw [h.rest]]

end Machine.Reordered

end ScriptHost

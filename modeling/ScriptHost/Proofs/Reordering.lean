import Mathlib.Data.List.Perm.Basic
import ScriptHost.Proofs.WellFormed

/-!
# Machines that list their entries in another order

The order in which a table lists its entries means nothing. A table is another one reordered (`Table.Reordered`) if it has the same
entries, in whatever order, and the same metatable; a machine is another one reordered (`Machine.Reordered`) if its tables are and
nothing else is different, the free list and the generations of free slots included. Whatever is read off a machine by looking
something up is the same on a machine reordered.
-/

namespace ScriptHost

variable {χ σ : Type}

theorem exists_of_rel {α β : Type} {R : α → β → Prop} {x : Option α} {y : Option β} (h : Option.Rel R x y) :
    (x = none ∧ y = none) ∨ ∃ a b, x = some a ∧ y = some b ∧ R a b := by
  cases h with
  | none => exact Or.inl ⟨rfl, rfl⟩
  | some h => exact Or.inr ⟨_, _, rfl, rfl, h⟩

/-! ## Tables -/

namespace Table

/-- The second table has the entries of the first, of which no two are under one key, in some order. -/
structure Reordered (t t' : Table) : Prop where
  unique : t.Unique
  entries : t.entries.Perm t'.entries
  metatable : t'.metatable = t.metatable

variable {t t' t'' : Table}

theorem Unique.reordered (ht : t.Unique) : t.Reordered t := ⟨ht, .refl _, rfl⟩

namespace Reordered

theorem unique_right (h : t.Reordered t') : t'.Unique := (h.entries.map Prod.fst).nodup_iff.1 h.unique

theorem symm (h : t.Reordered t') : t'.Reordered t := ⟨h.unique_right, h.entries.symm, h.metatable.symm⟩

theorem find? (h : t.Reordered t') (k : Key) : t'.find? k = t.find? k := by
  refine Option.ext fun v => ?_
  rw [← h.unique.mem_entries_iff, ← h.unique_right.mem_entries_iff]
  exact h.entries.mem_iff.symm

theorem get (h : t.Reordered t') (k : Key) : t'.get k = t.get k := by
  unfold Table.get
  rw [h.find?]

theorem field (h : t.Reordered t') (name : String) : t'.field name = t.field name := h.get _

theorem size (h : t.Reordered t') : t'.size = t.size := h.entries.length_eq.symm

theorem leadingTexts (h : t.Reordered t') : t'.leadingTexts = t.leadingTexts := by
  unfold Table.leadingTexts
  simp only [h.size, h.get]

theorem filter (h : t.Reordered t') (p : Key × Value → Bool) :
    Table.Reordered { t with entries := t.entries.filter p } { t' with entries := t'.entries.filter p } :=
  ⟨h.unique.filter p, h.entries.filter p, h.metatable⟩

theorem erase (h : t.Reordered t') (k : Key) : (t.erase k).Reordered (t'.erase k) := h.filter _

theorem set (h : t.Reordered t') (k : Key) (v : Value) : (t.set k v).Reordered (t'.set k v) := by
  refine ⟨h.unique.set k v, ?_, by rw [metatable_set, metatable_set, h.metatable]⟩
  unfold Table.set
  by_cases hv : v.isNil = true
  · rw [if_pos hv, if_pos hv]
    exact (h.erase k).entries
  · rw [if_neg hv, if_neg hv]
    exact (h.erase k).entries.cons (k, v)

end Reordered

end Table

/-! ## Objects and slots -/

/-- The second object is the first, or both are tables and the second is the first reordered. -/
inductive Object.Reordered : Object χ → Object χ → Prop where
  | table {t t' : Table} (h : t.Reordered t') : Reordered (.table t) (.table t')
  | userdata (u : Userdata) : Reordered (.userdata u) (.userdata u)
  | function (f : NativeFunction χ) : Reordered (.function f) (.function f)

/-- The slot is of the same generation, and free or with the object reordered. -/
structure Slot.Reordered (s s' : Slot χ) : Prop where
  generation : s'.generation = s.generation
  object : Option.Rel Object.Reordered s.object s'.object

theorem Object.Reordered.symm {o o' : Object χ} (h : o.Reordered o') : o'.Reordered o := by
  cases h with
  | table h => exact .table h.symm
  | userdata u => exact .userdata u
  | function f => exact .function f

theorem Object.reordered_refl {o : Object χ} (ho : ∀ t, o = .table t → t.Unique) : o.Reordered o := by
  cases o with
  | table t => exact .table (ho t rfl).reordered
  | userdata u => exact .userdata u
  | function f => exact .function f

theorem Object.IsNew.reordered {o : Object χ} (ho : o.IsNew) : o.Reordered o :=
  reordered_refl fun t e => by
    subst e
    rw [ho]
    exact Table.unique_empty

/-! ## Heaps -/

namespace Heap

/-- The second heap has the same objects in the same slots, tables reordered, and reuses the same slots. -/
structure Reordered (h h' : Heap χ) : Prop where
  slots : ∀ i : Nat, Option.Rel Slot.Reordered h.slots[i]? h'.slots[i]?
  free : h'.free = h.free
  live : h'.live = h.live

variable {h h' : Heap χ} {r : Ref}

theorem WellFormed.reordered (hw : h.WellFormed) : h.Reordered h := by
  refine ⟨fun i => ?_, rfl, rfl⟩
  cases hi : h.slots[i]? with
  | none => exact .none
  | some s =>
    refine .some ⟨rfl, ?_⟩
    cases ho : s.object with
    | none => exact .none
    | some o =>
      have hr : h.object? ⟨i, s.generation⟩ = some o := object?_eq_some_iff.2 ⟨s, hi, rfl, ho⟩
      exact .some (Object.reordered_refl fun t e => hw.unique _ t (hr.trans (congrArg some e)))

namespace Reordered

theorem symm (h₁ : h.Reordered h') : h'.Reordered h := by
  refine ⟨fun i => ?_, h₁.free.symm, h₁.live.symm⟩
  obtain ⟨hx, hy⟩ | ⟨s, s', hx, hy, hs⟩ := exists_of_rel (h₁.slots i)
  · rw [hx, hy]
    exact .none
  · rw [hx, hy]
    refine .some ⟨hs.generation.symm, ?_⟩
    obtain ⟨hx, hy⟩ | ⟨o, o', hx, hy, ho⟩ := exists_of_rel hs.object
    · rw [hx, hy]
      exact .none
    · rw [hx, hy]
      exact .some ho.symm

theorem capacity (h₁ : h.Reordered h') : h'.capacity = h.capacity := by
  have hle : ∀ {h h' : Heap χ}, h.Reordered h' → h'.capacity ≤ h.capacity := by
    intro h h' h₁
    obtain ⟨-, hy⟩ | ⟨s, s', hx, -⟩ := exists_of_rel (h₁.slots h.slots.size)
    · exact Array.getElem?_eq_none_iff.1 hy
    · rw [Array.getElem?_eq_none (Nat.le_refl _)] at hx
      cases hx
  exact Nat.le_antisymm (hle h₁) (hle h₁.symm)

theorem generation (h₁ : h.Reordered h') (i : Nat) :
    (h'.slots[i]?).map Slot.generation = (h.slots[i]?).map Slot.generation := by
  obtain ⟨hx, hy⟩ | ⟨s, s', hx, hy, hs⟩ := exists_of_rel (h₁.slots i)
  · rw [hx, hy]
  · rw [hx, hy]
    exact congrArg some hs.generation

/-- What a reference finds. -/
theorem object? (h₁ : h.Reordered h') (r : Ref) : Option.Rel Object.Reordered (h.object? r) (h'.object? r) := by
  unfold Heap.object?
  obtain ⟨hx, hy⟩ | ⟨s, s', hx, hy, hs⟩ := exists_of_rel (h₁.slots r.slot)
  · rw [hx, hy]
    exact .none
  · rw [hx, hy]
    simp only [hs.generation]
    split
    · exact hs.object
    · exact .none

theorem contains (h₁ : h.Reordered h') (r : Ref) : h'.contains r = h.contains r := by
  unfold Heap.contains
  obtain ⟨hx, hy⟩ | ⟨o, o', hx, hy, -⟩ := exists_of_rel (h₁.object? r)
  · rw [hx, hy]
  · rw [hx, hy]
    rfl

/-- Both find a table, or both fail in the same way. -/
theorem table (h₁ : h.Reordered h') (r : Ref) :
    (∃ t t', h.table r = .ok t ∧ h'.table r = .ok t' ∧ t.Reordered t' ∧
      h.object? r = some (.table t) ∧ h'.object? r = some (.table t')) ∨
    ∃ e, h.table r = .error e ∧ h'.table r = .error e := by
  unfold Heap.table Heap.get
  obtain ⟨hx, hy⟩ | ⟨o, o', hx, hy, ho⟩ := exists_of_rel (h₁.object? r)
  · rw [hx, hy]
    exact Or.inr ⟨_, rfl, rfl⟩
  · rw [hx, hy]
    cases ho with
    | table ht => exact Or.inl ⟨_, _, rfl, rfl, ht, rfl, rfl⟩
    | userdata u => exact Or.inr ⟨_, rfl, rfl⟩
    | function f => exact Or.inr ⟨_, rfl, rfl⟩

/-- What does not depend on the order is the same, whether a table is found or not. -/
theorem of_table (h₁ : h.Reordered h') (r : Ref) {β : Type} (f : Except Fault Table → β)
    (hf : ∀ t t', t.Reordered t' → f (.ok t') = f (.ok t)) : f (h'.table r) = f (h.table r) := by
  rcases h₁.table r with ⟨t, t', hx, hy, ht, -⟩ | ⟨e, hx, hy⟩
  · rw [hx, hy]
    exact hf t t' ht
  · rw [hx, hy]

theorem userdata (h₁ : h.Reordered h') (r : Ref) : h'.userdata r = h.userdata r := by
  unfold Heap.userdata Heap.get
  obtain ⟨hx, hy⟩ | ⟨o, o', hx, hy, ho⟩ := exists_of_rel (h₁.object? r)
  · rw [hx, hy]
  · rw [hx, hy]
    cases ho <;> rfl

theorem function (h₁ : h.Reordered h') (r : Ref) : h'.function r = h.function r := by
  unfold Heap.function Heap.get
  obtain ⟨hx, hy⟩ | ⟨o, o', hx, hy, ho⟩ := exists_of_rel (h₁.object? r)
  · rw [hx, hy]
  · rw [hx, hy]
    cases ho <;> rfl

theorem refs (h₁ : h.Reordered h') : h'.refs = h.refs := by
  have hsame : ∀ h : Heap χ, h.refs = (h.slots.toList.zipIdx.map fun e =>
      e.1.object.map fun _ => Ref.mk e.2 e.1.generation).filterMap id := fun h => by
    rw [List.filterMap_map]
    rfl
  rw [hsame, hsame]
  congr 1
  refine List.ext_getElem? fun i => ?_
  simp only [List.getElem?_map, List.getElem?_zipIdx, Array.getElem?_toList]
  obtain ⟨hx, hy⟩ | ⟨s, s', hx, hy, hs⟩ := exists_of_rel (h₁.slots i)
  · rw [hx, hy]
  · rw [hx, hy]
    obtain ⟨hx, hy⟩ | ⟨o, o', hx, hy, -⟩ := exists_of_rel hs.object
    · simp [hx, hy]
    · simp [hx, hy, hs.generation]

/-! ### What is made, overwritten and freed -/

theorem modify (h₁ : h.Reordered h') (i : Nat) {f f' : Slot χ → Slot χ} (hf : ∀ s s', s.Reordered s' → (f s).Reordered (f' s'))
    (j : Nat) : Option.Rel Slot.Reordered (h.slots.modify i f)[j]? (h'.slots.modify i f')[j]? := by
  simp only [Array.getElem?_modify]
  by_cases hij : i = j
  · rw [if_pos hij, if_pos hij]
    obtain ⟨hx, hy⟩ | ⟨s, s', hx, hy, hs⟩ := exists_of_rel (h₁.slots j)
    · rw [hx, hy]
      exact .none
    · rw [hx, hy]
      exact .some (hf s s' hs)
  · rw [if_neg hij, if_neg hij]
    exact h₁.slots j

theorem put (h₁ : h.Reordered h') (i : Nat) {o o' : Object χ} (ho : o.Reordered o') : (h.put i o).Reordered (h'.put i o') :=
  ⟨h₁.modify i fun _ _ hs => ⟨hs.generation, .some ho⟩, h₁.free, h₁.live⟩

theorem allocate (h₁ : h.Reordered h') {o o' : Object χ} (ho : o.Reordered o') :
    (h'.allocate o').1 = (h.allocate o).1 ∧ (h.allocate o).2.Reordered (h'.allocate o').2 := by
  have hsize : h'.slots.size = h.slots.size := h₁.capacity
  unfold Heap.allocate
  rw [h₁.free]
  cases h.free with
  | nil =>
    refine ⟨congrArg (Ref.mk · 0) hsize, fun i => ?_, rfl, congrArg (· + 1) h₁.live⟩
    simp only [Array.getElem?_push, hsize]
    split
    · exact .some ⟨rfl, .some ho⟩
    · exact h₁.slots i
  | cons i rest =>
    refine ⟨congrArg (fun g => Ref.mk i (g.getD 0)) (h₁.generation i), fun j => ?_, rfl, congrArg (· + 1) h₁.live⟩
    exact (h₁.put i ho).slots j

theorem release (h₁ : h.Reordered h') (r : Ref) : (h.release r).Reordered (h'.release r) := by
  unfold Heap.release
  rw [h₁.contains]
  split
  · exact ⟨h₁.modify r.slot fun _ _ hs => ⟨congrArg (· + 1) hs.generation, .none⟩, congrArg (r.slot :: ·) h₁.free,
      congrArg (· - 1) h₁.live⟩
  · exact h₁

end Reordered

end Heap

/-! ## Machines -/

namespace Machine

/-- The second machine has its tables reordered, and nothing else is different. -/
structure Reordered (m n : Machine χ σ) : Prop where
  heap : m.heap.Reordered n.heap
  rest : n = { m with heap := n.heap }

variable {m n : Machine χ σ}

namespace Reordered

theorem registry (h : m.Reordered n) : n.registry = m.registry := by rw [h.rest]

theorem globals (h : m.Reordered n) : n.globals = m.globals := by rw [h.rest]

theorem stack (h : m.Reordered n) : n.stack = m.stack := by rw [h.rest]

theorem pins (h : m.Reordered n) : n.pins = m.pins := by rw [h.rest]

theorem limits (h : m.Reordered n) : n.limits = m.limits := by rw [h.rest]

theorem depth (h : m.Reordered n) : n.depth = m.depth := by rw [h.rest]

theorem pending (h : m.Reordered n) : n.pending = m.pending := by rw [h.rest]

theorem collecting (h : m.Reordered n) : n.collecting = m.collecting := by rw [h.rest]

theorem statistics (h : m.Reordered n) : n.statistics = m.statistics := by rw [h.rest]

theorem roots (h : m.Reordered n) : n.roots = m.roots := by
  unfold Machine.roots
  rw [h.registry, h.globals, h.stack, h.pins, h.pending]

/-- The same change of everything but the heap on both. -/
theorem change (h : m.Reordered n) {f : Machine χ σ → Machine χ σ} (hheap : ∀ m, (f m).heap = m.heap)
    (hf : ∀ (m : Machine χ σ) heap, f { m with heap } = { f m with heap }) : (f m).Reordered (f n) := by
  refine ⟨by rw [hheap, hheap]; exact h.heap, ?_⟩
  rw [hheap, ← hf, ← h.rest]

/-! ### What is read -/

theorem rawGet (h : m.Reordered n) (t : Ref) (k : Value) : n.rawGet t k = m.rawGet t k := by
  unfold Machine.rawGet
  obtain ⟨t, t', hx, hy, ht, -⟩ | ⟨e, hx, hy⟩ := h.heap.table t
  · simp only [hx, hy, ht.get]
  · simp only [hx, hy]

theorem rawField (h : m.Reordered n) (t : Ref) (name : String) : n.rawField t name = m.rawField t name := by
  unfold Machine.rawField
  obtain ⟨t, t', hx, hy, ht, -⟩ | ⟨e, hx, hy⟩ := h.heap.table t
  · simp only [hx, hy, ht.field]
  · simp only [hx, hy]

theorem metatable (h : m.Reordered n) (v : Value) : n.metatable v = m.metatable v := by
  cases v with
  | table r =>
    obtain ⟨t, t', hx, hy, ht, -⟩ | ⟨e, hx, hy⟩ := h.heap.table r
    · simp only [Machine.metatable, hx, hy, ht.metatable]
    · simp only [Machine.metatable, hx, hy]
  | userdata r => simp only [Machine.metatable, h.heap.userdata]
  | _ => rfl

theorem metafield (h : m.Reordered n) (v : Value) (name : String) : n.metafield v name = m.metafield v name := by
  unfold Machine.metafield
  simp only [h.metatable, h.rawField]

theorem environment (h : m.Reordered n) (u : Ref) : n.environment u = m.environment u := by
  unfold Machine.environment
  rw [h.heap.userdata]

theorem registryField (h : m.Reordered n) (name : String) : n.registryField name = m.registryField name := by
  unfold Machine.registryField
  rw [h.registry, h.rawField]

theorem find? (h : m.Reordered n) (name : String) : Registry.find? n name = Registry.find? m name := by
  unfold Registry.find?
  rw [h.registryField]

theorem identity? (h : m.Reordered n) (v : Value) : n.identity? v = m.identity? v := by
  unfold Machine.identity? Machine.address?
  simp only [h.heap.userdata]

theorem classTable? (h : m.Reordered n) (name : String) : n.classTable? name = m.classTable? name := by
  unfold Machine.classTable?
  simp only [h.find?, h.rawField]

theorem isInstalled (h : m.Reordered n) (name : String) : n.isInstalled name = m.isInstalled name := by
  unfold Machine.isInstalled
  rw [h.classTable?]

theorem checkBases (h : m.Reordered n) (listed : List String) (name : String) (bases : List String) :
    n.checkBases listed name bases = m.checkBases listed name bases := by
  induction bases with
  | nil => rfl
  | cons base bases ih => rw [Machine.checkBases, Machine.checkBases, h.isInstalled, ih]

theorem checkClasses (h : m.Reordered n) (listed : List String) (classes : List (ClassDescriptor χ)) :
    n.checkClasses listed classes = m.checkClasses listed classes := by
  induction classes generalizing listed with
  | nil => rfl
  | cons d rest ih =>
    have hclass : n.checkClass listed d = m.checkClass listed d := by
      rw [Machine.checkClass, Machine.checkClass, h.isInstalled, h.checkBases]
    rw [Machine.checkClasses, Machine.checkClasses, hclass, ih]

theorem baseTables (h : m.Reordered n) (bases : List String) : n.baseTables bases = m.baseTables bases := by
  induction bases with
  | nil => rfl
  | cons base bases ih => simp only [Machine.baseTables, h.classTable?, ih]

theorem shadow? (h : m.Reordered n) (v : Value) : Attribute.shadow? n v = Attribute.shadow? m v := by
  unfold Attribute.shadow?
  simp only [h.environment]

theorem inShadow (h : m.Reordered n) (receiver key : Value) :
    Attribute.inShadow n receiver key = Attribute.inShadow m receiver key := by
  unfold Attribute.inShadow
  simp only [h.shadow?, h.rawGet]

theorem inClass (h : m.Reordered n) (key cls : Value) : Attribute.inClass n key cls = Attribute.inClass m key cls := by
  unfold Attribute.inClass
  simp only [h.rawGet]

theorem readHop (h : m.Reordered n) (current key : Value) : n.readHop current key = m.readHop current key := by
  unfold Machine.readHop Machine.handlerHop
  simp only [h.rawGet, h.metafield]

theorem writeHop (h : m.Reordered n) (current key : Value) : n.writeHop current key = m.writeHop current key := by
  unfold Machine.writeHop Machine.handlerHop
  simp only [h.rawGet, h.metafield]

theorem callee (h : m.Reordered n) (f : Value) (args : List Value) : n.callee f args = m.callee f args := by
  unfold Machine.callee
  simp only [h.limits, h.depth, h.stack, h.heap.function]

theorem finalizer? (h : m.Reordered n) (r : Ref) : n.finalizer? r = m.finalizer? r := by
  unfold Machine.finalizer?
  rw [h.metafield]

end Reordered

theorem Reordered.symm (h : m.Reordered n) : n.Reordered m := by
  refine ⟨h.heap.symm, ?_⟩
  rw [h.rest]

end Machine

end ScriptHost

import Mathlib.Data.List.Nodup
import ScriptHost.Proofs.Course
import ScriptHost.Proofs.Edits

/-!
# Generations

A reference says which slot it is for and which generation of that slot. The generation of a slot is the number of times the slot
was freed (`Heap.Dated`), and a new object gets a reference of the generation its slot has come to. So as long as no slot is freed
as often as there are generations, no reference is given twice, and one whose object was freed finds nothing ever after, whatever is
in its slot by then (`references_never_come_back`). Everything that looks such a reference up says that it is stale and changes
nothing (`Machine.Refuses`).
-/

namespace ScriptHost

variable {χ σ : Type}

/-! ## What happens to slots -/

/-- A new object gets a reference, or the object of a reference is freed. -/
inductive Deed where
  | made (r : Ref)
  | freed (r : Ref)
  deriving DecidableEq, Repr

namespace Deed

/-- The reference that a new object gets. -/
def made? : Deed → Option Ref
  | made r => some r
  | freed _ => none

/-- The references that new objects get, in their order. -/
def refs (ds : List Deed) : List Ref := ds.filterMap made?

/-- The object of the slot is freed. -/
def frees (i : Nat) : Deed → Bool
  | made _ => false
  | freed r => r.slot == i

/-- How often a slot is freed. -/
def count (i : Nat) (ds : List Deed) : Nat := ds.countP (frees i)

variable {ds ds' : List Deed} {r : Ref} {i : Nat}

theorem mem_refs_iff : r ∈ refs ds ↔ made r ∈ ds := by
  unfold refs
  rw [List.mem_filterMap]
  constructor
  · rintro ⟨d, hd, hr⟩
    cases d with
    | made s =>
      cases hr
      exact hd
    | freed s => cases hr
  · exact fun h => ⟨_, h, rfl⟩

theorem refs_append (ds ds' : List Deed) : refs (ds ++ ds') = refs ds ++ refs ds' := List.filterMap_append

theorem count_append (i : Nat) (ds ds' : List Deed) : count i (ds ++ ds') = count i ds + count i ds' := List.countP_append

theorem count_freed (i : Nat) (r : Ref) : count i [freed r] = if r.slot = i then 1 else 0 := by
  simp [count, frees, List.countP_cons]

/-- Making frees nothing. -/
theorem count_eq_zero (h : ∀ d ∈ ds, ∃ r, d = made r) : count i ds = 0 := by
  refine List.countP_eq_zero.2 fun d hd => ?_
  obtain ⟨r, rfl⟩ := h d hd
  exact Bool.false_ne_true

end Deed

/-- What a slot shows of itself apart from its object: its generation, and whether it has one. -/
def Slot.place (s : Slot χ) : UInt32 × Bool := (s.generation, s.object.isSome)

namespace Heap

/-- Other objects at the same references, and the same slots to be reused. -/
structure Overwrites (h h' : Heap χ) : Prop where
  wellFormed : h'.WellFormed
  free : h'.free = h.free
  place : ∀ i : Nat, (h'.slots[i]?).map Slot.place = (h.slots[i]?).map Slot.place

/-- The deeds, one after the other, make the second heap of the first. In between, objects that are there may become others. -/
inductive Does : Heap χ → List Deed → Heap χ → Prop where
  | refl (h : Heap χ) : Does h [] h
  | make {h h' : Heap χ} {ds : List Deed} (hd : Does h ds h') {o : Object χ} (ho : o.IsNew) :
      Does h (ds ++ [.made (h'.allocate o).1]) (h'.allocate o).2
  | overwrite {h h' h'' : Heap χ} {ds : List Deed} (hd : Does h ds h') (hw : h'.Overwrites h'') : Does h ds h''
  | release {h h' : Heap χ} {ds : List Deed} (hd : Does h ds h') {r : Ref} (hr : h'.contains r = true) :
      Does h (ds ++ [.freed r]) (h'.release r)

variable {h h' h'' : Heap χ} {ds ds' : List Deed} {r : Ref} {i : Nat}

theorem Does.trans (hd : Does h ds h') (hd' : Does h' ds' h'') : Does h (ds ++ ds') h'' := by
  induction hd' with
  | refl => rwa [List.append_nil]
  | make _ ho ih => exact List.append_assoc .. ▸ ih.make ho
  | overwrite _ hw ih => exact ih.overwrite hw
  | release _ hr ih => exact List.append_assoc .. ▸ ih.release hr

theorem WellFormed.make (hw : h.WellFormed) {o : Object χ} (ho : o.IsNew) : (h.allocate o).2.WellFormed :=
  hw.step (.allocate o ho)

theorem Does.wellFormed (hd : Does h ds h') (hw : h.WellFormed) : h'.WellFormed := by
  induction hd with
  | refl => exact hw
  | make _ ho ih => exact ih.make ho
  | overwrite _ hw' _ => exact hw'.wellFormed
  | release _ _ ih => exact ih.release _

/-! ## The generation of a slot counts how often it was freed -/

/-- After the deeds each slot is of the generation that it was freed so often for, and no other slot was freed. -/
structure Counted (ds : List Deed) (h : Heap χ) : Prop where
  generation : ∀ i s, h.slots[i]? = some s → s.generation.toNat = Deed.count i ds
  beyond : ∀ i, h.capacity ≤ i → Deed.count i ds = 0

/-- What the deeds have made and freed, told by generations: a reference that was made finds an object, or its slot was freed again
since, and one that was freed finds nothing for the same reason. -/
structure Dated (ds : List Deed) (h : Heap χ) : Prop extends Counted ds h where
  made : ∀ r, .made r ∈ ds → h.contains r = true ∨ r.generation.toNat < Deed.count r.slot ds
  freed : ∀ r, .freed r ∈ ds → r.generation.toNat < Deed.count r.slot ds
  nodup : (Deed.refs ds).Nodup

/-- A reference that finds something is of the last generation of its slot. -/
theorem Counted.generation_eq (hc : Counted ds h) (hr : h.contains r = true) : r.generation.toNat = Deed.count r.slot ds := by
  obtain ⟨o, ho⟩ := contains_iff.1 hr
  obtain ⟨s, hs, hg, -⟩ := object?_eq_some_iff.1 ho
  rw [← hg]
  exact hc.generation _ s hs

theorem Counted.overwrite (hc : Counted ds h) (hw : h.Overwrites h') : Counted ds h' := by
  have hplace := hw.place
  refine ⟨fun i s hs => ?_, fun i hi => hc.beyond i ?_⟩
  · have hsame := hplace i
    rw [hs] at hsame
    obtain ⟨s', hs', heq⟩ := Option.map_eq_some_iff.1 hsame.symm
    rw [← hc.generation i s' hs', show s'.generation = s.generation from congrArg Prod.fst heq]
  · have hsame := hplace i
    rw [Array.getElem?_eq_none hi] at hsame
    exact Array.getElem?_eq_none_iff.1 (Option.map_eq_none_iff.1 hsame.symm)

/-- A slot that is made or reused has the generation it had, or the first one. -/
theorem generation_allocate {o : Object χ} {s : Slot χ} (hs : (h.allocate o).2.slots[i]? = some s) :
    (∃ s', h.slots[i]? = some s' ∧ s'.generation = s.generation) ∨ i = h.capacity ∧ s.generation = 0 := by
  unfold allocate at hs
  split at hs
  · simp only [put, Array.getElem?_modify] at hs
    split at hs
    · obtain ⟨s', hs', rfl⟩ := Option.map_eq_some_iff.1 hs
      exact Or.inl ⟨s', hs', rfl⟩
    · exact Or.inl ⟨s, hs, rfl⟩
  · simp only [Array.getElem?_push] at hs
    split at hs
    · cases hs
      exact Or.inr ⟨by assumption, rfl⟩
    · exact Or.inl ⟨s, hs, rfl⟩

theorem capacity_le_allocate (h : Heap χ) (o : Object χ) : h.capacity ≤ (h.allocate o).2.capacity := by
  unfold allocate
  split <;> simp [capacity, put]

theorem Counted.make (hc : Counted ds h) (o : Object χ) : Counted (ds ++ [.made r]) (h.allocate o).2 := by
  have hsame : ∀ i, Deed.count i (ds ++ [.made r]) = Deed.count i ds := fun i => Deed.count_append i ds _
  refine ⟨fun i s hs => ?_, fun i hi => ?_⟩
  · rw [hsame]
    rcases generation_allocate hs with ⟨s', hs', hg⟩ | ⟨rfl, hg⟩
    · rw [← hg]
      exact hc.generation i s' hs'
    · rw [hg, hc.beyond _ (Nat.le_refl _)]
      rfl
  · rw [hsame]
    exact hc.beyond i (Nat.le_trans (h.capacity_le_allocate o) hi)

/-- The generation that a release moves a slot on to is one more, as long as there is one. -/
theorem Counted.release (hc : Counted ds h) (hr : h.contains r = true)
    (hmax : Deed.count r.slot (ds ++ [.freed r]) < UInt32.size) : Counted (ds ++ [.freed r]) (h.release r) := by
  have hcount : ∀ i, Deed.count i (ds ++ [.freed r]) = Deed.count i ds + if r.slot = i then 1 else 0 := fun i => by
    rw [Deed.count_append, Deed.count_freed]
  have hslots : (h.release r).slots = h.slots.modify r.slot (fun s => ⟨s.generation + 1, none⟩) := by
    unfold Heap.release
    rw [if_pos hr]
  refine ⟨fun i s hs => ?_, fun i hi => ?_⟩
  · rw [hcount]
    rw [hslots, Array.getElem?_modify] at hs
    split at hs
    · rename_i hi
      obtain ⟨s', hs', rfl⟩ := Option.map_eq_some_iff.1 hs
      subst hi
      rw [hcount, if_pos rfl] at hmax
      have hg := hc.generation _ s' hs'
      rw [if_pos rfl, UInt32.toNat_add, hg]
      exact Nat.mod_eq_of_lt hmax
    · rename_i hi
      rw [if_neg hi]
      exact hc.generation i s hs
  · have hcapacity : (h.release r).capacity = h.capacity := by rw [capacity, hslots, Array.size_modify, capacity]
    rw [hcapacity] at hi
    rw [hcount, hc.beyond i hi, if_neg]
    exact Nat.ne_of_lt (Nat.lt_of_lt_of_le (slot_lt_of_contains hr) hi)

theorem Overwrites.contains_eq (hw : h.Overwrites h') (r : Ref) : h'.contains r = h.contains r := by
  have hfound : ∀ h : Heap χ, h.contains r = ((h.slots[r.slot]?).map Slot.place).any fun p => p.1 == r.generation && p.2 := by
    intro h
    unfold contains object?
    cases h.slots[r.slot]? with
    | none => rfl
    | some s => by_cases hg : s.generation = r.generation <;> simp [Slot.place, hg]
  rw [hfound, hfound, hw.place]

theorem Dated.overwrite (hd : Dated ds h) (hw : h.Overwrites h') : Dated ds h' :=
  ⟨hd.toCounted.overwrite hw, fun r hr => hw.contains_eq r ▸ hd.made r hr, hd.freed, hd.nodup⟩

/-- A new object gets a reference that no object had before. -/
theorem Dated.make (hd : Dated ds h) (hw : h.WellFormed) (o : Object χ) :
    Dated (ds ++ [.made (h.allocate o).1]) (h.allocate o).2 := by
  have hc : Counted (ds ++ [.made (h.allocate o).1]) (h.allocate o).2 := hd.toCounted.make o
  have hsame : ∀ i, Deed.count i (ds ++ [.made (h.allocate o).1]) = Deed.count i ds := fun i => Deed.count_append i ds _
  have hfound : (h.allocate o).2.contains (h.allocate o).1 = true :=
    contains_of_object? ((hw.object?_allocate o _).trans (if_pos rfl))
  refine ⟨hc, fun r hr => ?_, fun r hr => ?_, ?_⟩
  · rcases List.mem_append.1 hr with hr | hr
    · rw [hsame]
      refine (hd.made r hr).imp_left fun hin => ?_
      obtain ⟨p, hp⟩ := contains_iff.1 hin
      refine contains_of_object? ((hw.object?_allocate o r).trans ((if_neg ?_).trans hp))
      rintro rfl
      exact hw.not_contains_allocate o hin
    · cases List.mem_singleton.1 hr
      exact Or.inl hfound
  · rw [hsame]
    rcases List.mem_append.1 hr with hr | hr
    · exact hd.freed r hr
    · cases List.mem_singleton.1 hr
  · rw [Deed.refs_append]
    refine List.nodup_append.2 ⟨hd.nodup, by simp [Deed.refs, Deed.made?], fun s hs t ht => ?_⟩
    cases List.mem_singleton.1 ht
    rintro rfl
    rcases hd.made _ (Deed.mem_refs_iff.1 hs) with hin | hlt
    · exact hw.not_contains_allocate o hin
    · rw [← hsame, ← hc.generation_eq hfound] at hlt
      exact Nat.lt_irrefl _ hlt

theorem Dated.release (hd : Dated ds h) (hr : h.contains r = true) (hmax : Deed.count r.slot (ds ++ [.freed r]) < UInt32.size) :
    Dated (ds ++ [.freed r]) (h.release r) := by
  have hcount : ∀ i, Deed.count i ds ≤ Deed.count i (ds ++ [.freed r]) := fun i => by
    rw [Deed.count_append]
    exact Nat.le_add_right _ _
  have hlt : r.generation.toNat < Deed.count r.slot (ds ++ [.freed r]) := by
    rw [Deed.count_append, Deed.count_freed, if_pos rfl, hd.toCounted.generation_eq hr]
    exact Nat.lt_succ_self _
  refine ⟨hd.toCounted.release hr hmax, fun s hs => ?_, fun s hs => ?_, ?_⟩
  · have hs : .made s ∈ ds := by simpa using hs
    by_cases hsr : s = r
    · exact Or.inr (hsr ▸ hlt)
    · refine (hd.made s hs).imp (fun hin => ?_) fun h => Nat.lt_of_lt_of_le h (hcount _)
      unfold contains
      rw [object?_release, if_neg hsr]
      exact hin
  · rcases List.mem_append.1 hs with hs | hs
    · exact Nat.lt_of_lt_of_le (hd.freed s hs) (hcount _)
    · cases List.mem_singleton.1 hs
      exact hlt
  · have hrefs : Deed.refs (ds ++ [.freed r]) = Deed.refs ds := (Deed.refs_append _ _).trans (List.append_nil _)
    rw [hrefs]
    exact hd.nodup

theorem dated_empty : Dated [] (Heap.empty : Heap χ) :=
  ⟨⟨fun i s hs => by simp [empty] at hs, fun _ _ => rfl⟩, fun _ hr => absurd hr List.not_mem_nil,
    fun _ hr => absurd hr List.not_mem_nil, List.nodup_nil⟩

/-- From the heap without slots on, everything is told by generations until a slot has gone through all of them. -/
theorem Does.dated (hd : Does .empty ds h) (hmax : ∀ i, Deed.count i ds < UInt32.size) : Dated ds h := by
  have hearlier : ∀ {ds ds' : List Deed}, (∀ i, Deed.count i (ds ++ ds') < UInt32.size) → ∀ i, Deed.count i ds < UInt32.size :=
    fun hmax i => Nat.lt_of_le_of_lt (Nat.le_add_right _ _) (Deed.count_append i _ _ ▸ hmax i)
  induction hd with
  | refl => exact dated_empty
  | make hd _ ih => exact (ih (hearlier hmax)).make (hd.wellFormed wellFormed_empty) _
  | overwrite _ hw ih => exact (ih hmax).overwrite hw
  | release _ hr ih => exact (ih (hearlier hmax)).release hr (hmax _)

/-- What was freed finds nothing. -/
theorem Dated.not_contains_of_freed (hd : Dated ds h) (hr : .freed r ∈ ds) : ¬h.contains r = true := by
  intro hin
  have hlt := hd.freed r hr
  rw [hd.toCounted.generation_eq hin] at hlt
  exact Nat.lt_irrefl _ hlt

/-! ### All generations of a slot -/

/-- The heap of one slot, free and of a generation. -/
def vacant (g : UInt32) : Heap χ := ⟨#[⟨g, none⟩], [0], 0⟩

/-- An object is made in the slot and freed. -/
theorem does_vacant (g : UInt32) : Does (vacant g : Heap χ) [.made ⟨0, g⟩, .freed ⟨0, g⟩] (vacant (g + 1)) := by
  have hmade : Does (vacant g : Heap χ) [.made ⟨0, g⟩] ⟨#[⟨g, some (.table .empty)⟩], [], 1⟩ :=
    (Does.refl _).make (o := .table .empty) rfl
  have hin : Heap.contains (⟨#[⟨g, some (.table .empty)⟩], [], 1⟩ : Heap χ) ⟨0, g⟩ = true := by simp [contains, object?]
  have hfreed : Heap.release (⟨#[⟨g, some (.table .empty)⟩], [], 1⟩ : Heap χ) ⟨0, g⟩ = vacant (g + 1) := by
    unfold Heap.release
    rw [if_pos hin]
    rfl
  exact hfreed ▸ hmade.release hin

/-- In a heap of one slot, a slot is freed as often as one likes. -/
theorem exists_does_vacant (n : Nat) : ∃ ds, Does (.empty : Heap χ) ds (vacant (UInt32.ofNat (n + 1))) ∧
    .made ⟨0, 0⟩ ∈ ds ∧ ∀ i, Deed.count i ds ≤ n + 1 := by
  have hround : ∀ (i : Nat) (g : UInt32), Deed.count i [.made ⟨0, g⟩, .freed ⟨0, g⟩] ≤ 1 := fun i g =>
    List.countP_le_length (l := [Deed.freed ⟨0, g⟩])
  induction n with
  | zero =>
    have hmade : Does (.empty : Heap χ) [.made ⟨0, 0⟩] ⟨#[⟨0, some (.table .empty)⟩], [], 1⟩ :=
      (Does.refl _).make (o := .table .empty) rfl
    exact ⟨_, hmade.release (r := ⟨0, 0⟩) rfl, List.mem_cons_self, fun i => hround i 0⟩
  | succ n ih =>
    obtain ⟨ds, hd, hmem, hcount⟩ := ih
    have hnext : UInt32.ofNat (n + 1) + 1 = UInt32.ofNat (n + 1 + 1) := (UInt32.ofNat_add (n + 1) 1).symm
    refine ⟨_, hnext ▸ hd.trans (does_vacant _), List.mem_append_left _ hmem, fun i => ?_⟩
    rw [Deed.count_append]
    exact Nat.add_le_add (hcount i) (hround i _)

/-- A slot that is freed as often as there are generations is of its first one again, and the reference that is made then was made
before. -/
theorem exists_made_twice : ∃ (ds : List Deed) (h : Heap χ), Does .empty ds h ∧ (∀ i, Deed.count i ds ≤ UInt32.size) ∧
    ¬(Deed.refs ds).Nodup := by
  obtain ⟨ds, hd, hmem, hcount⟩ := exists_does_vacant (χ := χ) (UInt32.size - 1)
  refine ⟨_, _, hd.make (o := .table .empty) rfl, fun i => ?_, fun hn => ?_⟩
  · rw [Deed.count_append]
    exact hcount i
  · rw [Deed.refs_append] at hn
    exact (List.nodup_append.1 hn).2.2 ⟨0, 0⟩ (Deed.mem_refs_iff.2 hmem) ⟨0, 0⟩ List.mem_cons_self rfl

/-! ## Steps and sweeps as deeds -/

theorem overwrites_put (hw : h.WellFormed) {o p : Object χ} (hr : h.object? r = some p) (ho : ∀ t, o = .table t → t.Unique) :
    h.Overwrites (h.put r.slot o) := by
  obtain ⟨s, hs, -, hp⟩ := object?_eq_some_iff.1 hr
  refine ⟨hw.put (contains_of_object? hr) ho, rfl, fun i => ?_⟩
  simp only [put, Array.getElem?_modify]
  split
  · rename_i hi
    subst hi
    simp [hs, Slot.place, hp]
  · rfl

theorem Step.does (hs : h.Step h') (hw : h.WellFormed) : ∃ ds, Does h ds h' ∧ ∀ d ∈ ds, ∃ r, d = .made r := by
  have hput : ∀ {r : Ref} {o p : Object χ}, h.object? r = some p → (h.put r.slot o).WellFormed →
      ∃ ds, Does h ds (h.put r.slot o) ∧ ∀ d ∈ ds, ∃ r, d = .made r := by
    intro r o p hr hw'
    refine ⟨[], (Does.refl h).overwrite (overwrites_put hw hr fun t e => ?_), fun _ hd => absurd hd List.not_mem_nil⟩
    refine hw'.unique r t ?_
    rw [object?_put (contains_of_object? hr), if_pos rfl, e]
  have hw' := hw.step hs
  cases hs with
  | allocate o ho => exact ⟨_, (Does.refl h).make ho, fun d hd => ⟨_, List.mem_singleton.1 hd⟩⟩
  | store k v ht => exact hput ht hw'
  | erase k ht => exact hput ht hw'
  | tableClass mt ht => exact hput ht hw'
  | userdata hu _ => exact hput hu hw'

theorem Overwrites.trans (hw : h.Overwrites h') (hw' : h'.Overwrites h'') : h.Overwrites h'' :=
  ⟨hw'.wellFormed, hw'.free.trans hw.free, fun i => (hw'.place i).trans (hw.place i)⟩

theorem overwrites_flagAll (hw : h.WellFormed) (refs : List Ref) : h.Overwrites (h.flagAll refs) := by
  unfold flagAll
  induction refs generalizing h with
  | nil => exact ⟨hw, rfl, fun _ => rfl⟩
  | cons r rest ih =>
    rw [List.foldl_cons]
    cases hc : h.changeUserdata r (fun u => { u with finalized := true }) with
    | error e => exact ih hw
    | ok h' =>
      obtain ⟨u, hu, rfl⟩ := changeUserdata_eq_ok_iff.1 hc
      have hput := overwrites_put (o := .userdata { u with finalized := true }) hw hu fun _ e => nomatch e
      exact hput.trans (ih hput.wellFormed)

theorem overwrites_clearWeak (hw : h.WellFormed) (marks : Marks) : h.Overwrites (h.clearWeak marks) := by
  refine ⟨hw.clearWeak marks, rfl, fun i => ?_⟩
  simp only [clearWeak, Array.getElem?_mapIdx]
  cases h.slots[i]? with
  | none => rfl
  | some s =>
    simp only [Option.map_some]
    split <;> simp [Slot.place]

/-- Releasing references that find something, each once. -/
theorem does_releaseAll {refs : List Ref} (hin : ∀ r ∈ refs, h.contains r = true) (hn : refs.Nodup) :
    Does h (refs.map .freed) (h.releaseAll refs) := by
  unfold releaseAll
  induction refs generalizing h with
  | nil => exact .refl h
  | cons r rest ih =>
    obtain ⟨hr, hrest⟩ := List.forall_mem_cons.1 hin
    obtain ⟨hnot, hn⟩ := List.nodup_cons.1 hn
    refine ((Does.refl h).release hr).trans (ih (fun s hs => ?_) hn)
    unfold contains
    rw [object?_release, if_neg (by rintro rfl; exact hnot hs)]
    exact hrest s hs

end Heap

/-! ## Courses and their deeds -/

/-- The deeds of an event: it makes objects, or it is the sweep of a collection and frees what is dead. -/
def Event.Did (m : Machine χ σ) (e : Event χ σ) (ds : List Deed) : Prop :=
  m.heap.Does ds (m.after e).heap ∧
    match e with
    | .sweep => ds = m.dead.map .freed
    | _ => ∀ d ∈ ds, ∃ r, d = .made r

/-- How often the object of a slot is freed by an event: only a sweep frees. -/
def Machine.frees (m : Machine χ σ) (i : Nat) : Event χ σ → Nat
  | .sweep => m.dead.countP (fun r => r.slot == i)
  | _ => 0

/-- The deeds of an event free a slot as often as the event does. -/
theorem Event.Did.count_eq {m : Machine χ σ} {e : Event χ σ} {ds : List Deed} (he : e.Did m ds) (i : Nat) :
    Deed.count i ds = m.frees i e := by
  cases e with
  | sweep =>
    have hds : ds = m.dead.map .freed := he.2
    subst hds
    exact List.countP_map
  | _ => exact Deed.count_eq_zero he.2

namespace Machine

/-- The deeds of the events, one event after the other. -/
def Records : Machine χ σ → List (Event χ σ) → List Deed → Prop
  | _, [], ds => ds = []
  | m, e :: es, ds => ∃ ds₁ ds₂, ds = ds₁ ++ ds₂ ∧ e.Did m ds₁ ∧ (m.after e).Records es ds₂

/-- How often the object of a slot is freed by events. -/
def freesOf (i : Nat) : Machine χ σ → List (Event χ σ) → Nat
  | _, [] => 0
  | m, e :: es => m.frees i e + freesOf i (m.after e) es

variable {m : Machine χ σ} {P : Machine χ σ → Request χ σ → Prop} {e : Event χ σ} {es es' : List (Event χ σ)} {ds ds' : List Deed}
  {r : Ref}

theorem records_append : m.Records (es ++ es') ds ↔
    ∃ ds₁ ds₂, ds = ds₁ ++ ds₂ ∧ m.Records es ds₁ ∧ (m.follow es).Records es' ds₂ := by
  induction es generalizing m ds with
  | nil => exact ⟨fun h => ⟨[], ds, rfl, rfl, h⟩, fun ⟨_, _, hds, hnil, h⟩ => by subst hnil; exact hds ▸ h⟩
  | cons e es ih =>
    constructor
    · rintro ⟨ds₁, ds₂, rfl, he, hrest⟩
      obtain ⟨ds₂, ds₃, rfl, hes, hes'⟩ := ih.1 hrest
      exact ⟨ds₁ ++ ds₂, ds₃, (List.append_assoc ..).symm, ⟨ds₁, ds₂, rfl, he, hes⟩, hes'⟩
    · rintro ⟨_, ds₃, rfl, ⟨ds₁, ds₂, rfl, he, hes⟩, hes'⟩
      exact ⟨ds₁, ds₂ ++ ds₃, List.append_assoc .., he, ih.2 ⟨ds₂, ds₃, rfl, hes, hes'⟩⟩

theorem Records.does (h : m.Records es ds) : m.heap.Does ds (m.follow es).heap := by
  induction es generalizing m ds with
  | nil =>
    cases h
    exact .refl _
  | cons e es ih =>
    obtain ⟨ds₁, ds₂, rfl, he, hes⟩ := h
    exact he.1.trans (ih hes)

/-- The deeds free a slot as often as the events do. -/
theorem Records.count_eq (h : m.Records es ds) (i : Nat) : Deed.count i ds = m.freesOf i es := by
  induction es generalizing m ds with
  | nil =>
    cases h
    rfl
  | cons e es ih =>
    obtain ⟨ds₁, ds₂, rfl, he, hes⟩ := h
    rw [Deed.count_append, ih hes, freesOf, he.count_eq]

/-! ### Every course has a record -/

theorem Steps.does {m' : Machine χ σ} (hs : m.Steps m') (hw : m.heap.WellFormed) :
    ∃ ds, m.heap.Does ds m'.heap ∧ ∀ d ∈ ds, ∃ r, d = .made r := by
  induction hs with
  | refl => exact ⟨[], .refl _, fun _ hd => absurd hd List.not_mem_nil⟩
  | @tail m₁ m₂ _ hs ih =>
    obtain ⟨ds, hd, hmade⟩ := ih
    cases hs with
    | heap hh =>
      obtain ⟨ds', hd', hmade'⟩ := hh.does (hd.wellFormed hw)
      exact ⟨ds ++ ds', hd.trans hd', List.forall_mem_append.2 ⟨hmade, hmade'⟩⟩
    | _ => exact ⟨ds, hd, hmade⟩

theorem does_swept (hw : m.heap.WellFormed) : m.heap.Does (m.dead.map .freed) m.swept.heap := by
  have hflagged := Heap.overwrites_flagAll hw m.doomed
  have hcleared := Heap.overwrites_clearWeak hflagged.wellFormed m.survivors
  refine (((Heap.Does.refl _).overwrite hflagged).overwrite hcleared).trans (Heap.does_releaseAll (fun r hr => ?_) m.nodup_dead)
  rw [hcleared.contains_eq, hflagged.contains_eq]
  exact (mem_dead_iff.1 hr).1

/-- What can happen has deeds. -/
theorem Allows.exists_did (h : m.Allows P e) (hw : m.heap.WellFormed) : ∃ ds, e.Did m ds := by
  have hsteps : ∀ {m' : Machine χ σ}, m.Steps m' → _ := fun hs => Steps.does hs hw
  have hstill : ∀ {m' : Machine χ σ}, m'.heap = m.heap → ∃ ds, m.heap.Does ds m'.heap ∧ ∀ d ∈ ds, ∃ r, d = Deed.made r :=
    fun he => ⟨[], he ▸ .refl _, fun _ hd => absurd hd List.not_mem_nil⟩
  cases e with
  | ask r => exact hsteps (r.perform_steps _ h.1 m)
  | store t key v => exact hsteps (Action.quiet_rawSet t key v m)
  | write call => exact hsteps (Action.quiet_writeAttribute call m)
  | sweep => exact ⟨_, does_swept hw, rfl⟩
  | enter f args => exact hstill rfl
  | leave height => exact hstill rfl
  | queue rest => exact hstill rfl
  | finish s => exact hstill rfl

/-- A course on well-formed heaps has a record. -/
theorem exists_records (h : Course P m es) (hw : m.heap.WellFormed) : ∃ ds, m.Records es ds := by
  induction es generalizing m with
  | nil => exact ⟨[], rfl⟩
  | cons e es ih =>
    obtain ⟨ds₁, he⟩ := Allows.exists_did h.1 hw
    obtain ⟨ds₂, hes⟩ := ih h.2 (he.1.wellFormed hw)
    exact ⟨ds₁ ++ ds₂, ds₁, ds₂, rfl, he, hes⟩

/-- The registry and the globals are the first two objects. -/
theorem does_start (limits : Limits) (host : σ) :
    Heap.Does .empty [.made (start limits host : Machine χ σ).registry, .made (start limits host : Machine χ σ).globals]
      (start limits host : Machine χ σ).heap :=
  ((Heap.Does.refl _).make (o := .table .empty) rfl).make (o := .table .empty) rfl

/-- A slot is freed once by a sweep at most. -/
theorem countP_dead_le (m : Machine χ σ) (i : Nat) : m.dead.countP (fun r => r.slot == i) ≤ 1 := by
  have hslots : (m.dead.map Ref.slot).Nodup := m.nodup_dead.map_on fun r hr s hs h =>
    Heap.eq_of_slot_eq (mem_dead_iff.1 hr).1 (mem_dead_iff.1 hs).1 h
  have hcount := List.nodup_iff_count_le_one.1 hslots i
  rwa [List.count, List.countP_map] at hcount

/-- A slot is freed no more often than there are events. -/
theorem freesOf_le_length (i : Nat) : m.freesOf i es ≤ es.length := by
  induction es generalizing m with
  | nil => exact Nat.le_refl _
  | cons e es ih =>
    have hrest := ih (m := m.after e)
    have hhead : m.frees i e ≤ 1 := by
      cases e with
      | sweep => exact m.countP_dead_le i
      | _ => exact Nat.zero_le _
    rw [freesOf, List.length_cons]
    omega

/-! ## Looking up what is not there -/

/-- Everything that looks the reference up says that it is stale, and changes nothing: as the table, the userdata or the function
that is read, written or called, where nothing else is wrong, and as a metatable or an environment to be. -/
structure Refuses (Γ : Host χ σ) (m : Machine χ σ) (r : Ref) : Prop where
  rawGet : ∀ key, m.rawGet r key = .error .stale
  rawField : ∀ name, m.rawField r name = .error .stale
  rawIndex : ∀ i, m.rawIndex r i = .error .stale
  rawLength : m.rawLength r = .error .stale
  rawSet : ∀ key k v, Key.ofValue key = .ok k → Action.rawSet r key v m = (.error .stale, m)
  setField : ∀ name v, Action.setField r name v m = (.error .stale, m)
  setAt : ∀ i v, Action.setAt r i v m = (.error .stale, m)
  remove : ∀ key k, Key.ofValue key = .ok k → Action.remove r key m = (.error .stale, m)
  metatable : ∀ v, v = .table r ∨ v = .userdata r → m.metatable v = .error .stale
  setMetatable : ∀ v mt, v = .table r ∨ v = .userdata r → (Action.requireTable mt m).1 = .ok () →
    Action.setMetatable v mt m = (.error .stale, m)
  asMetatable : ∀ v, Action.setMetatable v (some r) m = (.error .stale, m)
  environment : m.environment r = .error .stale
  setEnvironment : ∀ env, (Action.requireTable env m).1 = .ok () → Action.setEnvironment r env m = (.error .stale, m)
  asEnvironment : ∀ u, Action.setEnvironment u (some r) m = (.error .stale, m)
  setPayload : ∀ p, Action.setPayload r p m = (.error .stale, m)
  index : ∀ v key, v = .table r ∨ v = .userdata r → 0 < m.limits.maxIndexChain →
    Action.index (call Γ) v key m = (.error .stale, m)
  setIndex : ∀ target key v, target = .table r ∨ target = .userdata r → 0 < m.limits.maxIndexChain →
    Action.setIndex (call Γ) target key v m = (.error .stale, m)
  call : ∀ args, m.depth < m.limits.maxCallDepth → m.stack.size + args.length + 1 ≤ m.limits.stackLimit →
    ScriptHost.call Γ (.function r) args m = (.error .stale, m)

section

variable {Γ : Host χ σ}

theorem refuses_of_not_contains (hr : ¬m.heap.contains r = true) : m.Refuses Γ r := by
  have hnone : m.heap.object? r = none := by simpa [Heap.contains] using hr
  have hget : m.heap.get r = .error .stale := by simp only [Heap.get, hnone]
  have htable : m.heap.table r = .error .stale := by simp only [Heap.table, hget]
  have huserdata : m.heap.userdata r = .error .stale := by simp only [Heap.userdata, hget]
  have hfunction : m.heap.function r = .error .stale := by simp only [Heap.function, hget]
  have hchange : ∀ f, Action.onHeap (fun h => h.changeTable r f) m = (.error .stale, m) := fun f => by
    simp only [Action.onHeap, Heap.changeTable, htable]
  have hchangeUserdata : ∀ f, Action.onHeap (fun h => h.changeUserdata r f) m = (.error .stale, m) := fun f => by
    simp only [Action.onHeap, Heap.changeUserdata, huserdata]
  have hmetatable : ∀ v, v = .table r ∨ v = .userdata r → m.metatable v = .error .stale := by
    rintro v (rfl | rfl)
    · simp only [Machine.metatable, htable]
    · simp only [Machine.metatable, huserdata]
  have hrequire : Action.requireTable (some r) m = (.error .stale, m) := by
    refine Action.bind_of_error (x := Action.query fun m => m.heap.table r) ?_
    rw [Action.query, htable]
  have hrequired : ∀ mt, (Action.requireTable mt m).1 = .ok () → Action.requireTable mt m = (.ok (), m) := fun mt h =>
    Prod.ext h (Action.requireTable_still mt m)
  have hread : ∀ v key, v = .table r ∨ v = .userdata r → m.readHop v key = .error .stale := by
    rintro v key (rfl | rfl)
    · simp only [readHop, Machine.rawGet, htable]
    · simp only [readHop, handlerHop, metafield, hmetatable _ (Or.inr rfl)]
  have hwrite : ∀ v key, v = .table r ∨ v = .userdata r → m.writeHop v key = .error .stale := by
    rintro v key (rfl | rfl)
    · simp only [writeHop, Machine.rawGet, htable]
    · simp only [writeHop, handlerHop, metafield, hmetatable _ (Or.inr rfl)]
  refine ⟨fun key => ?_, fun name => ?_, fun i => ?_, ?_, fun key k v hk => ?_, fun _ _ => hchange _, fun _ _ => hchange _,
    fun key k hk => ?_, hmetatable, fun v mt hv hmt => ?_, fun v => Action.bind_of_error hrequire, ?_, fun env he => ?_,
    fun u => Action.bind_of_error hrequire, fun p => ?_, fun v key hv hlimit => ?_, fun target key v ht hlimit => ?_,
    fun args hdepth hstack => ?_⟩
  · simp only [Machine.rawGet, htable]
  · simp only [Machine.rawField, htable]
  · simp only [Machine.rawIndex, htable]
  · simp only [Machine.rawLength, htable]
  · simp only [Action.rawSet, hk]
    exact hchange _
  · simp only [Action.remove, hk]
    refine Action.bind_of_error (x := Action.query fun m => m.heap.table r) ?_
    rw [Action.query, htable]
  · rcases hv with rfl | rfl
    · exact (Action.bind_of_ok (hrequired mt hmt)).trans (hchange _)
    · exact (Action.bind_of_ok (hrequired mt hmt)).trans (hchangeUserdata _)
  · simp only [Machine.environment, huserdata]
  · rw [Action.setEnvironment, Action.bind_of_ok (hrequired env he)]
    exact hchangeUserdata _
  · refine Action.bind_of_error (x := Action.query fun m => m.heap.userdata r) ?_
    rw [Action.query, huserdata]
  · obtain ⟨hops, hlimit⟩ := Nat.exists_eq_succ_of_ne_zero (Nat.ne_of_gt hlimit)
    rw [Action.index, Action.bind_of_ok (Action.look_eq m), hlimit]
    refine Action.bind_of_error (x := Action.query fun m => m.readHop v key) ?_
    rw [Action.query, hread v key hv]
  · obtain ⟨hops, hlimit⟩ := Nat.exists_eq_succ_of_ne_zero (Nat.ne_of_gt hlimit)
    rw [Action.setIndex, Action.bind_of_ok (Action.look_eq m), hlimit]
    refine Action.bind_of_error (x := Action.query fun m => m.writeHop target key) ?_
    rw [Action.query, hwrite target key ht]
  · have hroom : ¬(m.limits.maxCallDepth ≤ m.depth ∨ m.limits.stackLimit < m.stack.size + args.length + 1) := by omega
    rw [call_eq, callWith]
    simp only [callee, if_neg hroom, hfunction]

end

end Machine

/-! ## Runs -/

open Machine in
/-- Take any course from a new machine on, in which no slot is freed as often as there are generations, whatever native code asks
for in it. Each event of it makes objects or frees objects, one after the other, and no reference is made twice, that of the registry
and that of the globals included. A reference whose object a collection of the course has freed finds nothing at the end of the
course, and everything that looks it up there says that it is stale and changes nothing, whatever its slot holds by then. -/
theorem references_never_come_back {P : Machine χ σ → Request χ σ → Prop} {limits : Limits} {host : σ} {es : List (Event χ σ)}
    (h : Course P (.start limits host) es) (hmax : ∀ i, (start limits host).freesOf i es < UInt32.size) :
    (∃ ds, (start limits host).Records es ds) ∧
    (∀ ds, (start limits host).Records es ds →
      ((start limits host : Machine χ σ).registry :: (start limits host : Machine χ σ).globals :: Deed.refs ds).Nodup) ∧
    ∀ es₁ es₂ r, es = es₁ ++ .sweep :: es₂ → ((start limits host).follow es₁).heap.contains r = true →
      ¬((start limits host).follow es₁).swept.heap.contains r = true →
      ¬((start limits host).follow es).heap.contains r = true ∧ ∀ Γ : Host χ σ, ((start limits host).follow es).Refuses Γ r := by
  have hw : (start limits host : Machine χ σ).heap.WellFormed := wellFormed_start limits host
  have hdated : ∀ {ds}, (start limits host).Records es ds → Heap.Dated
      ([.made (start limits host : Machine χ σ).registry, .made (start limits host : Machine χ σ).globals] ++ ds)
      ((start limits host).follow es).heap := by
    intro ds hds
    refine ((does_start limits host).trans hds.does).dated fun i => ?_
    rw [Deed.count_append, hds.count_eq]
    exact (Nat.zero_add _).symm ▸ hmax i
  refine ⟨exists_records h hw, fun ds hds => (hdated hds).nodup, fun es₁ es₂ r hes hin hout => ?_⟩
  obtain ⟨ds, hds⟩ := exists_records h hw
  have hfreed : Deed.freed r ∈ ds := by
    rw [hes, records_append] at hds
    obtain ⟨ds₁, -, rfl, -, ds₂, ds₃, rfl, hsweep, -⟩ := hds
    have hdead : r ∈ ((start limits host).follow es₁).dead := mem_dead_iff.2 ⟨hin, mt contains_swept_iff.2 hout⟩
    rw [show ds₂ = _ from hsweep.2]
    exact List.mem_append_right _ (List.mem_append_left _ (List.mem_map_of_mem hdead))
  have hnot := (hdated hds).not_contains_of_freed (List.mem_append_right _ hfreed)
  exact ⟨hnot, fun _ => refuses_of_not_contains hnot⟩

/-- A table is made, a collection comes, and a userdata is made. -/
def reuseSlot : List (Event Unit Unit) := [.ask .newTable, .sweep, .ask (.newUserdata .unit)]

/-- The userdata is in the slot the table was in, and the reference of the table is stale. -/
theorem stale_reuseSlot :
    ((Machine.start .standard ()).follow reuseSlot).heap.object? ⟨2, 1⟩ = some (.userdata (.ofPayload .unit)) ∧
      ¬((Machine.start .standard ()).follow reuseSlot).heap.contains ⟨2, 0⟩ = true ∧
      ((Machine.start .standard ()).follow reuseSlot).Refuses (fun _ _ => pure []) ⟨2, 0⟩ := by
  have hcollecting : ((Machine.start .standard ()).follow (reuseSlot.take 1)).collecting = false := by decide +kernel
  have hcourse : Course (fun _ _ => True) (.start .standard ()) reuseSlot :=
    ⟨⟨trivial, trivial⟩, hcollecting, ⟨trivial, trivial⟩, trivial⟩
  obtain ⟨-, -, hstale⟩ := references_never_come_back hcourse fun i =>
    Nat.lt_of_le_of_lt (Machine.freesOf_le_length i) (by decide)
  obtain ⟨hnot, hrefuses⟩ := hstale [.ask .newTable] [.ask (.newUserdata .unit)] ⟨2, 0⟩ rfl (by decide +kernel) (by decide +kernel)
  exact ⟨by decide +kernel, hnot, hrefuses _⟩

end ScriptHost

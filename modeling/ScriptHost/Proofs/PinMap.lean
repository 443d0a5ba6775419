import Mathlib.Data.List.Nodup
import Mathlib.Tactic.Common
import ScriptHost.Proofs.Clearing
import ScriptHost.Proofs.Runs
import ScriptHost.Proofs.Table

/-!
# Pins are a map

Whatever is pinned and taken out, in any order, the pins are a map from the pins in use to values. What carries this is that the
list of empty places has each of them, and none twice (`Pins.WellFormed`): a place that is used again is then empty, and the pins in
use are as many as the places less the list (`Pins.WellFormed.size_eq`). What one call does to the map is said in `Pins.get?_call`,
and from that what a list of calls comes to (`Pins.get?_follow`): under a pin there is what the last call left there that had to do
with it. The pins of a machine are such ones throughout a run (`Reached.exists_pinCalls`).
-/

namespace ScriptHost

/-! ## One call -/

namespace Pins

variable {s : Pins} {p q : Pin} {v : Value} {i : Nat}

/-- The list of empty places has each of them once, and nothing else. -/
structure WellFormed (s : Pins) : Prop where
  nodup : s.free.Nodup
  mem_free_iff : ∀ i, i ∈ s.free ↔ s.places[i]? = some none

theorem wellFormed_empty : empty.WellFormed := ⟨List.nodup_nil, fun i => by simp [empty]⟩

theorem get?_eq_some_iff : s.get? p = some v ↔ s.places[p.index]? = some (some v) := Option.join_eq_some_iff

/-- A place that is filled or emptied is that of one pin. -/
theorem join_getElem?_setIfInBounds {places : Array (Option Value)} (hi : i < places.size) (x : Option Value) (q : Pin) :
    ((places.setIfInBounds i x)[q.index]?).join = if q = ⟨i⟩ then x else (places[q.index]?).join := by
  rw [Array.getElem?_setIfInBounds]
  by_cases hq : q = ⟨i⟩
  · simp [hq, hi]
  · have hne : ¬i = q.index := fun h => hq (h ▸ rfl)
    rw [if_neg hq, if_neg hne]

/-- A place on the list of empty places is one of the places. -/
theorem WellFormed.lt_size (h : s.WellFormed) (hi : i ∈ s.free) : i < s.places.size :=
  (Array.getElem?_eq_some_iff.1 ((h.mem_free_iff i).1 hi)).1

/-- Pinning puts the value under the pin that is answered, and changes nothing under any other. -/
theorem get?_pin (h : s.WellFormed) (v : Value) (q : Pin) :
    (s.pin v).2.get? q = if q = (s.pin v).1 then some v else s.get? q := by
  unfold pin
  cases hfree : s.free with
  | cons i rest => exact join_getElem?_setIfInBounds (h.lt_size (by simp [hfree])) (some v) q
  | nil =>
    by_cases hq : q = ⟨s.places.size⟩
    · simp [get?, hq]
    · have hne : ¬q.index = s.places.size := fun e => hq (e ▸ rfl)
      simp [get?, Array.getElem?_push, hq, hne]

/-- The pin that is answered was not in use. -/
theorem get?_pin_fst (h : s.WellFormed) (v : Value) : s.get? (s.pin v).1 = none := by
  unfold pin
  cases hfree : s.free with
  | cons i rest =>
    have hempty : s.places[i]? = some none := (h.mem_free_iff i).1 (by simp [hfree])
    simp [get?, hempty]
  | nil => simp [get?]

/-- The pin that is answered has a place. -/
theorem index_pin_lt (h : s.WellFormed) (v : Value) : (s.pin v).1.index < (s.pin v).2.places.size := by
  unfold pin
  cases hfree : s.free with
  | cons i rest => simpa using h.lt_size (by simp [hfree])
  | nil => simp

/-- What is taken out is what is under the pin. -/
theorem unpin_fst (s : Pins) (p : Pin) : (s.unpin p).1 = s.get? p := by
  unfold unpin
  split <;> simp [*]

theorem unpin_of_none (h : s.get? p = none) : s.unpin p = (none, s) := by
  rw [unpin, h]

/-- Taking a pin out leaves nothing under it, and changes nothing under any other. -/
theorem get?_unpin (s : Pins) (p q : Pin) : (s.unpin p).2.get? q = if q = p then none else s.get? q := by
  cases hp : s.get? p with
  | none =>
    rw [unpin_of_none hp]
    split
    · rename_i hq
      rw [hq, hp]
    · rfl
  | some v =>
    have hlt := (Array.getElem?_eq_some_iff.1 (get?_eq_some_iff.1 hp)).1
    rw [unpin, hp]
    exact join_getElem?_setIfInBounds hlt none q

theorem WellFormed.pin (h : s.WellFormed) (v : Value) : (s.pin v).2.WellFormed := by
  unfold Pins.pin
  cases hfree : s.free with
  | cons i rest =>
    have hnodup := h.nodup
    rw [hfree, List.nodup_cons] at hnodup
    refine ⟨hnodup.2, fun j => ?_⟩
    have hj := h.mem_free_iff j
    rw [hfree, List.mem_cons] at hj
    rw [Array.getElem?_setIfInBounds]
    by_cases hij : i = j
    · subst hij
      simp [hnodup.1]
    · rw [if_neg hij, ← hj]
      exact (or_iff_right (Ne.symm hij)).symm
  | nil =>
    refine ⟨List.nodup_nil, fun j => ?_⟩
    have hj := h.mem_free_iff j
    rw [hfree] at hj
    show j ∈ [] ↔ (s.places.push (some v))[j]? = some none
    rw [Array.getElem?_push]
    split
    · simp
    · exact hj

theorem WellFormed.unpin (h : s.WellFormed) (p : Pin) : (s.unpin p).2.WellFormed := by
  cases hp : s.get? p with
  | none =>
    rw [unpin_of_none hp]
    exact h
  | some v =>
    have hplace := get?_eq_some_iff.1 hp
    have hlt := (Array.getElem?_eq_some_iff.1 hplace).1
    -- the place was full, so it is not on the list a second time
    have hnew : p.index ∉ s.free := by
      rw [h.mem_free_iff, hplace]
      simp
    rw [Pins.unpin, hp]
    refine ⟨List.nodup_cons.2 ⟨hnew, h.nodup⟩, fun j => ?_⟩
    rw [List.mem_cons, h.mem_free_iff, Array.getElem?_setIfInBounds]
    by_cases hj : p.index = j
    · simp [← hj, hlt]
    · rw [if_neg hj]
      exact or_iff_right (Ne.symm hj)

/-! ## The pins in use -/

/-- The pins that have something under them, in the order of their places. -/
def used (s : Pins) : List Pin := ((List.range s.places.size).map Pin.mk).filter fun p => (s.get? p).isSome

theorem mem_used_iff : p ∈ s.used ↔ s.get? p ≠ none := by
  rw [used, List.mem_filter, Option.isSome_iff_ne_none, and_iff_right_iff_imp]
  intro hp
  obtain ⟨v, hv⟩ := Option.ne_none_iff_exists'.1 hp
  have hlt := (Array.getElem?_eq_some_iff.1 (get?_eq_some_iff.1 hv)).1
  exact List.mem_map.2 ⟨p.index, List.mem_range.2 hlt, rfl⟩

theorem nodup_used (s : Pins) : s.used.Nodup :=
  (List.nodup_range.map fun _ _ h => congrArg Pin.index h).filter _

/-- The places are what is under their pins. -/
theorem places_eq_map (s : Pins) : s.places.toList = ((List.range s.places.size).map Pin.mk).map s.get? := by
  refine List.ext_getElem? fun i => ?_
  rw [List.map_map, List.getElem?_map, Array.getElem?_toList]
  by_cases hi : i < s.places.size
  · simp [get?, hi]
  · simp [hi]

/-- The values are those under the pins in use, one for each. -/
theorem map_some_values (s : Pins) : s.values.map some = s.used.map s.get? := by
  rw [values, List.map_filterMap_some_eq_filter_map_isSome, List.map_id, places_eq_map, List.filter_map]
  rfl

/-- The list of empty places has the places of the pins that are not in use. -/
theorem WellFormed.perm_free (h : s.WellFormed) :
    s.free.Perm ((List.range s.places.size).filter fun i => !(s.get? ⟨i⟩).isSome) := by
  refine (List.perm_ext_iff_of_nodup h.nodup (List.nodup_range.filter _)).2 fun i => ?_
  rw [h.mem_free_iff, List.mem_filter, List.mem_range]
  by_cases hi : i < s.places.size
  · cases hplace : s.places[i] <;> simp [get?, hi, hplace]
  · simp [hi]

/-- Each place is that of a pin in use or on the list of empty places. -/
theorem WellFormed.length_used (h : s.WellFormed) : s.used.length + s.free.length = s.places.size := by
  have hsplit := List.length_eq_length_filter_add (l := List.range s.places.size) fun i => (s.get? ⟨i⟩).isSome
  rw [List.length_range] at hsplit
  rw [h.perm_free.length_eq, used, List.filter_map, List.length_map]
  exact hsplit.symm

theorem WellFormed.size_eq (h : s.WellFormed) : s.size = s.used.length := by
  rw [size, ← h.length_used, Nat.add_sub_cancel]

end Pins

/-! ## Calls one after the other -/

/-- A call that changes the pins. -/
inductive PinCall where
  | pin (v : Value)
  | unpin (p : Pin)
  deriving DecidableEq, Repr

namespace Pins

variable {s : Pins} {p : Pin} {v : Value} {calls : List PinCall}

/-- The pins after a call. -/
def call (s : Pins) : PinCall → Pins
  | .pin v => (s.pin v).2
  | .unpin p => (s.unpin p).2

/-- The pin that a call has to do with, which is the one it answers or names, and what it leaves there. -/
def entry (s : Pins) : PinCall → Pin × Option Value
  | .pin v => ((s.pin v).1, some v)
  | .unpin p => (p, none)

/-- The pins after calls one after the other. -/
def follow (s : Pins) (calls : List PinCall) : Pins := calls.foldl call s

/-- What each call has left, in the order of the calls. -/
def history (s : Pins) : List PinCall → List (Pin × Option Value)
  | [] => []
  | c :: rest => s.entry c :: (s.call c).history rest

theorem WellFormed.call (h : s.WellFormed) (c : PinCall) : (s.call c).WellFormed := by
  cases c with
  | pin v => exact h.pin v
  | unpin p => exact h.unpin p

/-- A call has to do with one pin only. -/
theorem get?_call (h : s.WellFormed) (c : PinCall) (q : Pin) :
    (s.call c).get? q = if q = (s.entry c).1 then (s.entry c).2 else s.get? q := by
  cases c with
  | pin v => exact get?_pin h v q
  | unpin p => exact get?_unpin s p q

theorem WellFormed.follow (h : s.WellFormed) (calls : List PinCall) : (s.follow calls).WellFormed := by
  induction calls generalizing s with
  | nil => exact h
  | cons c rest ih => exact ih (h.call c)

/-- Under a pin there is what the last call left there that had to do with it, and otherwise what was there. -/
theorem get?_follow (h : s.WellFormed) (calls : List PinCall) (p : Pin) :
    (s.follow calls).get? p = ((s.history calls).reverse.lookup p).getD (s.get? p) := by
  induction calls generalizing s with
  | nil => rfl
  | cons c rest ih =>
    rw [history, lookup_reverse_cons]
    refine (ih (h.call c)).trans ?_
    rw [get?_call h]
    cases ((s.call c).history rest).reverse.lookup p with
    | some x => rfl
    | none =>
      rw [Option.none_or]
      split <;> rfl

/-- A value is under a pin if the last call that had to do with the pin has pinned it there. -/
theorem get?_follow_eq_some_iff :
    (empty.follow calls).get? p = some v ↔
      ∃ earlier later, empty.history calls = earlier ++ (p, some v) :: later ∧ ∀ e ∈ later, e.1 ≠ p := by
  rw [get?_follow wellFormed_empty, ← lookup_reverse_eq_some_iff]
  cases (empty.history calls).reverse.lookup p with
  | none => exact ⟨nofun, nofun⟩
  | some x => exact Option.some_inj.symm

theorem follow_concat (s : Pins) (calls : List PinCall) (c : PinCall) : s.follow (calls ++ [c]) = (s.follow calls).call c :=
  List.foldl_concat _ _ _ _

end Pins

open Pins

/-- The pins of every machine of a run come from calls: whatever else there is in a run leaves them alone. -/
theorem Reached.exists_pinCalls {χ σ : Type} {Γ : Host χ σ} {P : Machine χ σ → Request χ σ → Prop} {m : Machine χ σ}
    (hm : Reached Γ P m) : ∃ calls, m.pins = empty.follow calls := by
  refine hm.keep_all (I := fun m => ∃ calls, m.pins = empty.follow calls) ?_ (fun _ _ => ⟨[], rfl⟩) (fun _ _ _ _ h _ => h)
    (fun _ _ h => h)
  refine .of_steps (fun m m' h hs => ?_) (fun m h _ => m.onlyCleared_swept.pins ▸ h) (fun _ _ _ _ _ h => h)
    (fun _ _ _ _ _ h => h)
  obtain ⟨calls, hcalls⟩ := h
  cases hs with
  | pin v => exact ⟨calls ++ [.pin v], by rw [follow_concat, ← hcalls]; rfl⟩
  | unpin p => exact ⟨calls ++ [.unpin p], by rw [follow_concat, ← hcalls]; rfl⟩
  | _ => exact ⟨calls, hcalls⟩

/-- **Pins are a map from the pins in use.** After any calls that pin values, which may be nil, and take pins out, which need not be in
use: Pinning answers a pin that is not in use and has a place, and changes nothing under any other pin. Under a pin there is a value
exactly if the last call that had to do with the pin has pinned that value. Taking a pin out answers what is under it, and changes
nothing under any other pin; it changes nothing at all exactly if the pin is not in use. The size is a difference that is not cut off
at zero, and the number of the pins in use. The values are what is under these, one for each. -/
theorem pins_are_a_map (calls : List PinCall) :
    (∀ v, (empty.follow calls).get? ((empty.follow calls).pin v).1 = none ∧
      ((empty.follow calls).pin v).1.index < ((empty.follow calls).pin v).2.places.size ∧
      ∀ q, ((empty.follow calls).pin v).2.get? q =
        if q = ((empty.follow calls).pin v).1 then some v else (empty.follow calls).get? q) ∧
    (∀ p v, (empty.follow calls).get? p = some v ↔
      ∃ earlier later, empty.history calls = earlier ++ (p, some v) :: later ∧ ∀ e ∈ later, e.1 ≠ p) ∧
    (∀ p, ((empty.follow calls).unpin p).1 = (empty.follow calls).get? p ∧
      (((empty.follow calls).unpin p).2 = empty.follow calls ↔ (empty.follow calls).get? p = none) ∧
      ∀ q, ((empty.follow calls).unpin p).2.get? q = if q = p then none else (empty.follow calls).get? q) ∧
    (empty.follow calls).free.length ≤ (empty.follow calls).places.size ∧
    ∃ used : List Pin, used.Nodup ∧ (∀ p, p ∈ used ↔ (empty.follow calls).get? p ≠ none) ∧
      (empty.follow calls).size = used.length ∧ (empty.follow calls).values.map some = used.map (empty.follow calls).get? := by
  have h := wellFormed_empty.follow calls
  refine ⟨fun v => ⟨get?_pin_fst h v, index_pin_lt h v, get?_pin h v⟩, fun p v => get?_follow_eq_some_iff,
    fun p => ⟨unpin_fst _ p, ⟨fun hsame => ?_, fun hnone => ?_⟩, get?_unpin _ p⟩, ?_,
    (empty.follow calls).used, nodup_used _, fun p => mem_used_iff, h.size_eq, map_some_values _⟩
  · have hout := get?_unpin (empty.follow calls) p p
    rwa [hsame, if_pos rfl] at hout
  · rw [unpin_of_none hnone]
  · have hlength := h.length_used
    omega

/-- Two values are pinned, one of them nil; the first is taken out twice, and a third is pinned. -/
def pinnedAgain : List PinCall := [.pin (.integer 1), .pin .nil, .unpin ⟨0⟩, .unpin ⟨0⟩, .pin (.boolean true)]

/-- The third value has the pin of the first, nil has its own, and these are all there are. -/
theorem pins_after_pinnedAgain :
    (empty.follow pinnedAgain).get? ⟨0⟩ = some (.boolean true) ∧ (empty.follow pinnedAgain).get? ⟨1⟩ = some .nil ∧
    ((empty.follow pinnedAgain).unpin ⟨2⟩).2 = empty.follow pinnedAgain ∧ (empty.follow pinnedAgain).size = 2 := by
  obtain ⟨-, hget, hunpin, -, used, -, -, hsize, hvalues⟩ := pins_are_a_map pinnedAgain
  have hlength : used.length = 2 := by
    have hvalues := congrArg List.length hvalues
    rw [List.length_map, List.length_map] at hvalues
    exact hvalues.symm.trans (by decide)
  refine ⟨(hget _ _).2 ⟨(empty.history pinnedAgain).take 4, [], by decide, nofun⟩,
    (hget _ _).2 ⟨(empty.history pinnedAgain).take 1, (empty.history pinnedAgain).drop 2, by decide, by decide⟩,
    (hunpin ⟨2⟩).2.1.2 (by decide), hsize.trans hlength⟩

end ScriptHost

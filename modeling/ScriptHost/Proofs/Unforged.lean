import ScriptHost.Proofs.Allotment
import ScriptHost.Proofs.Generations
import ScriptHost.Proofs.Safe

/-!
# References that were given

A machine is unforged when every reference it holds was given to an object, whether the object is still there or not
(`Machine.Unforged`), so that none of them is the reference of an object yet to come. An operation that calls nothing stores what it
is handed, what it finds and what it makes, and so leaves an unforged machine unforged if what it is handed was given
(`Action.Safe.unforged`). A sweep does so as well, as long as no slot has gone through all its generations. So a machine is unforged
at the end of every course in which native code names references that were given, and no slot is freed as often as there are
generations (`unforged_follow`).
-/

namespace ScriptHost

variable {χ σ α : Type}

/-! ## What was given stays given -/

namespace Heap

variable {h h' : Heap χ} {ds : List Deed} {r : Ref}

/-- Told by how often slots were freed: what was given finds an object, or its slot was freed again since. -/
theorem Counted.given_iff (hc : Counted ds h) : h.Given r ↔ r.generation.toNat < Deed.count r.slot ds ∨ h.contains r = true := by
  constructor
  · rintro ⟨s, hs, hlt | ⟨hg, ho⟩⟩
    · exact Or.inl (hc.generation _ s hs ▸ hlt)
    · obtain ⟨o, ho⟩ := Option.isSome_iff_exists.1 ho
      exact Or.inr (contains_of_object? (object?_eq_some_iff.2 ⟨s, hs, hg.symm, ho⟩))
  · rintro (hlt | hr)
    · have hin : r.slot < h.slots.size := Nat.lt_of_not_le fun hle => by
        rw [hc.beyond _ hle] at hlt
        exact Nat.not_lt_zero _ hlt
      have hs := Array.getElem?_eq_getElem hin
      exact ⟨_, hs, Or.inl ((hc.generation _ _ hs).symm ▸ hlt)⟩
    · exact given_of_contains hr

end Heap

namespace Machine

/-- The references the machine holds were given to objects. -/
def Unforged (m : Machine χ σ) : Prop := m.HoldsOnly m.heap.Given

variable {m m' : Machine χ σ} {ds : List Deed} {P : Machine χ σ → Request χ σ → Prop} {es : List (Event χ σ)} {r : Ref}

theorem unforged_start (limits : Limits) (host : σ) : (start limits host : Machine χ σ).Unforged :=
  (sound_start limits host).intact.holdsOnly.mono fun _ => Heap.given_of_contains

end Machine

/-! ## Operations -/

namespace Action

variable {x : Action χ σ α} {m : Machine χ σ} {L : List Ref} {G : α → List Ref} {r : Ref}

theorem Quiet.wellFormed (hx : x.Quiet) (hw : m.heap.WellFormed) : (x m).2.heap.WellFormed := ((hx m).exists_gives hw).1

theorem Quiet.given (hx : x.Quiet) (hw : m.heap.WellFormed) (hr : m.heap.Given r) : (x m).2.heap.Given r := by
  obtain ⟨-, c, hc⟩ := (hx m).exists_gives hw
  exact hc.mono hr

/-- Handed references that were given, it leaves an unforged machine unforged, and the references it gives were given. -/
theorem Safe.unforged (hx : Safe m.heap.Given L x G) (hq : x.Quiet) (hw : m.heap.WellFormed) (hm : m.Unforged)
    (hl : ∀ r ∈ L, m.heap.Given r) : (x m).2.Unforged ∧ ∀ a, (x m).1 = .ok a → ∀ r ∈ G a, (x m).2.heap.Given r := by
  have hknown : ∀ r, m.heap.Given r ∨ (x m).2.heap.contains r = true → (x m).2.heap.Given r := fun r hr =>
    hr.elim (hq.given hw) Heap.given_of_contains
  obtain ⟨hafter, -, hgives⟩ := hx m ⟨hw, hm.mono fun _ hr => Or.inl hr⟩ fun r hr => Or.inl (hl r hr)
  exact ⟨hafter.holds.mono hknown, fun a ha r hr => hknown r (hgives a ha r hr)⟩

end Action

/-! ## Events -/

/-- The references that are named in an event: those native code hands over, and those the machine puts on its stack or its queue. -/
def Event.refs : Event χ σ → List Ref
  | .ask r => r.refs
  | .store _ key v => key.refs ++ v.refs
  | .write call => call.args.flatMap Value.refs
  | .enter f args => f.refs ++ args.flatMap Value.refs
  | .queue rest => rest
  | .leave _ | .sweep | .finish _ => []

namespace Machine

variable {m : Machine χ σ} {e : Event χ σ} {es : List (Event χ σ)} {P : Machine χ σ → Request χ σ → Prop} {ds : List Deed} {r : Ref}

/-- What is so at the events of a course can be decided where it can be decided at each. -/
instance decidableAtEvents {E : Machine χ σ → Event χ σ → Prop} [∀ m e, Decidable (E m e)] :
    ∀ (m : Machine χ σ) (es : List (Event χ σ)), Decidable (m.AtEvents E es)
  | _, [] => .isTrue atEvents_nil
  | m, e :: es =>
    have : Decidable ((m.after e).AtEvents E es) := decidableAtEvents (m.after e) es
    decidable_of_iff (E m e ∧ (m.after e).AtEvents E es) atEvents_cons.symm

/-- What an object mentions after a sweep it mentioned before. -/
theorem exists_of_swept {o : Object χ} (ho : m.swept.heap.object? r = some o) :
    ∃ o₀, m.heap.object? r = some o₀ ∧ o.refs ⊆ o₀.refs := by
  have hr := contains_swept_iff.1 (Heap.contains_of_object? ho)
  obtain ⟨o₀, h₀⟩ := Heap.contains_iff.1 hr.contains
  refine ⟨o₀, h₀, ?_⟩
  cases o₀ with
  | function f =>
    cases (swept_function hr h₀).symm.trans ho
    exact List.Subset.refl _
  | userdata u =>
    cases (swept_userdata hr h₀).symm.trans ho
    exact List.Subset.refl _
  | table t =>
    cases (swept_table hr h₀).symm.trans ho
    intro s hs
    rcases Table.mem_refs_iff.1 hs with hmt | ⟨k, v, he, hkv⟩
    · exact Table.mem_refs_iff.2 (Or.inl hmt)
    · exact Table.mem_refs_iff.2 (Or.inr ⟨k, v, (mem_remaining_iff.1 he).1, hkv⟩)

/-- A sweep that moves no slot past its last generation leaves what was given given. -/
theorem given_swept (hd : m.heap.Dated ds) (hswept : m.swept.heap.Dated (ds ++ m.dead.map .freed)) (hr : m.heap.Given r) :
    m.swept.heap.Given r := by
  rw [hswept.toCounted.given_iff, Deed.count_append]
  rcases hd.toCounted.given_iff.1 hr with hlt | hin
  · exact Or.inl (Nat.lt_add_right _ hlt)
  · by_cases hsurvives : m.Survives r
    · exact Or.inr (contains_swept_iff.2 hsurvives)
    · have hdead : Deed.freed r ∈ ds ++ m.dead.map .freed :=
        List.mem_append_right _ (List.mem_map_of_mem (mem_dead_iff.2 ⟨hin, hsurvives⟩))
      rw [← Deed.count_append]
      exact Or.inl (hswept.freed r hdead)

theorem Unforged.swept (hm : m.Unforged) (hgiven : ∀ r, m.heap.Given r → m.swept.heap.Given r) : m.swept.Unforged := by
  constructor
  · intro r hr
    rcases isRoot_swept hr with h | h
    · exact hgiven r (hm.roots r h)
    · exact hgiven r (Heap.given_of_contains (mem_doomed_iff.1 h).survives.contains)
  · intro r o ho s hs
    obtain ⟨o₀, h₀, hsub⟩ := exists_of_swept ho
    exact hgiven s (hm.objects r o₀ h₀ s (hsub hs))

/-- An event in which given references are named leaves an unforged machine unforged. -/
theorem Unforged.after (hm : m.Unforged) (hw : m.heap.WellFormed) (he : m.Allows P e) (hnamed : ∀ r ∈ e.refs, m.heap.Given r)
    (hswept : e = .sweep → ∀ r, m.heap.Given r → m.swept.heap.Given r) : (m.after e).Unforged := by
  cases e with
  | ask r => exact ((r.safe_perform _ he.1).unforged (r.perform_steps _ he.1) hw hm hnamed).1
  | store t key v =>
    have hset : Action.Safe m.heap.Given (key.refs ++ v.refs) (Action.rawSet t key v : Action χ σ Unit) (fun _ => []) :=
      Action.safe_rawSet t (List.subset_append_left _ _) (List.subset_append_right _ _)
    exact (hset.unforged (Action.quiet_rawSet t key v) hw hm hnamed).1
  | write call => exact ((Action.safe_writeAttribute call).unforged (Action.quiet_writeAttribute call) hw hm hnamed).1
  | enter f args =>
    exact HoldsOnly.enter hm (fun r hr => hnamed r (List.mem_append_left _ hr)) fun r hr => hnamed r (List.mem_append_right _ hr)
  | leave height => exact HoldsOnly.leave hm height
  | sweep => exact hm.swept (hswept rfl)
  | queue rest => exact HoldsOnly.queue hm hnamed
  | finish s => exact HoldsOnly.finish hm s

/-- A course that names given references only, and that frees no slot as often as there are generations, all its frees from the first
heap on counted, leaves an unforged machine unforged. -/
theorem Unforged.follow (hm : m.Unforged) (hd : Heap.Does .empty ds m.heap) (h : Course P m es)
    (hnamed : m.AtEvents (fun m e => ∀ r ∈ e.refs, m.heap.Given r) es)
    (hmax : ∀ i, Deed.count i ds + m.freesOf i es < UInt32.size) : (m.follow es).Unforged := by
  induction es generalizing m ds with
  | nil => exact hm
  | cons e es ih =>
    obtain ⟨hnow, hlater⟩ := atEvents_cons.1 hnamed
    have hw := hd.wellFormed Heap.wellFormed_empty
    obtain ⟨ds₁, hdid⟩ := Allows.exists_did h.1 hw
    have hcount : ∀ i, Deed.count i (ds ++ ds₁) + (m.after e).freesOf i es < UInt32.size := by
      intro i
      have hi := hmax i
      rw [freesOf, ← hdid.count_eq i] at hi
      rw [Deed.count_append]
      omega
    refine ih (hm.after hw h.1 hnow ?_) (hd.trans hdid.1) h.2 hlater hcount
    rintro rfl r hr
    have hds : ds₁ = m.dead.map .freed := hdid.2
    have hdated := hd.dated fun i => Nat.lt_of_le_of_lt (Nat.le_add_right _ _) (hmax i)
    have hdated' := (hd.trans hdid.1).dated fun i => Nat.lt_of_le_of_lt (Nat.le_add_right _ _) (hcount i)
    exact given_swept hdated (hds ▸ hdated') hr

end Machine

open Machine in
/-- At the end of a course from a new machine on, in which native code names references that were given and no slot is freed as often
as there are generations, the machine holds no reference but such as were given. -/
theorem unforged_follow {P : Machine χ σ → Request χ σ → Prop} {limits : Limits} {host : σ} {es : List (Event χ σ)}
    (h : Course P (.start limits host) es)
    (hnamed : (start limits host).AtEvents (fun m e => ∀ r ∈ e.refs, m.heap.Given r) es)
    (hmax : ∀ i, (start limits host).freesOf i es < UInt32.size) : ((start limits host).follow es).Unforged :=
  (unforged_start limits host).follow (does_start limits host) h hnamed fun i => (Nat.zero_add _).symm ▸ hmax i

end ScriptHost

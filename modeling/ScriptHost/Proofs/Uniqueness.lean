import ScriptHost.Proofs.Permitted

/-!
# How many handles an address has

The pointer table holds handles weakly and loses a handle as soon as a collection takes it up, while a finalizer may keep the
handle it is called with. So one handle for an address is all there is as long as no collection has taken it up, and no longer:
a handle that was taken up and kept has an address that no list knows, and the next request for a handle of that address makes
another one (`handle_unique_unless_finalized`).
-/

namespace ScriptHost

variable {χ σ : Type}

namespace Machine

variable {m : Machine χ σ}

/-- The handle listed for an address other than null is its only one that no collection has taken up. -/
theorem Interned.handleOf_eq (hm : m.Interned) {r : Ref} {a : Address} (hr : m.IsHandle r a false) (ha : a ≠ Address.null) :
    m.handleOf a = .ok (some r) := by
  obtain ⟨p, T, ⟨R, hR, hp⟩, hT, hfind⟩ := hm.listed r a hr ha
  have hfound : Registry.find? m Registry.pointers = some p := by
    simp only [Registry.find?, registryField_of_table hR, hp, Value.table?]
  have hget : m.rawGet p (.address a) = .ok (.userdata r) := by
    simp only [rawGet, Heap.table_eq_ok_iff.2 hT, Key.ofValue, Table.get, hfind, Option.getD_some]
  simp only [handleOf, hfound, hget, Value.userdata?]

/-- What is on the stack is kept, if it is there. -/
theorem kept_of_mem_stack {r : Ref} {v : Value} (hv : v ∈ m.stack) (hr : v.ref? = some r) (hc : m.heap.contains r = true) :
    m.heap.Kept m.IsRoot r :=
  .root (Or.inr (Or.inr (Or.inl ⟨v, hv, hr⟩))) hc

end Machine

/-- Once a handle was taken up, asking for a handle of its address makes another one. With both on the stack there are two handles
for the address that the roots keep. -/
theorem Reached.doubled {Γ : Host χ σ} (hΓ : Γ.Lawful Machine.Permits Machine.Interned) {m : Machine χ σ}
    (hm : Reached Γ Machine.Permits m) {r : Ref} {a : Address} (hr : m.IsHandle r a true) :
    ∃ s m', Reached Γ Machine.Permits m' ∧ s ≠ r ∧ m'.IsHandle r a true ∧ m'.IsHandle s a false ∧
      m'.heap.Kept m'.IsRoot r ∧ m'.heap.Kept m'.IsRoot s := by
  obtain ⟨s, m₁, hensure, -, -, -, hs, hkeep⟩ := Action.ensureHandle_spec (hm.interned hΓ) a
  have hr₁ := hkeep r a true hr
  have hm₁ : Reached Γ Machine.Permits m₁ := by
    have h := hm.request (.ensureHandle a) trivial
    rwa [show (Request.ensureHandle a).perform (call Γ) m = (.ok s, m₁) from hensure] at h
  have hm₃ := (hm₁.request (.push (.userdata r)) trivial).request (.push (.userdata s)) trivial
  obtain ⟨u, hu, -⟩ := id hr₁
  obtain ⟨v, hv, -⟩ := id hs
  refine ⟨s, _, hm₃, ?_, hr₁, hs, ?_, ?_⟩
  · rintro rfl
    exact absurd (hs.eq hr₁).2 Bool.false_ne_true
  · refine Machine.kept_of_mem_stack (v := .userdata r) ?_ rfl (Heap.contains_of_object? hu)
    exact Array.mem_push.2 (Or.inl (Array.mem_push.2 (Or.inr rfl)))
  · refine Machine.kept_of_mem_stack (v := .userdata s) ?_ rfl (Heap.contains_of_object? hv)
    exact Array.mem_push.2 (Or.inr rfl)

/-- Native code that leaves the tables of the binding layer alone finds one handle for an address other than null, until a
collection takes that handle up: it is the one listed, and any other one was taken up. Once a handle was taken up and still has
its address, the run can go on to a machine on which the roots keep two handles for that address. -/
theorem handle_unique_unless_finalized {Γ : Host χ σ} (hΓ : Γ.Lawful Machine.Permits Machine.Interned) {m : Machine χ σ}
    (hm : Reached Γ Machine.Permits m) {r : Ref} {a : Address} {finalized : Bool} (hr : m.IsHandle r a finalized)
    (ha : a ≠ Address.null) :
    (finalized = false → m.handleOf a = .ok (some r) ∧ ∀ s f, m.IsHandle s a f → s = r ∨ f = true) ∧
    (finalized = true → ∃ s m', Reached Γ Machine.Permits m' ∧ s ≠ r ∧ m'.IsHandle r a true ∧ m'.IsHandle s a false ∧
      m'.heap.Kept m'.IsRoot r ∧ m'.heap.Kept m'.IsRoot s) := by
  constructor
  · rintro rfl
    have hlisted := (hm.interned hΓ).handleOf_eq hr ha
    refine ⟨hlisted, fun s f hs => ?_⟩
    cases f with
    | true => exact Or.inr rfl
    | false =>
      rw [(hm.interned hΓ).handleOf_eq hs ha] at hlisted
      cases hlisted
      exact Or.inl rfl
  · rintro rfl
    exact hm.doubled hΓ hr

/-! ## A finalizer that keeps its handle -/

/-- A host whose functions put their first argument among the globals. -/
def keepingHost : Host Unit Unit := fun _ args => do
  let m ← Prog.look
  Prog.request (.rawSet m.globals (.string "kept") (args.arg 1))
  return []

/-- The globals are no table of the binding layer. -/
theorem lawful_keepingHost : keepingHost.Lawful Machine.Permits Machine.Interned := by
  intro m f args function k _ hm _ _
  have hm' : (m.enter f args).Interned := hm.of_heap_eq rfl rfl rfl
  refine Prog.obeys_request trivial fun m' h => ?_
  cases h
  exact Prog.obeys_request hm'.globals.2 fun _ _ => trivial

/-- Makes a handle with a finalizer that keeps it, collects, and asks for a handle of the same address. -/
def keepHandle : Prog Unit Unit Unit := do
  Prog.request (.installClasses [⟨"C", .empty, []⟩])
  let _ ← Prog.request (.wrap 0x10 "C")
  let _ ← Prog.request (.newFunction "keep" (.host ()) [])
  Prog.request (.setIndex (.userdata ⟨9, 0⟩) (.string "__gc") (.function ⟨11, 0⟩))
  let _ ← Prog.request .collect
  let _ ← Prog.request (.ensureHandle 0x10)
  Prog.request (.push (.userdata ⟨12, 0⟩))

/-- A new machine after that. -/
def afterKeep : Machine Unit Unit := (keepHandle.exec keepingHost (.start .standard ())).2

theorem reached_afterKeep : Reached keepingHost Machine.Permits afterKeep := by
  refine (Reached.start .standard ()).exec keepHandle ?_
  refine Prog.obeys_request trivial fun _ _ => Prog.obeys_request trivial fun _ _ => Prog.obeys_request trivial fun _ _ => ?_
  refine Prog.obeys_request (Or.inl (by decide +kernel)) fun _ _ => Prog.obeys_request trivial fun _ _ => ?_
  exact Prog.obeys_request trivial fun _ _ => ⟨trivial, trivial⟩

/-- The handle that the finalizer keeps, and the one made after it. -/
theorem isHandle_afterKeep : afterKeep.IsHandle ⟨9, 0⟩ 0x10 true ∧ afterKeep.IsHandle ⟨12, 0⟩ 0x10 false :=
  ⟨⟨⟨.handle 0x10, some ⟨2, 0⟩, some ⟨10, 0⟩, true⟩, by decide +kernel, rfl, rfl⟩,
    ⟨⟨.handle 0x10, none, some ⟨13, 0⟩, false⟩, by decide +kernel, rfl, rfl⟩⟩

/-- After that the second handle is the one listed, and the only one for its address that was not taken up. -/
theorem handle_unique_afterKeep :
    afterKeep.handleOf 0x10 = .ok (some ⟨12, 0⟩) ∧
      ∀ s f, afterKeep.IsHandle s 0x10 f → s = ⟨12, 0⟩ ∨ f = true :=
  (handle_unique_unless_finalized lawful_keepingHost reached_afterKeep isHandle_afterKeep.2 (by decide)).1 rfl

/-- That two handles the roots keep have different addresses, unless they are null, is false: a finalizer may keep the handle it
is called with. -/
theorem live_handle_unique_false :
    ¬∀ (Γ : Host Unit Unit) (m : Machine Unit Unit) (r s : Ref) (a : Address) (f g : Bool),
      Γ.Lawful Machine.Permits Machine.Interned → Reached Γ Machine.Permits m → m.IsHandle r a f → m.IsHandle s a g →
      m.heap.Kept m.IsRoot r → m.heap.Kept m.IsRoot s → a ≠ Address.null → r = s := by
  intro hall
  have hkept : ∀ r, afterKeep.heap.contains r = true → afterKeep.held.has r.slot = true →
      afterKeep.heap.Kept afterKeep.IsRoot r := fun r hc => (Machine.has_held_iff hc).1
  have h := hall keepingHost afterKeep ⟨9, 0⟩ ⟨12, 0⟩ 0x10 true false lawful_keepingHost reached_afterKeep
    isHandle_afterKeep.1 isHandle_afterKeep.2 (hkept _ (by decide +kernel) (by decide +kernel))
    (hkept _ (by decide +kernel) (by decide +kernel)) (by decide)
  cases h

end ScriptHost

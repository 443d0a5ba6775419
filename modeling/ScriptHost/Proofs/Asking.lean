import ScriptHost.Proofs.Operations
import ScriptHost.Proofs.Wrapping

/-!
# Asking for a handle

Where the tables of the binding layer are as it keeps them, asking for the handle of an address does not fail, nor does wrapping
the address, under whatever name (`Managed.exists_ensureHandle`, `Managed.exists_wrap`). The handle is listed after that.
-/

namespace ScriptHost

variable {χ σ : Type} {strict : Prop}

/-- Asks for the handle of an address: as it is, or as an object of a class. -/
def Action.handleAs (a : Address) : Option String → Action χ σ Value
  | none => do return .userdata (← ensureHandle a)
  | some name => wrap a name

namespace Machine

variable {m m' : Machine χ σ} {a : Address} {r s : Ref}

/-- An address has one handle. -/
theorem Lists.eq (h : m.Lists a r) (h' : m.Lists a s) : r = s := by
  obtain ⟨p, T, hp, hT, hfind⟩ := h
  obtain ⟨p', T', hp', hT', hfind'⟩ := h'
  obtain rfl := hp.eq hp'
  cases hT.symm.trans hT'
  cases hfind.symm.trans hfind'
  rfl

/-- Asking for the handle of an address gives one. At most the pointer table gets a name, no userdata that was there is touched, and
no other one is made. -/
theorem Managed.exists_ensureHandle (hm : m.Managed strict) (a : Address) :
    ∃ r m', Action.ensureHandle a m = (.ok r, m') ∧
      (∀ name t, m'.Registered name t → m.Registered name t ∨ name = Registry.pointers) ∧
      (∀ s u, m.heap.object? s = some (.userdata u) → m'.heap.object? s = some (.userdata u)) ∧
      ∀ s u, s ≠ r → m'.heap.object? s = some (.userdata u) → m.heap.object? s = some (.userdata u) := by
  have hu := hm.orderly.unshared
  obtain ⟨r, m', h, -, hnames, -, hkept, hmade⟩ := hu.exists_ensureHandle a
  refine ⟨r, m', h, hnames, fun s u hs => hkept s _ hs ?_ fun hp => ?_, hmade⟩
  · obtain ⟨R, hR, -⟩ := hu.registry
    exact (Heap.ne_of_table_of_userdata hR hs).symm
  · obtain ⟨-, T, hT⟩ := hu.registered _ s hp
    exact Heap.ne_of_table_of_userdata hT hs rfl

/-- Wrapping an address that is not null gives a handle: it is asked for, then the table under the name is found or made, and then
the handle gets it for its metatable. -/
theorem Managed.exists_wrap (hm : m.Managed strict) (ha : a ≠ Address.null) (name : String) :
    ∃ (r t : Ref) (m₁ m₂ m₃ : Machine χ σ) (u : Userdata), Action.wrap a name m = (.ok (.userdata r), m₃) ∧
      (∀ n s, m₁.Registered n s → m.Registered n s ∨ n = Registry.pointers) ∧
      (∀ s u, m.heap.object? s = some (.userdata u) → m₁.heap.object? s = some (.userdata u)) ∧
      (∀ s u, s ≠ r → m₁.heap.object? s = some (.userdata u) → m.heap.object? s = some (.userdata u)) ∧
      (m₂ = m₁ ∧ m₁.Registered name t ∨ m₁.Registers m₂ name t (.blank name)) ∧
      m₂.heap.object? r = some (.userdata u) ∧ m₂.Written m₃ r (.userdata { u with metatable := some t }) := by
  obtain ⟨r, m₁, hensure, hnames, huserdata, hmade⟩ := hm.exists_ensureHandle a
  obtain ⟨⟨hm₁, -⟩, -, hr⟩ := Action.acts_ensureHandle (S := .wide strict) (L := fun _ => True) (fun _ _ _ h => h) (a := a) trivial
    m ⟨hm, fun _ h => h.elim⟩ trivial
  rw [hensure] at hm₁ hr
  obtain ⟨u, hu, -⟩ := hm₁.isHandle_of_lists (hr r rfl).1
  obtain ⟨t, m₂, hm₂, ⟨u', m₃, h, hu', hwritten⟩ | ⟨hn, -⟩⟩ := hm₁.orderly.unshared.wrap_cases ha name hensure
  · exact ⟨r, t, m₁, m₂, m₃, u', h, hnames, huserdata, hmade, hm₂, hu', hwritten⟩
  · refine absurd ?_ (hn u)
    rcases hm₂ with ⟨rfl, -⟩ | hregisters
    · exact hu
    · obtain ⟨R, hR, -⟩ := hm₁.orderly.unshared.registry
      exact hregisters.kept r _ (Heap.ne_of_table_of_userdata hR hu).symm hu

/-- Asking for the handle of an address, as it is or as an object of a class, gives one that is listed then, by acts that do not
forget the address. -/
theorem Managed.handleAs_spec {S : Scope} (hm : m.Managed S.strict) (hthere : ∀ t, S.spared t → m.heap.contains t = true)
    (ha : a ≠ Address.null) (hlists : S.lists a) (hf : ¬S.forgets a) {way : Option String}
    (hway : ∀ name, way = some name → name ∉ Registry.reserved) :
    ∃ r m', Action.handleAs a way m = (.ok (.userdata r), m') ∧ m'.Lists a r ∧ Acts S m m' := by
  cases way with
  | none =>
    obtain ⟨r, m', h, -⟩ := hm.exists_ensureHandle a
    obtain ⟨-, hacts, hr⟩ := Action.acts_ensureHandle (S := S) (L := fun _ => True) (fun _ _ _ h => h) hlists m ⟨hm, hthere⟩ trivial
    rw [h] at hacts hr
    refine ⟨r, m', ?_, (hr r rfl).1, hacts⟩
    rw [Action.handleAs, Action.bind_of_ok h]
    rfl
  | some name =>
    obtain ⟨r, t, m₁, m₂, m', u, h, -⟩ := hm.exists_wrap ha name
    obtain ⟨-, hacts, hr⟩ := Action.acts_wrap (S := S) (K := fun _ => True) hlists (fun _ _ => Or.inl (hway name rfl)) m
      ⟨hm, hthere⟩ trivial
    rw [h] at hacts hr
    obtain ⟨s, hs, hr⟩ := hr _ rfl ha hf
    cases hs
    exact ⟨r, m', h, hr, hacts⟩

end Machine

end ScriptHost

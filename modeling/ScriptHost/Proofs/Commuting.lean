import ScriptHost.Proofs.Tandem
import ScriptHost.Proofs.Unforged

/-!
# Actions that commute

A machine and its renaming do the same up to names (`Machine.Renamed.act`). Two actions of which each writes nothing that the other
reads or writes end, in either order, with the same machine up to names (`Machine.Unforged.exists_square`): the second action of each
order runs in tandem with the same action on the machine before, on which the other has not acted, and the references that the two
make are exchanged in blocks.
-/

namespace ScriptHost

variable {χ σ α β : Type}

/-! ## Reordering what is due -/

/-- The place of what comes in a place when a first block of so many and a second one of so many are exchanged. -/
def exchangeAt (a b k : Nat) : Nat := if k < a then b + k else if k < a + b then k - a else k

theorem exchangeAt_exchangeAt (a b k : Nat) : exchangeAt b a (exchangeAt a b k) = k := by
  unfold exchangeAt
  split_ifs <;> omega

/-- Two blocks exchanged. -/
def exchange (a b : Nat) : Equiv.Perm Nat := ⟨exchangeAt a b, exchangeAt b a, exchangeAt_exchangeAt a b, exchangeAt_exchangeAt b a⟩

theorem exchange_of_lt {a b k : Nat} (h : k < a) : exchange a b k = b + k := if_pos h

theorem exchange_add {a b k : Nat} (h : k < b) : exchange a b (a + k) = k := by
  show exchangeAt a b (a + k) = k
  unfold exchangeAt
  split_ifs <;> omega

theorem exchange_of_le {a b k : Nat} (h : a + b ≤ k) : exchange a b k = k := by
  show exchangeAt a b k = k
  unfold exchangeAt
  split_ifs <;> omega

namespace Heap

/-- The renaming that reorders what is due and leaves every other reference. -/
noncomputable def reorder (h : Heap χ) (π : Nat → Nat) : Ref → Ref := Function.extend h.due (fun k => h.due (π k)) id

variable {h h' : Heap χ} {π π' : Nat → Nat} {r : Ref} {c : Nat}

theorem reorder_of_ne (hr : ∀ k, h.due k ≠ r) : h.reorder π r = r :=
  Function.extend_apply' _ _ r fun ⟨k, hk⟩ => hr k hk

namespace WellFormed

variable (hw : h.WellFormed)

include hw

theorem reorder_due (k : Nat) : h.reorder π (h.due k) = h.due (π k) := hw.due_injective.extend_apply _ _ k

theorem reorder_of_given (hr : h.Given r) : h.reorder π r = r := by
  refine reorder_of_ne fun k hk => ?_
  rw [← hk] at hr
  exact hw.not_given_due k hr

theorem reorder_reorder (r : Ref) : h.reorder π (h.reorder π' r) = h.reorder (π ∘ π') r := by
  by_cases hr : ∃ k, h.due k = r
  · obtain ⟨k, rfl⟩ := hr
    rw [hw.reorder_due, hw.reorder_due, hw.reorder_due]
    rfl
  · rw [not_exists] at hr
    rw [reorder_of_ne hr, reorder_of_ne hr, reorder_of_ne hr]

theorem reorder_id (r : Ref) : h.reorder id r = r := by
  by_cases hr : ∃ k, h.due k = r
  · obtain ⟨k, rfl⟩ := hr
    rw [hw.reorder_due]
    rfl
  · exact reorder_of_ne (not_exists.1 hr)

theorem reorder_injective (hπ : Function.Injective π) : Function.Injective (h.reorder π) := by
  have hdue : ∀ r s, h.reorder π r = h.reorder π s → (∃ k, h.due k = r) → ∃ k, h.due k = s := by
    rintro r s hrs ⟨k, rfl⟩
    refine Classical.byContradiction fun hs => ?_
    rw [hw.reorder_due, reorder_of_ne (not_exists.1 hs)] at hrs
    exact hs ⟨_, hrs⟩
  intro r s hrs
  by_cases hr : ∃ k, h.due k = r
  · obtain ⟨j, rfl⟩ := hr
    obtain ⟨k, rfl⟩ := hdue _ s hrs ⟨j, rfl⟩
    rw [hw.reorder_due, hw.reorder_due] at hrs
    rw [hπ (hw.due_injective hrs)]
  · have hs : ¬∃ k, h.due k = s := fun hs => hr (hdue s r hrs.symm hs)
    rwa [reorder_of_ne (not_exists.1 hr), reorder_of_ne (not_exists.1 hs)] at hrs

end WellFormed

/-- The renaming that reorders what is due, one to one. -/
noncomputable def WellFormed.reorderPerm (hw : h.WellFormed) (π : Equiv.Perm Nat) : Equiv.Perm Ref where
  toFun := h.reorder π
  invFun := h.reorder π.symm
  left_inv r := by rw [hw.reorder_reorder, Equiv.symm_comp_self, hw.reorder_id]
  right_inv r := by rw [hw.reorder_reorder, Equiv.self_comp_symm, hw.reorder_id]

/-- What was given after so many new objects is what was given before, as far as it is not due later. -/
theorem Gives.given_reorder_iff (hg : Gives c h h') (hw : h.WellFormed) : h'.Given (h.reorder (c + ·) r) ↔ h.Given r := by
  constructor
  · intro hr
    by_cases hdue : ∃ k, h.due k = r
    · obtain ⟨k, rfl⟩ := hdue
      rw [hw.reorder_due, hg.given] at hr
      rcases hr with hr | ⟨j, hj, he⟩
      · exact absurd hr (hw.not_given_due _)
      · have := hw.due_injective he
        omega
    · rw [not_exists] at hdue
      rw [reorder_of_ne hdue, hg.given] at hr
      rcases hr with hr | ⟨k, -, rfl⟩
      · exact hr
      · exact absurd rfl (hdue k)
  · intro hr
    rw [hw.reorder_of_given hr]
    exact hg.mono hr

/-- Where what comes next after a second action is what comes next after the same action alone, only later, the two make as much. -/
theorem Gives.count_eq {h₁ h₂ h₁₂ : Heap χ} {a b c : Nat} (hw : h.WellFormed) (hg₁ : h.Gives a h₁) (hg₂ : h.Gives b h₂)
    (hg₁₂ : h₁.Gives c h₁₂) (hdue : h₁₂.due 0 = h.reorder (a + ·) (h₂.due 0)) : c = b := by
  rw [hg₁₂.due, hg₁.due, hg₂.due, hw.reorder_due] at hdue
  exact Nat.add_left_cancel (hw.due_injective hdue)

/-- What the first block is used for comes after the second block when the two are exchanged. -/
theorem Gives.reorder_eq_exchange {a b : Nat} (hg : h.Gives a h') (hw : h.WellFormed) (hr : h'.Given r) :
    h.reorder (b + ·) r = hw.reorderPerm (exchange a b) r := by
  show h.reorder (b + ·) r = h.reorder (exchange a b) r
  rcases (hg.given r).1 hr with hr | ⟨k, hk, rfl⟩
  · rw [hw.reorder_of_given hr, hw.reorder_of_given hr]
  · rw [hw.reorder_due, hw.reorder_due, exchange_of_lt hk]

/-- What the second block is used for alone comes from behind the first block. -/
theorem Gives.reorder_eq_symm_exchange {a b : Nat} (hg : h.Gives b h') (hw : h.WellFormed) (hr : h'.Given r) :
    h.reorder (a + ·) r = (hw.reorderPerm (exchange a b)).symm r := by
  rw [Equiv.eq_symm_apply]
  show h.reorder (exchange a b) _ = r
  rcases (hg.given r).1 hr with hr | ⟨k, hk, rfl⟩
  · rw [hw.reorder_of_given hr, hw.reorder_of_given hr]
  · rw [hw.reorder_due, hw.reorder_due, exchange_add hk]

end Heap

/-! ## Machines of which one is the other renamed -/

/-- The footing of a machine and its renaming: nothing differs, and everything may be written. -/
def Footing.whole (ρ : Equiv.Perm Ref) (m : Machine χ σ) : Footing where
  rename := ρ
  injective := ρ.injective
  holes _ _ := False
  writes _ _ := True
  registry := m.registry
  globals := m.globals

namespace Machine

variable {m n : Machine χ σ} {ρ : Equiv.Perm Ref}

/-- What is under a name in the registry is so under its new name. -/
theorem Renamed.registered (h : m.Renamed ρ n) {name : String} {t : Ref} (ht : m.Registered name t) : n.Registered name (ρ t) := by
  obtain ⟨R, hR, hfield⟩ := ht
  have hrel := h.heap.object m.registry
  rw [hR, ← h.registry] at hrel
  generalize hR' : n.heap.object? n.registry = x at hrel
  cases hrel with
  | some hrel =>
    cases hrel with
    | table hrel => exact ⟨_, hR', by rw [hrel.field trivial, hfield]; rfl⟩

theorem Renamed.tandem (h : m.Renamed ρ n) (hm : m.heap.WellFormed) (hn : n.heap.WellFormed) : m.Tandem (.whole ρ m) n where
  left := hm
  right := hn
  registry := ⟨rfl, h.registry⟩
  globals := ⟨rfl, h.globals⟩
  due := h.heap.due
  new _ _ := ⟨trivial, id⟩
  object r := rel_imp (h.heap.object r) fun _ _ _ h => h.weaken fun _ _ => trivial

/-- Two actions that go in parallel lead from a machine and its renaming to a machine and its renaming. -/
theorem Renamed.act (h : m.Renamed ρ n) (hm : m.heap.WellFormed) (hn : n.heap.WellFormed) {K : Machine χ σ → Prop} {x : Action χ σ α}
    {y : Action χ σ β} {ren : α → β} {P : α → Prop} (hx : x.Quiet) (hy : y.Quiet)
    (hxy : Action.Parallel (.whole ρ m) K x y ren P) (hk : K m) : (x m).2.Renamed ρ (y n).2 ∧ (y n).1 = (x m).1.map ren := by
  obtain ⟨htandem, -, hleft, hright, hanswer, -⟩ := hxy m n (h.tandem hm hn) hk
  obtain ⟨-, c, hc⟩ := (hx m).exists_gives hm
  obtain ⟨-, c', hc'⟩ := (hy n).exists_gives hn
  have hsame : c' = c := by
    have hdue : (y n).2.heap.due 0 = ρ ((x m).2.heap.due 0) := htandem.due 0
    rw [hc'.due, hc.due, ← h.heap.due] at hdue
    exact hn.due_injective hdue
  subst hsame
  have hheap : (x m).2.heap.Renamed ρ (y n).2.heap := by
    refine ⟨fun r => rel_imp (htandem.object r) fun _ _ _ h => h.weaken fun _ _ => id, ?_, htandem.due⟩
    rw [hc'.live, hc.live, h.heap.live]
  refine ⟨?_, hanswer⟩
  rw [hleft, hright]
  exact { h with heap := hheap }

end Machine

/-! ## Squares -/

/-- The fields are not under keys that carry references. -/
def PlainKeys (W : Ref → Field → Prop) : Prop := ∀ r (k : Key), W r (.entry k) → k.ref? = none

/-- So they are the same under other names. -/
theorem PlainKeys.of_rename {W : Ref → Field → Prop} (hW : PlainKeys W) {ρ : Ref → Ref} {r : Ref} {f : Field} (h : W r (f.rename ρ)) :
    W r f := by
  cases f with
  | entry k =>
    have hplain := hW r _ h
    rw [Key.ref?_rename, Option.map_eq_none_iff] at hplain
    rwa [Field.rename, Key.rename_of_plain hplain] at h
  | _ => exact h

/-- On the machine the action reads the fields of one kind and writes those of another: on a machine in tandem with it, which has the
same names for the references that were given, has no holes in what is read, and where what is written may be, it does the same. -/
def Action.Confined (R W : Ref → Field → Prop) (x : Action χ σ α) (ren : (Ref → Ref) → α → α) (m : Machine χ σ) : Prop :=
  ∀ (S : Footing) (n : Machine χ σ), m.Tandem S n → (∀ r, m.heap.Given r → S.rename r = r) → (∀ r f, R r f → ¬S.holes r f) →
    (∀ r f, W r f → S.writes r f) → Action.Together S x x (ren S.rename) (fun _ => True) m n

/-- The footing of a machine and what has come of it after so many new objects, when fields of one kind of what was given are different
and those of another may be written. What is due is due so much later. -/
noncomputable def Footing.past (m : Machine χ σ) (hw : m.heap.WellFormed) (c : Nat) (H W : Ref → Field → Prop) : Footing where
  rename := m.heap.reorder (c + ·)
  injective := hw.reorder_injective fun _ _ h => Nat.add_left_cancel h
  holes r f := m.heap.Given r ∧ H r f
  writes r f := m.heap.Given r → W r f
  registry := m.registry
  globals := m.globals

namespace Machine

variable {m m₁ m₂ m₁₂ m₂₁ : Machine χ σ} {x : Action χ σ α} {y : Action χ σ β} {R W W' Wx Wy Rx Ry : Ref → Field → Prop}
  {renx : (Ref → Ref) → α → α} {reny : (Ref → Ref) → β → β} {a b c : Nat}

theorem tandem_self (hw : m.heap.WellFormed) : m.Tandem (.past m hw 0 (fun _ _ => False) W) m := by
  have hsame : m.heap.reorder (0 + ·) = id := funext fun r => by
    rw [show (0 + · : Nat → Nat) = id from funext Nat.zero_add, hw.reorder_id]
    rfl
  have hrename : (Footing.past m hw 0 (fun _ _ => False) W).rename = id := hsame
  refine ⟨hw, hw, ⟨rfl, ?_⟩, ⟨rfl, ?_⟩, fun k => ?_, fun k f => ⟨fun h => absurd h (hw.not_given_due k), And.right⟩, fun r => ?_⟩
  · rw [hrename]
    rfl
  · rw [hrename]
    rfl
  · rw [hrename]
    rfl
  · rw [hrename]
    show Option.Rel _ _ (m.heap.object? r)
    cases m.heap.object? r with
    | none => exact .none
    | some o => exact .some o.renames_id

/-- Of what was there after so many new objects, what is written was there before. -/
theorem given_of_written (hw : m.heap.WellFormed) (hg : m.heap.Gives c m₁.heap) {r : Ref} {f : Field} (hr : m₁.heap.Given r)
    (h : (Footing.past m hw c W' W).Written r f) : m.heap.Given r ∧ W r f := by
  obtain ⟨r', hr', hwrites⟩ : ∃ r', m.heap.reorder (c + ·) r' = r ∧ (m.heap.Given r' → W r' f) := h
  have hgiven : m.heap.Given r' := (hg.given_reorder_iff hw).1 (by rwa [hr'])
  rw [hw.reorder_of_given hgiven] at hr'
  subst hr'
  exact ⟨hgiven, hwrites hgiven⟩

/-- What a confined action makes of a machine is in tandem with it, apart from what the action writes. -/
theorem Unforged.tandem_past (hm : m.Unforged) (hw : m.heap.WellFormed) (hx : x.Confined R W renx m) (hW : PlainKeys W)
    (hw₁ : (x m).2.heap.WellFormed) (hg : m.heap.Gives c (x m).2.heap) : m.Tandem (.past m hw c W W') (x m).2 := by
  have hfix : ∀ r, m.heap.Given r → m.heap.reorder (c + ·) r = r := fun r hr => hw.reorder_of_given hr
  obtain ⟨-, hleaves, hleft, -, -, -⟩ := hx (.past m hw 0 (fun _ _ => False) W) m (tandem_self hw)
    (fun r hr => hw.reorder_of_given hr) (fun _ _ _ h => h.2) fun _ _ h _ => h
  have hroots := hm.roots
  refine ⟨hw, hw₁, ⟨rfl, ?_⟩, ⟨rfl, ?_⟩, fun k => ?_, fun k f => ?_, fun r => ?_⟩
  · rw [hleft]
    exact (hfix _ (hroots _ (Or.inl rfl))).symm
  · rw [hleft]
    exact (hfix _ (hroots _ (Or.inr (Or.inl rfl)))).symm
  · rw [hg.due]
    exact (hw.reorder_due k).symm
  · exact ⟨fun h => absurd h (hw.not_given_due k), fun h => hw.not_given_due k h.1⟩
  · show Option.Rel (Object.Renames (m.heap.reorder (c + ·)) fun f => ¬(m.heap.Given r ∧ W r f)) _
      ((x m).2.heap.object? (m.heap.reorder (c + ·) r))
    by_cases hr : m.heap.Given r
    · have hwritten : ∀ f, (Footing.past m hw 0 (fun _ _ => False) W).Written r f → W r f := fun f h =>
        (given_of_written hw (.refl _) hr h).2
      have hspared : ∃ f, ¬(Footing.past m hw 0 (fun _ _ => False) W).Written r f :=
        ⟨.entry (.table r), fun h => by cases hW r _ (hwritten _ h)⟩
      rw [hfix r hr]
      refine rel_imp (hleaves r hspared) fun o o' ho h => ?_
      refine (h.weaken fun f hf hf' => hf ⟨hr, hwritten f hf'⟩).congr (fun k hk h => hk (hW r k h.2)) (fun s hs => ?_) ?_
      · exact (hfix s (hm.objects r o ho s hs)).symm
      · exact hw.reorder_injective fun _ _ h => Nat.add_left_cancel h
    · rw [Heap.object?_of_not_given hr, Heap.object?_of_not_given (mt (hg.given_reorder_iff hw).1 hr)]
      exact .none

/-- One half of a square: what was there when the first action was over, the second leaves alone apart from what it writes, and so
does the first when it comes second. -/
theorem Unforged.half_square {ρ : Equiv.Perm Ref} (hm₁ : m₁.Unforged) (hw : m.heap.WellFormed) (hga : m.heap.Gives a m₁.heap)
    (hWy : PlainKeys Wy) (hleaves : (Footing.past m hw a Wx Wy).Leaves m₁ m₁₂) (htandem : m₁.Tandem (.past m hw b Wy Wx) m₂₁)
    (hρ : ∀ r, m₁.heap.Given r → m.heap.reorder (b + ·) r = ρ r) {r : Ref} (hr : m₁.heap.Given r) :
    Option.Rel (Object.Renames ρ fun f => ¬(m.heap.Given r ∧ Wy r f)) (m₁₂.heap.object? r) (m₂₁.heap.object? (ρ r)) := by
  have hwritten : ∀ f, (Footing.past m hw a Wx Wy).Written r f → m.heap.Given r ∧ Wy r f := fun f h =>
    given_of_written hw hga hr h
  have hspared : ∃ f, ¬(Footing.past m hw a Wx Wy).Written r f :=
    ⟨.entry (.table r), fun h => by cases hWy r _ (hwritten _ h).2⟩
  have h₁ := hleaves r hspared
  have h₂ := htandem.object r
  rw [show (Footing.past m hw b Wy Wx).rename r = ρ r from hρ r hr] at h₂
  refine rel_span h₁ h₂ fun o o' o'' ho h₁ h₂ => ?_
  refine (h₁.weaken fun f hf hf' => hf (hwritten f hf')).past h₂ (fun k hk h => hk (hWy r k h.2)) (fun s hs => ?_) ρ.injective
  exact hρ s (hm₁.objects r o ho s hs)

/-- The two halves make the whole: what was there before is the same in the fields that the one leaves and in those that the other
leaves, and what was made by one of the two is left by the other. -/
theorem renamed_of_halves {ρ : Equiv.Perm Ref} (hfix : ∀ r, m.heap.Given r → ρ r = r) (hWx : PlainKeys Wx)
    (hxy : ∀ r f, Wx r f → ¬Wy r f)
    (half₁ : ∀ r, m₁.heap.Given r →
      Option.Rel (Object.Renames ρ fun f => ¬(m.heap.Given r ∧ Wy r f)) (m₁₂.heap.object? r) (m₂₁.heap.object? (ρ r)))
    (half₂ : ∀ r, m₂.heap.Given r →
      Option.Rel (Object.Renames ρ.symm fun f => ¬(m.heap.Given r ∧ Wx r f)) (m₂₁.heap.object? r) (m₁₂.heap.object? (ρ.symm r)))
    (hgiven₁ : ∀ r, m.heap.Given r → m₁.heap.Given r) (hgiven₂ : ∀ r, m.heap.Given r → m₂.heap.Given r)
    (h₁₂ : ∀ r, m₁₂.heap.Given r → m₁.heap.Given r ∨ m₂.heap.Given (ρ r))
    (h₂₁ : ∀ r, m₂₁.heap.Given (ρ r) → m₁.heap.Given r ∨ m₂.heap.Given (ρ r)) (r : Ref) :
    Option.Rel (Object.Renames ρ fun _ => True) (m₁₂.heap.object? r) (m₂₁.heap.object? (ρ r)) := by
  by_cases hr : m.heap.Given r
  · have h₁ := half₁ r (hgiven₁ r hr)
    have h₂ := half₂ r (hgiven₂ r hr)
    rw [(Equiv.symm_apply_eq ρ).2 (hfix r hr).symm] at h₂
    rw [hfix r hr] at h₁ ⊢
    have hback : Option.Rel (Object.Renames ρ fun f => ¬Wx r f) (m₁₂.heap.object? r) (m₂₁.heap.object? r) :=
      Object.Renames.flip h₂ fun f hf h => hf (hWx.of_rename h.2)
    refine rel_and h₁ hback fun _ _ h h' => ?_
    refine (h.union h').weaken fun f _ => ?_
    by_cases hf : Wx r f
    · exact Or.inl fun h => hxy r f hf h.2
    · exact Or.inr hf
  · by_cases hr₁ : m₁.heap.Given r
    · exact rel_imp (half₁ r hr₁) fun _ _ _ h => h.weaken fun _ _ h => hr h.1
    · by_cases hr₂ : m₂.heap.Given (ρ r)
      · have h₂ := half₂ _ hr₂
        rw [Equiv.symm_apply_apply] at h₂
        refine Object.Renames.flip h₂ fun f _ h => hr ?_
        rw [← ρ.injective (hfix _ h.1)]
        exact h.1
      · have hnone : ¬(m₁.heap.Given r ∨ m₂.heap.Given (ρ r)) := not_or.2 ⟨hr₁, hr₂⟩
        rw [Heap.object?_of_not_given (mt (h₁₂ r) hnone), Heap.object?_of_not_given (mt (h₂₁ r) hnone)]
        exact .none

/-- Two confined actions of which each writes nothing that the other reads or writes end, in either order, with the same machine up to
names. What was given before keeps its name, and the answers in one order are those in the other renamed. -/
theorem Unforged.exists_square (hm : m.Unforged) (hw : m.heap.WellFormed) (hx : x.Confined Rx Wx renx m)
    (hy : y.Confined Ry Wy reny m) (hqx : x.Quiet) (hqy : y.Quiet) (hWx : PlainKeys Wx) (hWy : PlainKeys Wy) (hm₁ : (x m).2.Unforged)
    (hm₂ : (y m).2.Unforged) (hxy : ∀ r f, Wx r f → ¬Ry r f ∧ ¬Wy r f) (hyx : ∀ r f, Wy r f → ¬Rx r f) :
    ∃ ρ : Equiv.Perm Ref, (∀ r, m.heap.Given r → ρ r = r) ∧ (y (x m).2).2.Renamed ρ (x (y m).2).2 ∧
      (∃ ρ₁, (x (y m).2).1 = (x m).1.map (renx ρ₁) ∧ ∀ r, (x m).2.heap.Given r → ρ₁ r = ρ r) ∧
      ∃ ρ₂, (y (x m).2).1 = (y m).1.map (reny ρ₂) ∧ ∀ r, (y m).2.heap.Given r → ρ (ρ₂ r) = r := by
  obtain ⟨hw₁, a, hga⟩ := (hqx m).exists_gives hw
  obtain ⟨hw₂, b, hgb⟩ := (hqy m).exists_gives hw
  obtain ⟨-, b', hgb'⟩ := (hqy (x m).2).exists_gives hw₁
  obtain ⟨-, a', hga'⟩ := (hqx (y m).2).exists_gives hw₂
  -- each second action in tandem with the same action on the machine before
  obtain ⟨htandem, hleaves, hleft₂, hright₁₂, hanswer₂, -⟩ := hy (.past m hw a Wx Wy) (x m).2 (hm.tandem_past hw hx hWx hw₁ hga)
    (fun r hr => hw.reorder_of_given hr) (fun r f h h' => (hxy r f h'.2).1 h) fun _ _ h _ => h
  obtain ⟨htandem', hleaves', hleft₁, hright₂₁, hanswer₁, -⟩ := hx (.past m hw b Wy Wx) (y m).2 (hm.tandem_past hw hy hWy hw₂ hgb)
    (fun r hr => hw.reorder_of_given hr) (fun r f h h' => hyx r f h'.2 h) fun _ _ h _ => h
  obtain rfl := Heap.Gives.count_eq hw hga hgb hgb' (htandem.due 0)
  obtain rfl := Heap.Gives.count_eq hw hgb hga hga' (htandem'.due 0)
  -- the references made by the two are exchanged
  set ρ := hw.reorderPerm (exchange a' b')
  have hfix : ∀ r, m.heap.Given r → ρ r = r := fun r hr => hw.reorder_of_given hr
  have hdue : ∀ k, ρ (m.heap.due k) = m.heap.due (exchange a' b' k) := fun k => hw.reorder_due k
  have hρ₁ : ∀ r, (x m).2.heap.Given r → m.heap.reorder (b' + ·) r = ρ r := fun r hr => hga.reorder_eq_exchange hw hr
  have hρ₂ : ∀ r, (y m).2.heap.Given r → m.heap.reorder (a' + ·) r = ρ.symm r := fun r hr => hgb.reorder_eq_symm_exchange hw hr
  have half₁ := fun r hr => hm₁.half_square hw hga hWy hleaves htandem' hρ₁ (r := r) hr
  have half₂ := fun r hr => hm₂.half_square hw hgb hWx hleaves' htandem hρ₂ (r := r) hr
  have hheap : (y (x m).2).2.heap.Renamed ρ (x (y m).2).2.heap := by
    refine ⟨renamed_of_halves hfix hWx (fun r f h => (hxy r f h).2) half₁ half₂ (fun _ => hga.mono) (fun _ => hgb.mono)
      (fun r hr => ?_) (fun r hr => ?_), ?_, fun k => ?_⟩
    · refine ((hgb'.given r).1 hr).imp_right ?_
      rintro ⟨k, hk, rfl⟩
      rw [hga.due, hdue, exchange_add hk]
      exact (hgb.given _).2 (Or.inr ⟨k, hk, rfl⟩)
    · refine ((hga'.given _).1 hr).symm.imp_left ?_
      rintro ⟨k, hk, he⟩
      rw [hgb.due, ← exchange_of_lt hk, ← hdue, ρ.injective.eq_iff] at he
      rw [he]
      exact (hga.given _).2 (Or.inr ⟨k, hk, rfl⟩)
    · rw [hga'.live, hgb'.live, hga.live, hgb.live]
      omega
    · rw [hga'.due, hgb'.due, hga.due, hgb.due, hdue, exchange_of_le (by omega)]
      congr 1
      omega
  refine ⟨ρ, hfix, ?_, ⟨_, hanswer₁, hρ₁⟩, _, hanswer₂, fun r hr => ?_⟩
  · have hleft : (y (x m).2).2 = { m with heap := (y (x m).2).2.heap } :=
      hright₁₂.trans (congrArg (fun n : Machine χ σ => { n with heap := (y (x m).2).2.heap }) hleft₁)
    have hright : (x (y m).2).2 = { m with heap := (x (y m).2).2.heap } :=
      hright₂₁.trans (congrArg (fun n : Machine χ σ => { n with heap := (x (y m).2).2.heap }) hleft₂)
    rw [hleft, hright]
    exact HoldsOnly.renamed hm hfix hheap
  · rw [show (Footing.past m hw a' Wx Wy).rename r = ρ.symm r from hρ₂ r hr, Equiv.apply_symm_apply]

end Machine

end ScriptHost

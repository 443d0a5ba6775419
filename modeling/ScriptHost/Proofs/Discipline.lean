import ScriptHost.Proofs.Writes

/-!
# Disciplines

A discipline is a property of machines together with how a machine goes on from an earlier one (`Discipline`). An action keeps a
discipline when it leads from machines of it to machines of it that go on from them (`Discipline.Keeps`): it may need something of
the machine it begins on, and its answer comes with something about the machine it leaves. Longer actions are put together with
`bind`, and what lasts while machines go on is carried along with `frame`.
-/

namespace ScriptHost

variable {χ σ α β : Type}

/-- A property of machines, and what a later machine has to do with an earlier one. -/
structure Discipline (χ σ : Type) where
  Inv : Machine χ σ → Prop
  Next : Machine χ σ → Machine χ σ → Prop
  refl : ∀ m, Next m m
  trans : ∀ m m' m'', Next m m' → Next m' m'' → Next m m''

namespace Discipline

variable {D : Discipline χ σ} {K L : Machine χ σ → Prop} {Q : α → Machine χ σ → Prop} {Q' : β → Machine χ σ → Prop}

/-- From a machine with the property and with what the action needs, it leads to a machine with the property that goes on from
the first, and the answer comes with what is promised of it. -/
def Keeps (D : Discipline χ σ) (K : Machine χ σ → Prop) (x : Action χ σ α) (Q : α → Machine χ σ → Prop) : Prop :=
  ∀ m, D.Inv m → K m → D.Inv (x m).2 ∧ D.Next m (x m).2 ∧ ∀ a, (x m).1 = .ok a → Q a (x m).2

/-- What holds of a machine holds of every machine that goes on from it. -/
def Lasts (D : Discipline χ σ) (K : Machine χ σ → Prop) : Prop := ∀ m m', D.Next m m' → K m → K m'

/-- An action that leaves the machine as it is. -/
theorem keeps_of_still {x : Action χ σ α} (hx : ∀ m, (x m).2 = m)
    (hQ : ∀ m a, D.Inv m → K m → (x m).1 = .ok a → Q a m) : D.Keeps K x Q := by
  intro m hm hk
  rw [hx]
  exact ⟨hm, D.refl m, fun a ha => hQ m a hm hk ha⟩

theorem keeps_pure {a : α} (h : ∀ m, D.Inv m → K m → Q a m) : D.Keeps K (pure a) Q := by
  refine keeps_of_still (fun _ => rfl) fun m b hm hk hb => ?_
  cases hb
  exact h m hm hk

theorem keeps_fail (e : Fault) : D.Keeps K (Action.fail e) Q :=
  keeps_of_still (fun _ => rfl) fun _ _ _ _ h => nomatch h

theorem keeps_query {f : Machine χ σ → Except Fault α} (h : ∀ m a, D.Inv m → K m → f m = .ok a → Q a m) :
    D.Keeps K (Action.query f) Q :=
  keeps_of_still (fun _ => rfl) h

/-- One action after another, when the second needs what the answer of the first comes with. -/
theorem Keeps.bind {x : Action χ σ α} {f : α → Action χ σ β} (hx : D.Keeps K x Q) (hf : ∀ a, D.Keeps (Q a) (f a) Q') :
    D.Keeps K (x >>= f) Q' := by
  intro m hm hk
  show D.Inv (Action.bind x f m).2 ∧ D.Next m (Action.bind x f m).2 ∧
    ∀ b, (Action.bind x f m).1 = .ok b → Q' b (Action.bind x f m).2
  obtain ⟨hi, hn, hq⟩ := hx m hm hk
  unfold Action.bind
  cases hxm : x m with
  | mk result m' =>
    rw [hxm] at hi hn hq
    cases result with
    | error e => exact ⟨hi, hn, fun b hb => nomatch hb⟩
    | ok a =>
      obtain ⟨hi', hn', hq'⟩ := hf a m' hi (hq a rfl)
      exact ⟨hi', D.trans _ _ _ hn hn', hq'⟩

/-- What is needed may follow from the property of the machines. -/
theorem Keeps.of_need {x : Action χ σ α} (hx : D.Keeps K x Q) (hL : ∀ m, D.Inv m → L m → K m) : D.Keeps L x Q :=
  fun m hm hl => hx m hm (hL m hm hl)

/-- Needing more and promising less. -/
theorem Keeps.weaken {x : Action χ σ α} {P : α → Machine χ σ → Prop} (hx : D.Keeps K x Q) (hL : ∀ m, L m → K m)
    (hP : ∀ a m, Q a m → P a m) : D.Keeps L x P := by
  intro m hm hl
  obtain ⟨hi, hn, hq⟩ := hx m hm (hL m hl)
  exact ⟨hi, hn, fun a ha => hP a _ (hq a ha)⟩

/-- What lasts is still there afterwards. -/
theorem Keeps.frame {x : Action χ σ α} (hL : D.Lasts L) (hx : D.Keeps K x Q) :
    D.Keeps (fun m => K m ∧ L m) x (fun a m => Q a m ∧ L m) := by
  intro m hm hk
  obtain ⟨hi, hn, hq⟩ := hx m hm hk.1
  exact ⟨hi, hn, fun a ha => ⟨hq a ha, hL m _ hn hk.2⟩⟩

end Discipline

end ScriptHost

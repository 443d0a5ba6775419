import Mathlib.Logic.Relation
import ScriptHost.Binding.Class

/-!
# Hierarchies

The classes that were installed, the latest first, are a history (`History`). Each class comes after its bases
(`History.Ordered`), so what is computed for a class from what is computed for its bases is a recursion on the history
(`History.walk`): the order in which a lookup visits the classes below a class, and the number of classes on its longest path of
bases. A lookup visits exactly the classes that can be reached through declared bases (`mem_preorder_iff`).
-/

namespace ScriptHost

variable {χ α : Type}

/-- The fields of a class table that hold its metamethods. -/
def Registry.metamethods : List String := [readName, writeName, finalizeName]

/-- The classes that were installed, the latest first. -/
abbrev History (χ : Type) : Type := List (ClassDescriptor χ)

namespace History

/-- The history has a class of the name, and the class is installed. One with the name of a metamethod never is: the metamethod
takes the place of the `true` that says so. -/
def Has (ds : History χ) (name : String) : Prop := name ∉ Registry.metamethods ∧ ∃ d ∈ ds, d.name = name

instance (ds : History χ) (name : String) : Decidable (ds.Has name) := inferInstanceAs (Decidable (_ ∧ _))

/-- Classes come after their bases, no installed class is installed again, and no class has a name of the binding layer. -/
inductive Ordered : History χ → Prop where
  | nil : Ordered []
  | cons {d : ClassDescriptor χ} {earlier : History χ} (h : Ordered earlier) (reserved : d.name ∉ Registry.reserved)
      (new : ¬Has earlier d.name) (bases : ∀ b ∈ d.bases, Has earlier b) : Ordered (d :: earlier)

/-- What is computed for a class from what is computed for its bases, in their order. -/
def walk (f : String → List α → α) (missing : α) : History χ → String → α
  | [], _ => missing
  | d :: earlier, name =>
    if d.name = name then f name (d.bases.map (walk f missing earlier)) else walk f missing earlier name

/-- A class and the classes below it: itself first, then its bases from left to right, each followed by what is below it. -/
def preorder (ds : History χ) : String → List String := ds.walk (fun name below => name :: below.flatten) []

/-- The number of classes on the longest path of bases that begins with a class. -/
def height (ds : History χ) : String → Nat := ds.walk (fun _ below => below.foldr max 0 + 1) 0

/-- The first class declares the second as a base. -/
def Declares (ds : History χ) (a b : String) : Prop := ∃ d ∈ ds, d.name = a ∧ b ∈ d.bases

variable {ds : History χ} {d : ClassDescriptor χ} {a b name : String}

theorem Has.cons (h : Has ds name) (d : ClassDescriptor χ) : Has (d :: ds) name := by
  obtain ⟨hn, e, he, hname⟩ := h
  exact ⟨hn, e, List.mem_cons_of_mem _ he, hname⟩

theorem Ordered.has_base (h : Ordered ds) (hd : d ∈ ds) (hb : b ∈ d.bases) : Has ds b := by
  induction h with
  | nil => cases hd
  | cons h _ _ bases ih =>
    rcases List.mem_cons.1 hd with rfl | hd
    · exact (bases b hb).cons _
    · exact (ih hd).cons _

theorem Ordered.not_reserved (h : Ordered ds) (hd : d ∈ ds) : d.name ∉ Registry.reserved := by
  induction h with
  | nil => cases hd
  | cons _ reserved _ _ ih =>
    rcases List.mem_cons.1 hd with rfl | hd
    · exact reserved
    · exact ih hd

/-- What holds of a class as soon as it holds of its bases holds of every installed class. -/
theorem Ordered.induction (h : Ordered ds) {P : String → Prop}
    (step : ∀ d ∈ ds, d.name ∉ Registry.metamethods → (∀ b ∈ d.bases, P b) → P d.name) : ∀ name, Has ds name → P name := by
  induction h with
  | nil =>
    rintro name ⟨-, d, hd, -⟩
    cases hd
  | @cons d earlier _ _ _ bases ih =>
    have hearlier := ih fun e he => step e (List.mem_cons_of_mem _ he)
    rintro name ⟨hn, e, he, rfl⟩
    rcases List.mem_cons.1 he with rfl | he
    · exact step e List.mem_cons_self hn fun b hb => hearlier b (bases b hb)
    · exact hearlier e.name ⟨hn, e, he, rfl⟩

/-! ## Computing along the bases -/

variable {f : String → List α → α} {missing : α}

/-- A later class makes no difference to an installed one. -/
theorem Ordered.walk_cons (h : Ordered (d :: ds)) (hn : Has ds name) :
    walk f missing (d :: ds) name = walk f missing ds name := by
  cases h with
  | cons _ _ new _ => exact if_neg fun (e : d.name = name) => new (e ▸ hn)

/-- Wherever in the history a class is, its bases are computed in the whole of it. -/
theorem Ordered.walk_eq (h : Ordered ds) (hd : d ∈ ds) (hn : d.name ∉ Registry.metamethods) :
    walk f missing ds d.name = f d.name (d.bases.map (walk f missing ds)) := by
  induction h with
  | nil => cases hd
  | @cons e earlier h reserved new bases ih =>
    have hcons := Ordered.cons h reserved new bases
    rcases List.mem_cons.1 hd with rfl | hd
    · have hbases : d.bases.map (walk f missing (d :: earlier)) = d.bases.map (walk f missing earlier) :=
        List.map_congr_left fun b hb => hcons.walk_cons (bases b hb)
      rw [hbases, walk, if_pos rfl]
    · have hbases : d.bases.map (walk f missing (e :: earlier)) = d.bases.map (walk f missing earlier) :=
        List.map_congr_left fun b hb => hcons.walk_cons (h.has_base hd hb)
      rw [hbases, hcons.walk_cons ⟨hn, d, hd, rfl⟩, ih hd]

theorem Ordered.preorder_eq (h : Ordered ds) (hd : d ∈ ds) (hn : d.name ∉ Registry.metamethods) :
    ds.preorder d.name = d.name :: d.bases.flatMap ds.preorder := by
  rw [List.flatMap_def]
  exact h.walk_eq hd hn

theorem Ordered.height_eq (h : Ordered ds) (hd : d ∈ ds) (hn : d.name ∉ Registry.metamethods) :
    ds.height d.name = (d.bases.map ds.height).foldr max 0 + 1 :=
  h.walk_eq hd hn

/-! ## What a lookup visits -/

theorem Ordered.self_mem_preorder (h : Ordered ds) (ha : Has ds a) : a ∈ ds.preorder a := by
  obtain ⟨hn, d, hd, rfl⟩ := ha
  rw [h.preorder_eq hd hn]
  exact List.mem_cons_self

/-- A lookup visits installed classes. -/
theorem Ordered.has_of_mem_preorder (h : Ordered ds) (ha : Has ds a) : ∀ b ∈ ds.preorder a, Has ds b := by
  refine h.induction (P := fun a => ∀ b ∈ ds.preorder a, Has ds b) ?_ a ha
  intro d hd hn ih b hb
  rw [h.preorder_eq hd hn] at hb
  rcases List.mem_cons.1 hb with rfl | hb
  · exact ⟨hn, d, hd, rfl⟩
  · obtain ⟨c, hc, hb⟩ := List.mem_flatMap.1 hb
    exact ih c hc b hb

/-- A lookup visits the class and its direct and transitive bases, and no other class. -/
theorem Ordered.mem_preorder_iff (h : Ordered ds) (ha : Has ds a) :
    b ∈ ds.preorder a ↔ Relation.ReflTransGen ds.Declares a b := by
  constructor
  · refine h.induction (P := fun a => b ∈ ds.preorder a → Relation.ReflTransGen ds.Declares a b) ?_ a ha
    intro d hd hn ih hb
    rw [h.preorder_eq hd hn] at hb
    rcases List.mem_cons.1 hb with rfl | hb
    · exact .refl
    · obtain ⟨c, hc, hb⟩ := List.mem_flatMap.1 hb
      exact .head ⟨d, hd, rfl, hc⟩ (ih c hc hb)
  · intro hab
    induction hab using Relation.ReflTransGen.head_induction_on with
    | refl => exact h.self_mem_preorder ha
    | head hstep _ ih =>
      obtain ⟨d, hd, rfl, hc⟩ := hstep
      rw [h.preorder_eq hd ha.1]
      exact List.mem_cons_of_mem _ (List.mem_flatMap.2 ⟨_, hc, ih (h.has_base hd hc)⟩)

end History

end ScriptHost

import ScriptHost.Proofs.Renaming
import ScriptHost.Proofs.Installing

/-!
# Two runs in tandem

Two machines of which the second has what the first has under other names, apart from some fields, the holes (`Machine.Tandem`). One
action on both leads to two such machines again, as long as it reads no hole (`Action.Parallel`): the answers are the same up to names,
and so is all that is made and all that is written, holes included. Each operation has a lemma that says which fields must have no
holes and which it may write, up to asking for the handle of an address (`Action.parallel_ensureHandle`) and installing a class
(`Action.parallel_install`). Machines without holes are each other renamed. With holes, the two machines may be one machine before and
after something else has happened, which is how actions are shown to commute.
-/

namespace ScriptHost

variable {χ σ α β α' β' : Type}

/-- How two machines are run in tandem: how the references of the first are named on the second, which fields may differ between them,
which fields may be written, and the two tables of the first that are always there. -/
structure Footing where
  rename : Ref → Ref
  injective : Function.Injective rename
  holes : Ref → Field → Prop
  writes : Ref → Field → Prop
  registry : Ref
  globals : Ref

namespace Footing

/-- The field of an object of the second machine may be written. -/
def Written (S : Footing) (s : Ref) (f : Field) : Prop := ∃ r, S.rename r = s ∧ S.writes r f

/-- The table may become that of a class: it may be written under texts, and get a metatable. -/
def Fills (S : Footing) (t : Ref) : Prop := (∀ name, S.writes t (.entry (.string name))) ∧ S.writes t .metatable

/-- What may not be written on the second machine is as it was. -/
def Leaves (S : Footing) (n n' : Machine χ σ) : Prop :=
  ∀ s, (∃ f, ¬S.Written s f) →
    Option.Rel (Object.Renames id fun f => ¬S.Written s f) (n.heap.object? s) (n'.heap.object? s)

variable {S : Footing} {n n' n'' : Machine χ σ} {r : Ref} {f : Field}

theorem written_rename_iff : S.Written (S.rename r) f ↔ S.writes r f := by
  constructor
  · rintro ⟨r', hr', hw⟩
    exact S.injective hr' ▸ hw
  · exact fun hw => ⟨r, rfl, hw⟩

theorem leaves_of_heap_eq (h : n'.heap = n.heap) : S.Leaves n n' := by
  intro s _
  rw [h]
  cases n.heap.object? s with
  | none => exact .none
  | some o => exact .some (Object.renames_id o)

theorem Leaves.trans (h : S.Leaves n n') (h' : S.Leaves n' n'') : S.Leaves n n'' := fun s hs =>
  rel_comp (h s hs) (h' s hs) fun _ _ _ h h' => h.trans h' Function.surjective_id fun f hf => by rwa [Field.rename_id]

end Footing

namespace Machine

/-- The second machine has what the first has, with references renamed, apart from the holes, and the references that come next
correspond. What comes next may be written and has no holes. -/
structure Tandem (S : Footing) (m n : Machine χ σ) : Prop where
  left : m.heap.WellFormed
  right : n.heap.WellFormed
  registry : m.registry = S.registry ∧ n.registry = S.rename S.registry
  globals : m.globals = S.globals ∧ n.globals = S.rename S.globals
  due : ∀ k, n.heap.due k = S.rename (m.heap.due k)
  new : ∀ k f, S.writes (m.heap.due k) f ∧ ¬S.holes (m.heap.due k) f
  object : ∀ r, Option.Rel (Object.Renames S.rename fun f => ¬S.holes r f) (m.heap.object? r) (n.heap.object? (S.rename r))

end Machine

open Machine in
/-- What two actions come to on two machines in tandem: the machines are in tandem again, nothing but the heap has changed, on the
second machine nothing is written that may not be, and the answers are the same up to names. -/
structure Action.Together (S : Footing) (x : Action χ σ α) (y : Action χ σ β) (ren : α → β) (P : α → Prop) (m n : Machine χ σ) :
    Prop where
  tandem : (x m).2.Tandem S (y n).2
  leaves : S.Leaves n (y n).2
  left : (x m).2 = { m with heap := (x m).2.heap }
  right : (y n).2 = { n with heap := (y n).2.heap }
  answer : (y n).1 = (x m).1.map ren
  promise : ∀ a, (x m).1 = .ok a → P a

/-- On machines in tandem of which the first is of a kind the actions go together, and the answers come with a promise. -/
def Action.Parallel (S : Footing) (K : Machine χ σ → Prop) (x : Action χ σ α) (y : Action χ σ β) (ren : α → β) (P : α → Prop) :
    Prop :=
  ∀ m n, m.Tandem S n → K m → Action.Together S x y ren P m n

variable {S : Footing} {m n : Machine χ σ} {K : Machine χ σ → Prop} {t r : Ref}

/-! ## What is read -/

theorem Machine.registered_of_registryField {name : String} (h : m.registryField name = .ok (.table t)) : m.Registered name t := by
  unfold registryField rawField at h
  cases hR : m.heap.table m.registry with
  | error e =>
    rw [hR] at h
    cases h
  | ok R =>
    rw [hR] at h
    exact ⟨R, Heap.table_eq_ok_iff.1 hR, Except.ok.inj h⟩

namespace Machine.Tandem

theorem table (h : m.Tandem S n) (t : Ref) :
    (∃ T T', m.heap.table t = .ok T ∧ n.heap.table (S.rename t) = .ok T' ∧ T.Renames S.rename (fun f => ¬S.holes t f) T' ∧
      m.heap.object? t = some (.table T) ∧ n.heap.object? (S.rename t) = some (.table T')) ∨
    ∃ e, m.heap.table t = .error e ∧ n.heap.table (S.rename t) = .error e := by
  have ho := h.object t
  unfold Heap.table Heap.get
  revert ho
  generalize m.heap.object? t = x
  generalize n.heap.object? (S.rename t) = y
  intro ho
  cases ho with
  | none => exact Or.inr ⟨_, rfl, rfl⟩
  | some ho =>
    cases ho with
    | table hT => exact Or.inl ⟨_, _, rfl, rfl, hT, rfl, rfl⟩
    | userdata hu => exact Or.inr ⟨_, rfl, rfl⟩
    | function f => exact Or.inr ⟨_, rfl, rfl⟩

theorem userdata (h : m.Tandem S n) (r : Ref) :
    (∃ u u', m.heap.userdata r = .ok u ∧ n.heap.userdata (S.rename r) = .ok u' ∧ u.Renames S.rename (fun f => ¬S.holes r f) u' ∧
      m.heap.object? r = some (.userdata u) ∧ n.heap.object? (S.rename r) = some (.userdata u')) ∨
    ∃ e, m.heap.userdata r = .error e ∧ n.heap.userdata (S.rename r) = .error e := by
  have ho := h.object r
  unfold Heap.userdata Heap.get
  revert ho
  generalize m.heap.object? r = x
  generalize n.heap.object? (S.rename r) = y
  intro ho
  cases ho with
  | none => exact Or.inr ⟨_, rfl, rfl⟩
  | some ho =>
    cases ho with
    | table hT => exact Or.inr ⟨_, rfl, rfl⟩
    | userdata hu => exact Or.inl ⟨_, _, rfl, rfl, hu, rfl, rfl⟩
    | function f => exact Or.inr ⟨_, rfl, rfl⟩

theorem rawField (h : m.Tandem S n) {name : String} (hname : ¬S.holes t (.entry (.string name))) :
    n.rawField (S.rename t) name = (m.rawField t name).map (Value.rename S.rename) := by
  unfold Machine.rawField
  rcases h.table t with ⟨T, T', hT, hT', hrel, -⟩ | ⟨e, he, he'⟩
  · rw [hT, hT']
    exact congrArg Except.ok (hrel.field hname)
  · rw [he, he']
    rfl

theorem registryField (h : m.Tandem S n) {name : String} (hname : ¬S.holes S.registry (.entry (.string name))) :
    n.registryField name = (m.registryField name).map (Value.rename S.rename) := by
  unfold Machine.registryField
  rw [h.registry.1, h.registry.2]
  exact h.rawField hname

theorem rawGet (h : m.Tandem S n) {a : Address} (ha : ¬S.holes t (.entry (.address a))) :
    n.rawGet (S.rename t) (.address a) = (m.rawGet t (.address a)).map (Value.rename S.rename) := by
  unfold Machine.rawGet
  rcases h.table t with ⟨T, T', hT, hT', hrel, -⟩ | ⟨e, he, he'⟩
  · rw [hT, hT']
    exact congrArg Except.ok (hrel.entry _ ha)
  · rw [he, he']
    rfl

theorem classTable? (h : m.Tandem S n) {name : String} (hname : ∀ t, ¬S.holes t (.entry (.string name))) :
    n.classTable? name = (m.classTable? name).map S.rename := by
  unfold Machine.classTable? Registry.find?
  rw [h.registryField (hname _)]
  cases m.registryField name with
  | error e => rfl
  | ok v =>
    cases v with
    | table t =>
      dsimp only [Except.map, Value.rename, Value.table?]
      rw [h.rawField (hname t)]
      cases m.rawField t name with
      | error e => rfl
      | ok w =>
        cases w with
        | boolean b => cases b <;> rfl
        | _ => rfl
    | _ => rfl

theorem baseTables (h : m.Tandem S n) {bases : List String} (hbases : ∀ b ∈ bases, ∀ t, ¬S.holes t (.entry (.string b))) :
    n.baseTables bases = (m.baseTables bases).map (List.map S.rename) := by
  induction bases with
  | nil => rfl
  | cons b rest ih =>
    obtain ⟨hb, hrest⟩ := List.forall_mem_cons.1 hbases
    unfold Machine.baseTables
    rw [h.classTable? hb, ih hrest]
    cases m.classTable? b with
    | none => rfl
    | some t => cases m.baseTables rest <;> rfl

end Machine.Tandem

namespace Action

/-! ## Putting actions together -/

section

variable {ren : α → α'} {ren' : β → β'} {P P' : α → Prop} {Q : β → Prop} {x : Action χ σ α} {y : Action χ σ α'} {f : α → Action χ σ β}
  {g : α' → Action χ σ β'}

theorem parallel_still {x : Action χ σ α} {y : Action χ σ α'} (hx : ∀ m, (x m).2 = m) (hy : ∀ n, (y n).2 = n)
    (h : ∀ m n, m.Tandem S n → K m → (y n).1 = (x m).1.map ren ∧ ∀ a, (x m).1 = .ok a → P a) : Parallel S K x y ren P := by
  intro m n ht hk
  obtain ⟨hanswer, hpromise⟩ := h m n ht hk
  refine ⟨?_, Footing.leaves_of_heap_eq (by rw [hy]), ?_, ?_, hanswer, hpromise⟩
  · rw [hx, hy]
    exact ht
  · rw [hx]
  · rw [hy]

theorem parallel_pure {a : α} {b : α'} (hb : b = ren a) (ha : P a) :
    Parallel S K (pure a : Action χ σ α) (pure b : Action χ σ α') ren P := by
  refine parallel_still (fun _ => rfl) (fun _ => rfl) fun m n _ _ => ⟨congrArg Except.ok hb, fun a' ha' => ?_⟩
  cases ha'
  exact ha

theorem parallel_query {f : Machine χ σ → Except Fault α} {g : Machine χ σ → Except Fault α'}
    (h : ∀ m n, m.Tandem S n → K m → g n = (f m).map ren ∧ ∀ a, f m = .ok a → P a) : Parallel S K (query f) (query g) ren P :=
  parallel_still (fun _ => rfl) (fun _ => rfl) h

theorem Parallel.bind (hx : Parallel S K x y ren P) (hf : ∀ a, P a → Parallel S (fun _ => True) (f a) (g (ren a)) ren' Q) :
    Parallel S K (x >>= f) (y >>= g) ren' Q := by
  intro m n ht hk
  have h := hx m n ht hk
  obtain ⟨ht', hl, hleft, hright, hanswer, hpromise⟩ := h
  cases hxm : x m with
  | mk a m' =>
    cases hyn : y n with
    | mk b n' =>
      rw [hxm, hyn] at ht' hanswer
      rw [hyn] at hl hright
      rw [hxm] at hleft hpromise
      cases a with
      | error e =>
        cases hanswer
        refine ⟨?_, ?_, ?_, ?_, ?_, ?_⟩ <;> simp only [bind_of_error hxm, bind_of_error hyn]
        · exact ht'
        · exact hl
        · exact hleft
        · exact hright
        · rfl
        · exact fun _ h => nomatch h
      | ok a =>
        cases hanswer
        obtain ⟨ht'', hl', hleft', hright', hanswer', hpromise'⟩ := hf a (hpromise a rfl) m' n' ht' trivial
        refine ⟨?_, ?_, ?_, ?_, ?_, ?_⟩ <;> simp only [bind_of_ok hxm, bind_of_ok hyn]
        · exact ht''
        · exact hl.trans hl'
        · simp only at hleft
          rw [hleft', hleft]
        · simp only at hright
          rw [hright', hright]
        · exact hanswer'
        · exact hpromise'

end

/-! ## Objects -/

/-- A new object and the same object renamed; all of it may be written. -/
theorem parallel_allocate {o o' : Object χ} (ho : o.Renames S.rename (fun _ => True) o') (hu : ∀ T, o = .table T → T.Unique)
    (hu' : ∀ T, o' = .table T → T.Unique) :
    Parallel S K (allocate o : Action χ σ Ref) (allocate o') S.rename (fun r => ∀ f, S.writes r f) := by
  intro m n h _
  have hfst := m.heap.allocate_fst o
  have hfst' : (n.heap.allocate o').1 = S.rename (m.heap.allocate o).1 := by rw [Heap.allocate_fst, h.due, hfst]
  have htandem : ({ m with heap := (m.heap.allocate o).2 } : Machine χ σ).Tandem S { n with heap := (n.heap.allocate o').2 } := by
    refine ⟨h.left.allocate hu, h.right.allocate hu', h.registry, h.globals, fun k => ?_, fun k f => ?_, fun r => ?_⟩
    · rw [Heap.due_allocate, Heap.due_allocate, h.due]
    · rw [Heap.due_allocate]
      exact h.new (k + 1) f
    · rw [h.left.object?_allocate, h.right.object?_allocate, hfst']
      by_cases hr : r = (m.heap.allocate o).1
      · rw [if_pos hr, if_pos (congrArg S.rename hr)]
        exact .some (ho.weaken fun _ _ => trivial)
      · rw [if_neg hr, if_neg fun e => hr (S.injective e)]
        exact h.object r
  refine ⟨htandem, fun s hs => ?_, rfl, rfl, congrArg Except.ok hfst', fun a ha f => ?_⟩
  · have hne : s ≠ (n.heap.allocate o').1 := by
      rintro rfl
      obtain ⟨f, hf⟩ := hs
      rw [hfst', Footing.written_rename_iff, hfst] at hf
      exact hf (h.new 0 f).1
    show Option.Rel _ _ ((n.heap.allocate o').2.object? s)
    rw [h.right.object?_allocate, if_neg hne]
    exact Footing.leaves_of_heap_eq rfl s hs
  · have hr : (m.heap.allocate o).1 = a := Except.ok.inj ha
    rw [← hr, hfst]
    exact (h.new 0 f).1

/-- An object and its renaming become others, which correspond; what may not be written is as it was. -/
theorem together_put {o p o' p' : Object χ} (h : m.Tandem S n) (ho : m.heap.object? t = some o)
    (ho' : n.heap.object? (S.rename t) = some o') (hp : p.Renames S.rename (fun f => ¬S.holes t f) p')
    (hu : ∀ T, p = .table T → T.Unique) (hu' : ∀ T, p' = .table T → T.Unique)
    (hleaves : o'.Renames id (fun f => ¬S.writes t f) p') :
    ({ m with heap := m.heap.put t.slot p } : Machine χ σ).Tandem S { n with heap := n.heap.put (S.rename t).slot p' } ∧
      S.Leaves n { n with heap := n.heap.put (S.rename t).slot p' } := by
  have hc := Heap.contains_of_object? ho
  have hc' := Heap.contains_of_object? ho'
  refine ⟨⟨h.left.put hc hu, h.right.put hc' hu', h.registry, h.globals, fun k => ?_, fun k f => ?_, fun r => ?_⟩, fun s hs => ?_⟩
  · rw [Heap.due_put, Heap.due_put, h.due]
  · rw [Heap.due_put]
    exact h.new k f
  · rw [Heap.object?_put hc, Heap.object?_put hc']
    by_cases hr : r = t
    · rw [if_pos hr, if_pos (congrArg S.rename hr), hr]
      exact .some hp
    · rw [if_neg hr, if_neg fun e => hr (S.injective e)]
      exact h.object r
  · show Option.Rel _ _ ((n.heap.put (S.rename t).slot p').object? s)
    rw [Heap.object?_put hc']
    by_cases hst : s = S.rename t
    · rw [if_pos hst, hst, ho']
      refine .some (hleaves.weaken fun f hf => ?_)
      rwa [Footing.written_rename_iff] at hf
    · rw [if_neg hst]
      exact Footing.leaves_of_heap_eq rfl s hs

/-- Two changes of the heap that both succeed and lead to machines in tandem, or both fail with one fault. -/
theorem parallel_onHeap {f f' : Heap χ → Except Fault (Heap χ)}
    (h : ∀ m n : Machine χ σ, m.Tandem S n → (∃ h h', f m.heap = .ok h ∧ f' n.heap = .ok h' ∧
      ({ m with heap := h } : Machine χ σ).Tandem S { n with heap := h' } ∧ S.Leaves n { n with heap := h' }) ∨
      ∃ e, f m.heap = .error e ∧ f' n.heap = .error e) :
    Parallel S K (onHeap f : Action χ σ Unit) (onHeap f') id (fun _ => True) := by
  intro m n ht _
  rcases h m n ht with ⟨h, h', hf, hf', htandem, hl⟩ | ⟨e, hf, hf'⟩
  · have hx : onHeap f m = (.ok (), { m with heap := h }) := onHeap_of_ok hf
    have hy : onHeap f' n = (.ok (), { n with heap := h' }) := onHeap_of_ok hf'
    refine ⟨?_, ?_, ?_, ?_, ?_, fun _ _ => trivial⟩ <;> simp only [hx, hy]
    · exact htandem
    · exact hl
    · rfl
  · have hx : onHeap f m = (.error e, m) := by simp only [onHeap, hf]
    have hy : onHeap f' n = (.error e, n) := by simp only [onHeap, hf']
    refine ⟨?_, ?_, ?_, ?_, ?_, fun _ _ => trivial⟩ <;> simp only [hx, hy]
    · exact ht
    · exact Footing.leaves_of_heap_eq rfl
    · rfl

theorem parallel_changeTable (t : Ref) {f f' : Table → Table}
    (hf : ∀ T T' : Table, T.Renames S.rename (fun g => ¬S.holes t g) T' → (f T).Renames S.rename (fun g => ¬S.holes t g) (f' T'))
    (hu : ∀ T, T.Unique → (f T).Unique) (hu' : ∀ T, T.Unique → (f' T).Unique)
    (hleaves : ∀ T : Table, T.Renames id (fun g => ¬S.writes t g) (f' T)) :
    Parallel S K (onHeap (fun h => h.changeTable t f) : Action χ σ Unit)
      (onHeap (fun h => h.changeTable (S.rename t) f')) id (fun _ => True) := by
  refine parallel_onHeap fun m n h => ?_
  rcases h.table t with ⟨T, T', hT, hT', hrel, hm, hn⟩ | ⟨e, he, he'⟩
  · refine Or.inl ⟨_, _, Heap.changeTable_eq_ok_iff.2 ⟨T, hm, rfl⟩, Heap.changeTable_eq_ok_iff.2 ⟨T', hn, rfl⟩, ?_⟩
    exact together_put h hm hn (.table (hf T T' hrel)) (fun _ e => Object.table.inj e ▸ hu T (h.left.unique _ _ hm))
      (fun _ e => Object.table.inj e ▸ hu' T' (h.right.unique _ _ hn)) (.table (hleaves T'))
  · exact Or.inr ⟨e, by rw [Heap.changeTable, he], by rw [Heap.changeTable, he']⟩

theorem parallel_changeUserdata (r : Ref) {f f' : Userdata → Userdata}
    (hf : ∀ u u' : Userdata, u.Renames S.rename (fun g => ¬S.holes r g) u' →
      (f u).Renames S.rename (fun g => ¬S.holes r g) (f' u'))
    (hleaves : ∀ u : Userdata, u.Renames id (fun g => ¬S.writes r g) (f' u)) :
    Parallel S K (onHeap (fun h => h.changeUserdata r f) : Action χ σ Unit)
      (onHeap (fun h => h.changeUserdata (S.rename r) f')) id (fun _ => True) := by
  refine parallel_onHeap fun m n h => ?_
  rcases h.userdata r with ⟨u, u', hu, hu', hrel, hm, hn⟩ | ⟨e, he, he'⟩
  · refine Or.inl ⟨_, _, Heap.changeUserdata_eq_ok_iff.2 ⟨u, hm, rfl⟩, Heap.changeUserdata_eq_ok_iff.2 ⟨u', hn, rfl⟩, ?_⟩
    exact together_put h hm hn (.userdata (hf u u' hrel)) (fun _ e => nomatch e) (fun _ e => nomatch e) (.userdata (hleaves u'))
  · exact Or.inr ⟨e, by rw [Heap.changeUserdata, he], by rw [Heap.changeUserdata, he']⟩

/-! ## Raw access -/

/-- What actions come to on machines depends on what they come to there. -/
theorem Together.congr {ren : α → α'} {P : α → Prop} {x x' : Action χ σ α} {y y' : Action χ σ α'} (h : Together S x y ren P m n)
    (hx : x' m = x m) (hy : y' n = y n) : Together S x' y' ren P m n := by
  obtain ⟨htandem, hl, hleft, hright, hanswer, hpromise⟩ := h
  rw [← hx] at htandem hleft hanswer hpromise
  rw [← hy] at htandem hl hright hanswer
  exact ⟨htandem, hl, hleft, hright, hanswer, hpromise⟩

theorem parallel_newTable :
    Parallel S K (newTable : Action χ σ Ref) newTable S.rename (fun t => ∀ f, S.writes t f) := by
  have hunique : ∀ T, (Object.table Table.empty : Object χ) = .table T → T.Unique :=
    fun _ e => Object.table.inj e ▸ Table.unique_empty
  exact parallel_allocate (.table ⟨fun _ _ => rfl, fun _ h => absurd rfl h, fun _ => rfl⟩) hunique hunique

theorem parallel_newUserdata (p : Payload) :
    Parallel S K (newUserdata p : Action χ σ Ref) (newUserdata p) S.rename (fun t => ∀ f, S.writes t f) :=
  parallel_allocate (.userdata ⟨rfl, rfl, fun _ => rfl, fun _ => rfl⟩) (fun _ e => nomatch e) fun _ e => nomatch e

theorem parallel_newFunction (name : String) (code : Code χ) (upvalues : List Value) :
    Parallel S K (newFunction name code upvalues : Action χ σ Ref) (newFunction name code (upvalues.map (Value.rename S.rename)))
      S.rename (fun t => ∀ f, S.writes t f) :=
  parallel_allocate (.function ⟨name, code, upvalues⟩) (fun _ e => nomatch e) fun _ e => nomatch e

/-- Putting a value under a key without a reference. -/
theorem parallel_store (t : Ref) {k : Key} (v : Value) (hk : k.ref? = none) (hw : S.writes t (.entry k)) :
    Parallel S K (onHeap (fun h => h.changeTable t (fun T => T.set k v)) : Action χ σ Unit)
      (onHeap (fun h => h.changeTable (S.rename t) (fun T => T.set k (v.rename S.rename)))) id (fun _ => True) :=
  parallel_changeTable t (fun _ _ h => h.set S.injective hk v) (fun _ hT => hT.set k _) (fun _ hT => hT.set k _)
    fun T => T.renames_set _ (not_not_intro hw)

theorem parallel_setField (t : Ref) (name : String) (v : Value) (hw : S.writes t (.entry (.string name))) :
    Parallel S K (setField t name v : Action χ σ Unit) (setField (S.rename t) name (v.rename S.rename)) id (fun _ => True) :=
  parallel_store t v rfl hw

theorem parallel_setAddress (t : Ref) (a : Address) (v : Value) (hw : S.writes t (.entry (.address a))) :
    Parallel S K (rawSet t (.address a) v : Action χ σ Unit) (rawSet (S.rename t) (.address a) (v.rename S.rename)) id
      (fun _ => True) :=
  parallel_store t v rfl hw

theorem parallel_setRegistry (name : String) (v : Value) (hw : S.writes S.registry (.entry (.string name))) :
    Parallel S K (setRegistry name v : Action χ σ Unit) (setRegistry name (v.rename S.rename)) id (fun _ => True) := by
  intro m n h hk
  refine (parallel_setField S.registry name v hw m n h hk).congr ?_ ?_
  · rw [setRegistry, bind_of_ok (look_eq m), h.registry.1]
  · rw [setRegistry, bind_of_ok (look_eq n), h.registry.2]

theorem parallel_setGlobal (name : String) (v : Value) (hw : S.writes S.globals (.entry (.string name))) :
    Parallel S K (setGlobal name v : Action χ σ Unit) (setGlobal name (v.rename S.rename)) id (fun _ => True) := by
  intro m n h hk
  refine (parallel_setField S.globals name v hw m n h hk).congr ?_ ?_
  · rw [setGlobal, bind_of_ok (look_eq m), h.globals.1]
  · rw [setGlobal, bind_of_ok (look_eq n), h.globals.2]

theorem parallel_requireTable (t : Ref) :
    Parallel S K (requireTable (some t) : Action χ σ Unit) (requireTable (some (S.rename t))) id (fun _ => True) := by
  refine parallel_still (requireTable_still _) (requireTable_still _) fun m n h _ => ⟨?_, fun _ _ => trivial⟩
  show (Action.bind (query fun n => n.heap.table (S.rename t)) (fun _ => pure ()) n).1 =
    Except.map id (Action.bind (query fun m => m.heap.table t) (fun _ => pure ()) m).1
  rw [query_bind, query_bind]
  rcases h.table t with ⟨T, T', hT, hT', -⟩ | ⟨e, he, he'⟩
  · rw [hT, hT']
    rfl
  · rw [he, he']
    rfl

theorem parallel_setMetatable_table (t mt : Ref) (hw : S.writes t .metatable) :
    Parallel S K (setMetatable (.table t) (some mt) : Action χ σ Unit) (setMetatable (.table (S.rename t)) (some (S.rename mt))) id
      (fun _ => True) := by
  refine (parallel_requireTable mt).bind fun _ _ =>
    parallel_changeTable t (fun T T' h => ?_) (fun _ hT => hT) (fun _ hT => hT) fun T => ?_
  · exact ⟨h.entry, h.onto, fun _ => rfl⟩
  · exact ⟨fun k _ => by rw [Key.rename_id, Value.rename_id]; rfl, fun k _ => ⟨k, k.rename_id.symm⟩, fun h => absurd hw h⟩

theorem parallel_setMetatable_userdata (r mt : Ref) (hw : S.writes r .classOf) :
    Parallel S K (setMetatable (.userdata r) (some mt) : Action χ σ Unit)
      (setMetatable (.userdata (S.rename r)) (some (S.rename mt))) id (fun _ => True) := by
  refine (parallel_requireTable mt).bind fun _ _ => parallel_changeUserdata r (fun u u' h => ?_) fun u => ?_
  · exact ⟨h.payload, h.finalized, fun _ => rfl, h.environment⟩
  · exact ⟨rfl, rfl, fun h => absurd hw h, fun _ => by simp⟩

theorem parallel_setEnvironment (r env : Ref) (hw : S.writes r .environment) :
    Parallel S K (setEnvironment r (some env) : Action χ σ Unit) (setEnvironment (S.rename r) (some (S.rename env))) id
      (fun _ => True) := by
  refine (parallel_requireTable env).bind fun _ _ => parallel_changeUserdata r (fun u u' h => ?_) fun u => ?_
  · exact ⟨h.payload, h.finalized, h.metatable, fun _ => rfl⟩
  · exact ⟨rfl, rfl, fun _ => by simp, fun h => absurd hw h⟩

/-! ## Tables in the registry -/

theorem parallel_registryField (name : String) (hname : ¬S.holes S.registry (.entry (.string name))) {P : Value → Prop}
    (hK : ∀ m, K m → ∀ v, m.registryField name = .ok v → P v) :
    Parallel S K (query fun m => m.registryField name) (query fun m => m.registryField name) (Value.rename S.rename) P :=
  parallel_query fun m _ h hk => ⟨h.registryField hname, hK m hk⟩

/-- The metatable of a name, found or made. Where tables that may be written all over are of a kind, and those registered under the
name, it is of the kind. -/
theorem parallel_metatableNamed (name : String) (hname : ¬S.holes S.registry (.entry (.string name)))
    (hw : S.writes S.registry (.entry (.string name))) {Q : Ref → Prop} (hnew : ∀ t, (∀ f, S.writes t f) → Q t)
    (hK : ∀ m, K m → ∀ t, m.Registered name t → Q t) :
    Parallel S K (metatableNamed name : Action χ σ (Ref × Bool)) (metatableNamed name) (Prod.map S.rename id)
      (fun found => Q found.1) := by
  have hfield : ∀ m, K m → ∀ v, m.registryField name = .ok v → ∀ t, v = .table t → Q t := fun m hk v hv t e =>
    hK m hk t (Machine.registered_of_registryField (e ▸ hv))
  refine (parallel_registryField name hname hfield).bind fun v hv => ?_
  have hmake : Parallel S (fun _ : Machine χ σ => True)
      (do let mt ← newTable
          setField mt "__name" (.string name)
          setRegistry name (.table mt)
          return (mt, true))
      (do let mt ← newTable
          setField mt "__name" (.string name)
          setRegistry name (.table mt)
          return (mt, true)) (Prod.map S.rename id) (fun found => Q found.1) := by
    refine parallel_newTable.bind fun mt hmt => (parallel_setField mt "__name" (.string name) (hmt _)).bind fun _ _ => ?_
    exact (parallel_setRegistry name (.table mt) hw).bind fun _ _ => parallel_pure rfl (hnew mt hmt)
  cases v with
  | table t => exact parallel_pure rfl (hv t rfl)
  | _ => exact hmake

/-- The pointer table, found or made. -/
theorem parallel_pointers (hname : ¬S.holes S.registry (.entry (.string Registry.pointers)))
    (hK : ∀ m, K m → (∀ t, ¬m.Registered Registry.pointers t) → S.writes S.registry (.entry (.string Registry.pointers))) :
    Parallel S K (Registry.table Registry.pointers (some "v") : Action χ σ Ref) (Registry.table Registry.pointers (some "v")) S.rename
      (fun _ => True) := by
  have hfield : ∀ m, K m → ∀ v, m.registryField Registry.pointers = .ok v → (∀ t, v ≠ .table t) →
      S.writes S.registry (.entry (.string Registry.pointers)) := by
    intro m hk v hv hne
    refine hK m hk fun t ⟨R, hR, ht⟩ => hne t ?_
    rw [Machine.registryField_of_table hR, Except.ok.injEq] at hv
    exact hv.symm.trans ht
  have hweak : Parallel S (fun _ : Machine χ σ => True) (Registry.newWeakTable "v" : Action χ σ Ref) (Registry.newWeakTable "v")
      S.rename (fun _ => True) := by
    refine parallel_newTable.bind fun t ht => parallel_newTable.bind fun mt hmt => ?_
    refine (parallel_setField mt Registry.modeName (.string "v") (hmt _)).bind fun _ _ => ?_
    exact (parallel_setMetatable_table t mt (ht _)).bind fun _ _ => parallel_pure rfl trivial
  have hmake : S.writes S.registry (.entry (.string Registry.pointers)) → Parallel S (fun _ : Machine χ σ => True)
      (do let t ← Registry.newWeakTable "v"
          setRegistry Registry.pointers (.table t)
          return t)
      (do let t ← Registry.newWeakTable "v"
          setRegistry Registry.pointers (.table t)
          return t) S.rename (fun _ => True) := fun hw =>
    hweak.bind fun t _ => (parallel_setRegistry Registry.pointers (.table t) hw).bind fun _ _ => parallel_pure rfl trivial
  refine (parallel_registryField Registry.pointers hname hfield).bind fun v hv => ?_
  cases v with
  | table t => exact parallel_pure rfl trivial
  | _ => exact hmake (hv (by simp))

/-- The handle of an address, found or made. -/
theorem parallel_ensureHandle (a : Address) (hname : ¬S.holes S.registry (.entry (.string Registry.pointers)))
    (ha : ∀ t, ¬S.holes t (.entry (.address a))) (hw : ∀ t, S.writes t (.entry (.address a)))
    (hK : ∀ m, K m → (∀ t, ¬m.Registered Registry.pointers t) → S.writes S.registry (.entry (.string Registry.pointers))) :
    Parallel S K (ensureHandle a : Action χ σ Ref) (ensureHandle a) S.rename (fun _ => True) := by
  refine (parallel_pointers hname hK).bind fun pointers _ => ?_
  have hlisted : Parallel S (fun _ : Machine χ σ => True) (query fun m => m.rawGet pointers (.address a))
      (query fun m => m.rawGet (S.rename pointers) (.address a)) (Value.rename S.rename) (fun _ => True) :=
    parallel_query fun m n h _ => ⟨h.rawGet (ha _), fun _ _ => trivial⟩
  refine hlisted.bind fun v _ => ?_
  have hmake : Parallel S (fun _ : Machine χ σ => True)
      (do let handle ← newUserdata (.handle a)
          let shadow ← newTable
          setEnvironment handle (some shadow)
          rawSet pointers (.address a) (.userdata handle)
          return handle)
      (do let handle ← newUserdata (.handle a)
          let shadow ← newTable
          setEnvironment handle (some shadow)
          rawSet (S.rename pointers) (.address a) (.userdata handle)
          return handle) S.rename (fun _ => True) := by
    refine (parallel_newUserdata _).bind fun handle hhandle => parallel_newTable.bind fun shadow _ => ?_
    refine (parallel_setEnvironment handle shadow (hhandle _)).bind fun _ _ => ?_
    exact (parallel_setAddress pointers a (.userdata handle) (hw _)).bind fun _ _ => parallel_pure rfl trivial
  cases v with
  | userdata r => exact parallel_pure rfl trivial
  | _ => exact hmake

/-! ## Classes -/

theorem parallel_installMethods (cls : Ref) (name : String) (hcls : S.Fills cls) (methods : List (String × χ)) :
    Parallel S K (ClassDescriptor.installMethods cls name methods : Action χ σ _)
      (ClassDescriptor.installMethods (S.rename cls) name methods) (List.map (Prod.map id S.rename)) (fun _ => True) := by
  induction methods generalizing K with
  | nil => exact parallel_pure rfl trivial
  | cons e rest ih =>
    refine (parallel_newFunction _ _ []).bind fun f _ => (parallel_setField cls e.1 (.function f) (hcls.1 _)).bind fun _ _ => ?_
    exact ih.bind fun fs _ => parallel_pure rfl trivial

theorem parallel_publish (t : Ref) (ht : ∀ f, S.writes t f) (methods : List (String × Ref)) :
    Parallel S K (ClassDescriptor.publish t methods : Action χ σ Unit)
      (ClassDescriptor.publish (S.rename t) (methods.map (Prod.map id S.rename))) id (fun _ => True) := by
  induction methods generalizing K with
  | nil => exact parallel_pure rfl trivial
  | cons e rest ih => exact (parallel_setField t e.1 (.function e.2) (ht _)).bind fun _ _ => ih

theorem parallel_baseTables (name : String) {bases : List String} (hbases : ∀ b ∈ bases, ∀ t, ¬S.holes t (.entry (.string b))) :
    Parallel S K (query fun m : Machine χ σ => (m.baseTables bases).mapError (Fault.configuration name))
      (query fun m => (m.baseTables bases).mapError (Fault.configuration name)) (List.map S.rename) (fun _ => True) := by
  refine parallel_query fun m n h _ => ⟨?_, fun _ _ => trivial⟩
  rw [h.baseTables hbases]
  cases m.baseTables bases <;> rfl

theorem parallel_newReader (name : String) (cls : Ref) (bases : List Ref) :
    Parallel S K (Attribute.newReader name cls bases : Action χ σ Ref) (Attribute.newReader name (S.rename cls) (bases.map S.rename))
      S.rename (fun t => ∀ f, S.writes t f) := by
  have hmap : (S.rename cls :: bases.map S.rename).map Value.table =
      ((cls :: bases).map Value.table).map (Value.rename S.rename) := by
    simp [Value.rename]
  unfold Attribute.newReader
  rw [hmap]
  exact parallel_newFunction _ _ _

/-- Installing a class of which the names that it looks up have no holes, and which may write its own name, its namespace, and the
table registered under its name. -/
theorem parallel_install (d : ClassDescriptor χ) (hname : ¬S.holes S.registry (.entry (.string d.name)))
    (hbases : ∀ b ∈ d.bases, ∀ t, ¬S.holes t (.entry (.string b))) (hw : S.writes S.registry (.entry (.string d.name)))
    (hspace : S.writes S.globals (.entry (.string (ClassDescriptor.namespaceName d.name))))
    (hK : ∀ m, K m → ∀ t, m.Registered d.name t → S.Fills t) :
    Parallel S K (d.install : Action χ σ Unit) d.install id (fun _ => True) := by
  have hnew : ∀ t, (∀ f, S.writes t f) → S.Fills t := fun t ht => ⟨fun _ => ht _, ht _⟩
  refine (parallel_metatableNamed d.name hname hw hnew hK).bind fun found hcls => ?_
  refine (parallel_installMethods found.1 d.name hcls d.methods.entries).bind fun methods _ => ?_
  refine (parallel_setField found.1 d.name (.boolean true) (hcls.1 _)).bind fun _ _ => ?_
  refine (parallel_baseTables d.name hbases).bind fun bases _ => ?_
  refine (parallel_newReader d.name found.1 bases).bind fun reader _ => ?_
  refine (parallel_newFunction (d.name ++ "." ++ Registry.writeName) .writeAttribute []).bind fun writer _ => ?_
  refine (parallel_newFunction (d.name ++ "." ++ Registry.finalizeName) .finalizeHandle []).bind fun finalizer _ => ?_
  refine (parallel_setField found.1 Registry.readName (.function reader) (hcls.1 _)).bind fun _ _ => ?_
  refine (parallel_setField found.1 Registry.writeName (.function writer) (hcls.1 _)).bind fun _ _ => ?_
  refine (parallel_setField found.1 Registry.finalizeName (.function finalizer) (hcls.1 _)).bind fun _ _ => ?_
  refine (parallel_setMetatable_table found.1 found.1 hcls.2).bind fun _ _ => parallel_newTable.bind fun space hspaces => ?_
  exact (parallel_publish space hspaces methods).bind fun _ _ => parallel_setGlobal _ (.table space) hspace

end Action

end ScriptHost

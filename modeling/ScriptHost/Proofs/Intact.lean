import ScriptHost.Proofs.Writes

/-!
# References that find something

A machine is intact when every reference it holds finds an object: those on the stack, in the pins, on the queue and of the two
tables that are always there, and those that any object on the heap mentions, whether it keeps them alive or not
(`Machine.Intact`). Entering and leaving a call keeps that, if the call is handed live references, and the sweep of a collection
keeps it, because what survives mentions nothing but what survives (`Machine.Sound.swept`).
-/

namespace ScriptHost

variable {χ σ α β : Type}

/-! ## What is mentioned -/

/-- The references a value carries. -/
def Value.refs (v : Value) : List Ref := v.ref?.toList

/-- The references a table mentions: its metatable, its keys and its values. -/
def Table.refs (t : Table) : List Ref :=
  t.metatable.toList ++ t.entries.flatMap (fun e => e.1.ref?.toList ++ e.2.refs)

/-- The references an object mentions, whether it keeps them alive or not. -/
def Object.refs : Object χ → List Ref
  | .table t => t.refs
  | .userdata u => u.metatable.toList ++ u.environment.toList
  | .function f => f.upvalues.flatMap Value.refs

theorem Table.mem_refs_iff {t : Table} {r : Ref} :
    r ∈ t.refs ↔ t.metatable = some r ∨ ∃ k v, (k, v) ∈ t.entries ∧ (k.ref? = some r ∨ v.ref? = some r) := by
  simp [Table.refs, Value.refs]

/-- What is read under a key is mentioned. -/
theorem Table.refs_get_subset (t : Table) (k : Key) : ∀ r ∈ (t.get k).refs, r ∈ t.refs := by
  intro r hr
  cases hv : t.get k with
  | nil => simp [hv, Value.refs, Value.ref?] at hr
  | _ =>
    have hfind := Table.find?_of_get hv (by simp)
    refine Table.mem_refs_iff.2 (Or.inr ⟨k, _, Table.mem_of_find? hfind, Or.inr ?_⟩)
    simpa [Value.refs, hv] using hr

/-- Setting an entry mentions the key and the value, and nothing else that was not mentioned before. -/
theorem Table.refs_set_subset (t : Table) (k : Key) (v : Value) :
    ∀ r ∈ (t.set k v).refs, r ∈ t.refs ∨ k.ref? = some r ∨ r ∈ v.refs := by
  intro r hr
  rcases Table.mem_refs_iff.1 hr with hmt | ⟨k', v', he, hkv⟩
  · exact Or.inl (Table.mem_refs_iff.2 (Or.inl (by simpa using hmt)))
  · unfold Table.set at he
    have hold : (k', v') ∈ (t.erase k).entries → r ∈ t.refs := fun he =>
      Table.mem_refs_iff.2 (Or.inr ⟨k', v', (List.mem_filter.1 he).1, hkv⟩)
    split at he
    · exact Or.inl (hold he)
    · rcases List.mem_cons.1 he with h | h
      · cases h
        exact Or.inr (by simpa [Value.refs] using hkv)
      · exact Or.inl (hold h)

theorem Table.refs_erase_subset (t : Table) (k : Key) : ∀ r ∈ (t.erase k).refs, r ∈ t.refs := by
  intro r hr
  rcases Table.mem_refs_iff.1 hr with hmt | ⟨k', v', he, hkv⟩
  · exact Table.mem_refs_iff.2 (Or.inl hmt)
  · exact Table.mem_refs_iff.2 (Or.inr ⟨k', v', (List.mem_filter.1 he).1, hkv⟩)

/-- The key of a value carries the reference of the value. -/
theorem Key.ref?_ofValue {v : Value} {k : Key} (h : Key.ofValue v = .ok k) : k.ref? = v.ref? := by
  cases v with
  | number x =>
    simp only [Key.ofValue] at h
    split at h
    · cases h
    · split at h <;> cases h <;> rfl
  | nil => cases h
  | _ => cases h; rfl

/-- An argument of a call is one of its arguments, or nil. -/
theorem Call.refs_arg_subset (c : Call) (place : Nat) : (c.arg place).refs ⊆ c.args.flatMap Value.refs := by
  cases place with
  | zero => exact List.nil_subset _
  | succ n =>
    cases h : c.args[n]? with
    | none => simp [Call.arg, h, Value.refs, Value.ref?]
    | some v =>
      simp only [Call.arg, h, Option.getD_some]
      exact fun r hr => List.mem_flatMap.2 ⟨v, List.mem_of_getElem? h, hr⟩

/-! ## Intact machines -/

namespace Machine

/-- The references find an object. -/
def Live (m : Machine χ σ) (refs : List Ref) : Prop := ∀ r ∈ refs, m.heap.contains r = true

/-- The references the machine holds are of a kind, and so are those its objects mention. -/
structure HoldsOnly (G : Ref → Prop) (m : Machine χ σ) : Prop where
  roots : ∀ r, m.IsRoot r → G r
  objects : ∀ r o, m.heap.object? r = some o → ∀ s ∈ o.refs, G s

/-- Every reference the machine holds finds an object, and so does every reference an object mentions. -/
structure Intact (m : Machine χ σ) : Prop where
  roots : ∀ r, m.IsRoot r → m.heap.contains r = true
  objects : ∀ r o, m.heap.object? r = some o → m.Live o.refs

variable {m m' : Machine χ σ} {G G' : Ref → Prop}

@[simp] theorem live_append {l l' : List Ref} : m.Live (l ++ l') ↔ m.Live l ∧ m.Live l' := by
  simp only [Live, List.mem_append, or_imp, forall_and]

@[simp] theorem live_cons {r : Ref} {l : List Ref} : m.Live (r :: l) ↔ m.heap.contains r = true ∧ m.Live l := by
  simp [Live]

@[simp] theorem live_nil : m.Live [] := fun _ h => nomatch h

theorem HoldsOnly.mono (hm : m.HoldsOnly G) (hG : ∀ r, G r → G' r) : m.HoldsOnly G' :=
  ⟨fun r hr => hG r (hm.roots r hr), fun r o ho s hs => hG s (hm.objects r o ho s hs)⟩

/-- What a table has under a key is of the kind. -/
theorem HoldsOnly.get (hm : m.HoldsOnly G) {t : Ref} {T : Table} (hT : m.heap.object? t = some (.table T)) (k : Key) :
    ∀ r ∈ (T.get k).refs, G r :=
  fun r hr => hm.objects t _ hT r (T.refs_get_subset k r hr)

theorem HoldsOnly.rawField (hm : m.HoldsOnly G) {t : Ref} {name : String} {v : Value} (h : m.rawField t name = .ok v) :
    ∀ r ∈ v.refs, G r := by
  unfold Machine.rawField at h
  cases hT : m.heap.table t with
  | error e => simp [hT] at h
  | ok T =>
    simp only [hT, Except.ok.injEq] at h
    exact h ▸ hm.get (Heap.table_eq_ok_iff.1 hT) _

theorem HoldsOnly.rawGet (hm : m.HoldsOnly G) {t : Ref} {k v : Value} (h : m.rawGet t k = .ok v) : ∀ r ∈ v.refs, G r := by
  unfold Machine.rawGet at h
  cases hT : m.heap.table t with
  | error e => simp [hT] at h
  | ok T =>
    simp only [hT] at h
    cases hk : Key.ofValue k with
    | error e =>
      simp only [hk, Except.ok.injEq] at h
      subst h
      exact fun r hr => by cases hr
    | ok key =>
      simp only [hk, Except.ok.injEq] at h
      exact h ▸ hm.get (Heap.table_eq_ok_iff.1 hT) _

/-- The table of an installed class is of the kind. -/
theorem HoldsOnly.classTable? (hm : m.HoldsOnly G) {name : String} {t : Ref} (h : m.classTable? name = some t) : G t := by
  unfold Machine.classTable? Registry.find? at h
  cases hv : m.registryField name with
  | error e => simp [hv] at h
  | ok v =>
    have hall := hm.rawField hv
    cases v with
    | table t' =>
      simp only [hv, Value.table?] at h
      split at h
      · cases h
        exact hall t (by simp [Value.refs, Value.ref?])
      · cases h
    | _ => simp [hv, Value.table?] at h

/-- What a machine holds is a matter of its heap and its roots. -/
theorem HoldsOnly.of_roots (hm : m.HoldsOnly G) (hheap : m'.heap = m.heap) (hroots : ∀ r, m'.IsRoot r → m.IsRoot r ∨ G r) :
    m'.HoldsOnly G :=
  ⟨fun r hr => (hroots r hr).elim (hm.roots r) id, fun r o ho => hm.objects r o (hheap ▸ ho)⟩

theorem Intact.holdsOnly (hm : m.Intact) : m.HoldsOnly (fun r => m.heap.contains r = true) := ⟨hm.roots, hm.objects⟩

/-- An intact machine with a well-formed heap. -/
structure Sound (m : Machine χ σ) : Prop where
  wellFormed : m.heap.WellFormed
  intact : m.Intact

/-- A machine with the same heap that holds only live references is sound. -/
theorem Sound.of_holdsOnly (hm : m.Sound) (hheap : m'.heap = m.heap)
    (h : m'.HoldsOnly (fun r => m.heap.contains r = true)) : m'.Sound := by
  refine ⟨hheap ▸ hm.wellFormed, fun r hr => ?_, fun r o ho s hs => ?_⟩
  · rw [hheap]
    exact h.roots r hr
  · rw [hheap]
    exact h.objects r o ho s hs

end Machine

/-! ## New machines, calls and collections -/

/-- What is left of a stack that was cut was on it. -/
theorem mem_of_mem_take {s : Array Value} {height : Nat} {v : Value} (h : v ∈ s.take height) : v ∈ s := by
  rw [← Array.mem_toList_iff, Array.take_eq_extract, Array.toList_extract, List.extract_eq_take_drop] at h
  exact Array.mem_toList_iff.1 (List.mem_of_mem_take h)

namespace Machine

variable {m : Machine χ σ} {G : Ref → Prop}

theorem sound_start (limits : Limits) (host : σ) : (start limits host : Machine χ σ).Sound := by
  refine ⟨wellFormed_start limits host, fun r hr => ?_, fun r o ho => ?_⟩
  · rcases hr with rfl | rfl | ⟨v, hv, -⟩ | ⟨p, v, hp, -⟩ | h
    · rfl
    · rfl
    · exact absurd hv (Array.not_mem_empty v)
    · cases hp
    · cases h
  · rw [eq_empty_of_start ho]
    exact live_nil

/-- A call puts its function and its arguments on the stack. -/
theorem isRoot_enter_iff {f : Value} {args : List Value} {r : Ref} :
    (m.enter f args).IsRoot r ↔ m.IsRoot r ∨ r ∈ f.refs ∨ r ∈ args.flatMap Value.refs := by
  have hstack : (∃ v ∈ (m.enter f args).stack, v.ref? = some r) ↔
      (∃ v ∈ m.stack, v.ref? = some r) ∨ r ∈ f.refs ∨ r ∈ args.flatMap Value.refs := by
    simp [enter, Value.refs, or_and_right, exists_or]
  unfold IsRoot
  rw [hstack]
  grind [enter]

theorem HoldsOnly.enter (hm : m.HoldsOnly G) {f : Value} {args : List Value} (hf : ∀ r ∈ f.refs, G r)
    (hargs : ∀ r ∈ args.flatMap Value.refs, G r) : (m.enter f args).HoldsOnly G := by
  refine hm.of_roots rfl fun r hr => ?_
  rcases isRoot_enter_iff.1 hr with h | h | h
  · exact Or.inl h
  · exact Or.inr (hf r h)
  · exact Or.inr (hargs r h)

theorem HoldsOnly.leave (hm : m.HoldsOnly G) (height : Nat) : (m.leave height).HoldsOnly G := by
  refine hm.of_roots rfl fun r hr => Or.inl ?_
  rcases hr with h | h | ⟨v, hv, hr⟩ | h
  · exact Or.inl h
  · exact Or.inr (Or.inl h)
  · exact Or.inr (Or.inr (Or.inl ⟨v, mem_of_mem_take hv, hr⟩))
  · exact Or.inr (Or.inr (Or.inr h))

/-- Another queue holds on to what is on it. -/
theorem HoldsOnly.queue (hm : m.HoldsOnly G) {rest : List Ref} (h : ∀ r ∈ rest, G r) : (m.queue rest).HoldsOnly G := by
  refine hm.of_roots rfl fun r hr => ?_
  rcases hr with h' | h' | h' | h' | h'
  · exact Or.inl (Or.inl h')
  · exact Or.inl (Or.inr (Or.inl h'))
  · exact Or.inl (Or.inr (Or.inr (Or.inl h')))
  · exact Or.inl (Or.inr (Or.inr (Or.inr (Or.inl h'))))
  · exact Or.inr (h r h')

theorem HoldsOnly.finish (hm : m.HoldsOnly G) (s : Statistics) : (m.finish s).HoldsOnly G :=
  hm.of_roots rfl fun _ hr => Or.inl hr

theorem Sound.enter (hm : m.Sound) {f : Value} {args : List Value} (hf : m.Live f.refs)
    (hargs : m.Live (args.flatMap Value.refs)) : (m.enter f args).Sound :=
  hm.of_holdsOnly rfl (hm.intact.holdsOnly.enter hf hargs)

theorem Sound.leave (hm : m.Sound) (height : Nat) : (m.leave height).Sound :=
  hm.of_holdsOnly rfl (hm.intact.holdsOnly.leave height)

/-- The queue may lose what it has. -/
theorem Sound.queue (hm : m.Sound) {rest : List Ref} (h : rest ⊆ m.pending) : (m.queue rest).Sound :=
  hm.of_holdsOnly rfl (hm.intact.holdsOnly.queue fun r hr => hm.intact.roots r (Or.inr (Or.inr (Or.inr (Or.inr (h hr))))))

theorem Sound.finish (hm : m.Sound) (s : Statistics) : (m.finish s).Sound :=
  hm.of_holdsOnly rfl (hm.intact.holdsOnly.finish s)

/-! ### The sweep -/

/-- A sweep puts on the queue what it takes up, and nothing else becomes a root. -/
theorem isRoot_swept {r : Ref} (hr : m.swept.IsRoot r) : m.IsRoot r ∨ r ∈ m.doomed := by
  rw [swept_eq] at hr
  rcases hr with h | h | h | h | h
  · exact Or.inl (Or.inl h)
  · exact Or.inl (Or.inr (Or.inl h))
  · exact Or.inl (Or.inr (Or.inr (Or.inl h)))
  · exact Or.inl (Or.inr (Or.inr (Or.inr (Or.inl h))))
  · rcases List.mem_append.1 h with h | h
    · exact Or.inl (Or.inr (Or.inr (Or.inr (Or.inr h))))
    · exact Or.inr h

/-- What an object that survives mentions and the collection leaves in it survives as well. -/
theorem survives_of_mentioned (hm : m.Intact) {r s : Ref} {o : Object χ} (hr : m.Survives r)
    (ho : m.swept.heap.object? r = some o) (hs : s ∈ o.refs) : m.Survives s := by
  have hheld : ∀ o₀, m.heap.object? r = some o₀ → s ∈ o₀.refs → m.heap.Holds r s → m.Survives s :=
    fun o₀ h₀ h hholds => hr.held hholds (hm.objects r o₀ h₀ s h)
  obtain ⟨o₀, h₀⟩ := Heap.contains_iff.1 hr.contains
  cases o₀ with
  | function f =>
    cases (swept_function hr h₀).symm.trans ho
    obtain ⟨v, hv, hvs⟩ := List.mem_flatMap.1 hs
    exact hheld _ h₀ hs (.upvalue h₀ hv (by simpa [Value.refs] using hvs))
  | userdata u =>
    cases (swept_userdata hr h₀).symm.trans ho
    simp only [Object.refs, List.mem_append, Option.mem_toList] at hs
    rcases hs with h | h
    · exact hheld _ h₀ (by simp [Object.refs, h]) (.classOf h₀ h)
    · exact hheld _ h₀ (by simp [Object.refs, h]) (.environment h₀ h)
  | table t =>
    cases (swept_table hr h₀).symm.trans ho
    rcases Table.mem_refs_iff.1 hs with h | ⟨k, v, he, hkv⟩
    · exact hheld _ h₀ (Table.mem_refs_iff.2 (Or.inl h)) (.metatable h₀ h)
    · -- a weak half that is still there was not lost
      obtain ⟨he, hkept⟩ := mem_remaining_iff.1 he
      have hmem := Table.mem_refs_iff.2 (Or.inr ⟨k, v, he, hkv⟩)
      refine Classical.byContradiction fun hlost => ?_
      rcases hkv with h | h
      · by_cases hmode : m.heap.ModeSays t 'k'
        · exact hkept (Or.inl ⟨hmode, s, h, hlost⟩)
        · exact hlost (hheld _ h₀ hmem (.key h₀ hmode he h))
      · by_cases hmode : m.heap.ModeSays t 'v'
        · exact hkept (Or.inr ⟨hmode, s, h, Or.inl hlost⟩)
        · exact hlost (hheld _ h₀ hmem (.value h₀ hmode he h))

/-- Sweeping leaves a sound machine sound: what is released is not mentioned any more. -/
theorem Sound.swept (hm : m.Sound) : m.swept.Sound := by
  refine ⟨wellFormed_swept hm.wellFormed, fun r hr => ?_, fun r o ho s hs => ?_⟩
  · rw [contains_swept_iff]
    have hroot : m.IsRoot r → m.Survives r := fun h =>
      .root (Or.inl (.root h (hm.intact.roots r h))) (hm.intact.roots r h)
    rcases isRoot_swept hr with h | h
    · exact hroot h
    · exact (mem_doomed_iff.1 h).survives
  · rw [contains_swept_iff]
    exact survives_of_mentioned hm.intact (contains_swept_iff.1 (Heap.contains_of_object? ho)) ho hs

end Machine

end ScriptHost

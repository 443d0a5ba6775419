import Mathlib.Logic.Equiv.Defs
import ScriptHost.Proofs.Allotment
import ScriptHost.Proofs.Intact

/-!
# Renaming references

Which references new objects get depends on how many were made before, so two runs that make the same objects in different orders
end with the same machine only up to the names of the references. An object is another one renamed (`Object.Renames`) if it has the
same in each of its fields once the references in it are renamed; tables are compared by what is under their keys. A machine is
another one renamed (`Machine.Renamed`) if all it holds is.
-/

namespace ScriptHost

variable {χ σ : Type}

/-! ## What two places may hold -/

section

variable {α β γ : Type} {R R' : α → β → Prop} {S : β → γ → Prop} {T : α → γ → Prop} {U : β → γ → Prop} {x : Option α} {y : Option β}
  {z : Option γ}

theorem rel_imp (h : Option.Rel R x y) (hR : ∀ a b, x = some a → R a b → R' a b) : Option.Rel R' x y := by
  cases h with
  | some h => exact .some (hR _ _ rfl h)
  | none => exact .none

theorem rel_and {R'' : α → β → Prop} (h : Option.Rel R x y) (h' : Option.Rel R' x y) (hR : ∀ a b, R a b → R' a b → R'' a b) :
    Option.Rel R'' x y := by
  cases h with
  | some h =>
    cases h' with
    | some h' => exact .some (hR _ _ h h')
  | none => exact .none

theorem rel_comp (h : Option.Rel R x y) (h' : Option.Rel S y z) (hT : ∀ a b c, R a b → S b c → T a c) : Option.Rel T x z := by
  cases h with
  | some h =>
    cases h' with
    | some h' => exact .some (hT _ _ _ h h')
  | none =>
    cases h'
    exact .none

theorem rel_span (h : Option.Rel R x y) (h' : Option.Rel T x z) (hU : ∀ a b c, x = some a → R a b → T a c → U b c) :
    Option.Rel U y z := by
  cases h with
  | some h =>
    cases h' with
    | some h' => exact .some (hU _ _ _ rfl h h')
  | none =>
    cases h'
    exact .none

end

/-! ## Values and keys -/

/-- The value with its reference renamed. -/
def Value.rename (ρ : Ref → Ref) : Value → Value
  | .table r => .table (ρ r)
  | .userdata r => .userdata (ρ r)
  | .function r => .function (ρ r)
  | v => v

/-- The key with its reference renamed. -/
def Key.rename (ρ : Ref → Ref) : Key → Key
  | .table r => .table (ρ r)
  | .userdata r => .userdata (ρ r)
  | .function r => .function (ρ r)
  | k => k

/-- The function with the references bound to it renamed. -/
def NativeFunction.rename (ρ : Ref → Ref) (f : NativeFunction χ) : NativeFunction χ :=
  { f with upvalues := f.upvalues.map (Value.rename ρ) }

variable {ρ ρ' : Ref → Ref}

namespace Value

variable {v : Value}

@[simp] theorem rename_id (v : Value) : v.rename id = v := by cases v <;> rfl

theorem rename_rename (v : Value) : (v.rename ρ).rename ρ' = v.rename (ρ' ∘ ρ) := by cases v <;> rfl

theorem rename_congr (h : ∀ r ∈ v.refs, ρ r = ρ' r) : v.rename ρ = v.rename ρ' := by
  cases v <;> simp_all [rename, refs, ref?]

end Value

namespace Key

variable {k : Key}

@[simp] theorem rename_id (k : Key) : k.rename id = k := by cases k <;> rfl

theorem rename_rename (k : Key) : (k.rename ρ).rename ρ' = k.rename (ρ' ∘ ρ) := by cases k <;> rfl

theorem rename_congr (h : ∀ r, k.ref? = some r → ρ r = ρ' r) : k.rename ρ = k.rename ρ' := by
  cases k <;> simp_all [rename, ref?, toValue, Value.ref?]

theorem rename_of_plain (h : k.ref? = none) : k.rename ρ = k := by
  cases k <;> first | rfl | cases h

theorem ref?_rename (k : Key) : (k.rename ρ).ref? = k.ref?.map ρ := by cases k <;> rfl

theorem rename_injective (hρ : Function.Injective ρ) : Function.Injective (Key.rename ρ) := by
  intro k k' h
  cases k <;> cases k' <;> simp_all [rename, hρ.eq_iff]

theorem rename_surjective (hρ : Function.Surjective ρ) : Function.Surjective (Key.rename ρ) := by
  intro k
  cases hk : k.ref? with
  | none => exact ⟨k, rename_of_plain hk⟩
  | some r =>
    obtain ⟨s, rfl⟩ := hρ r
    cases k with
    | table r => exact ⟨.table s, congrArg Key.table (Option.some.inj hk).symm⟩
    | userdata r => exact ⟨.userdata s, congrArg Key.userdata (Option.some.inj hk).symm⟩
    | function r => exact ⟨.function s, congrArg Key.function (Option.some.inj hk).symm⟩
    | _ => cases hk

end Key

@[simp] theorem NativeFunction.rename_id (f : NativeFunction χ) : f.rename id = f := by
  have hid : Value.rename id = id := funext Value.rename_id
  simp [NativeFunction.rename, hid]

theorem NativeFunction.rename_rename (f : NativeFunction χ) : (f.rename ρ).rename ρ' = f.rename (ρ' ∘ ρ) := by
  simp [NativeFunction.rename, Value.rename_rename]

/-! ## Objects -/

/-- A field of an object: what is under a key of a table, the metatable of a table, that of a userdata, or the environment of a
userdata. -/
inductive Field where
  | entry (k : Key)
  | metatable
  | classOf
  | environment

/-- The field with the reference of its key renamed. -/
def Field.rename (ρ : Ref → Ref) : Field → Field
  | .entry k => .entry (k.rename ρ)
  | f => f

@[simp] theorem Field.rename_id (f : Field) : f.rename id = f := by cases f <;> simp [rename]

/-- The second table has what the first has, with references renamed, in the fields of a kind, and no key that is not a key
renamed. -/
structure Table.Renames (ρ : Ref → Ref) (F : Field → Prop) (T T' : Table) : Prop where
  entry : ∀ k, F (.entry k) → T'.get (k.rename ρ) = (T.get k).rename ρ
  onto : ∀ k, T'.get k ≠ .nil → ∃ k₀ : Key, k = k₀.rename ρ
  metatable : F .metatable → T'.metatable = T.metatable.map ρ

/-- The second userdata holds the same for the host, and has what the first has in the fields of a kind. -/
structure Userdata.Renames (ρ : Ref → Ref) (F : Field → Prop) (u u' : Userdata) : Prop where
  payload : u'.payload = u.payload
  finalized : u'.finalized = u.finalized
  metatable : F .classOf → u'.metatable = u.metatable.map ρ
  environment : F .environment → u'.environment = u.environment.map ρ

/-- The second object is the first one renamed, in the fields of a kind. -/
inductive Object.Renames (ρ : Ref → Ref) (F : Field → Prop) : Object χ → Object χ → Prop where
  | table {T T' : Table} (h : T.Renames ρ F T') : Renames ρ F (.table T) (.table T')
  | userdata {u u' : Userdata} (h : u.Renames ρ F u') : Renames ρ F (.userdata u) (.userdata u')
  | function (f : NativeFunction χ) : Renames ρ F (.function f) (.function (f.rename ρ))

variable {F F' : Field → Prop} {T T' T'' : Table} {u u' u'' : Userdata} {o o' o'' : Object χ}

theorem Table.Renames.field (h : T.Renames ρ F T') {name : String} (hF : F (.entry (.string name))) :
    T'.field name = (T.field name).rename ρ := h.entry _ hF

/-- Setting an entry under a key without a reference. -/
theorem Table.Renames.set (h : T.Renames ρ F T') (hρ : Function.Injective ρ) {k : Key} (hk : k.ref? = none) (v : Value) :
    (T.set k v).Renames ρ F (T'.set k (v.rename ρ)) := by
  have hkey : k.rename ρ = k := Key.rename_of_plain hk
  refine ⟨fun k' hF => ?_, fun k' hne => ?_, fun hF => ?_⟩
  · rw [get_set, get_set]
    by_cases he : k' = k
    · rw [if_pos he, he, if_pos hkey]
    · have hne : k'.rename ρ ≠ k := fun hr => he (Key.rename_injective hρ (hr.trans hkey.symm))
      rw [if_neg he, if_neg hne, h.entry k' hF]
  · rw [get_set] at hne
    by_cases he : k' = k
    · exact ⟨k, he.trans hkey.symm⟩
    · rw [if_neg he] at hne
      exact h.onto k' hne
  · rw [metatable_set, metatable_set, h.metatable hF]

theorem Table.renames_id (T : Table) : T.Renames id F T :=
  ⟨fun k _ => by simp, fun k _ => ⟨k, by simp⟩, fun _ => by simp⟩

theorem Table.Renames.trans (h : T.Renames ρ F T') (h' : T'.Renames ρ' F' T'') (hρ : Function.Surjective ρ)
    (hF : ∀ f, F f → F' (f.rename ρ)) : T.Renames (ρ' ∘ ρ) F T'' := by
  refine ⟨fun k hk => ?_, fun k hne => ?_, fun hm => ?_⟩
  · rw [← Key.rename_rename, h'.entry _ (hF _ hk), h.entry k hk, Value.rename_rename]
  · obtain ⟨k', rfl⟩ := h'.onto k hne
    obtain ⟨k₀, rfl⟩ := Key.rename_surjective hρ k'
    exact ⟨k₀, Key.rename_rename k₀⟩
  · rw [h'.metatable (hF _ hm), h.metatable hm, Option.map_map]

/-- A table with another entry is the same in all other fields. -/
theorem Table.renames_set (T : Table) {k : Key} (v : Value) (hF : ¬F (.entry k)) : T.Renames id F (T.set k v) := by
  refine ⟨fun k' hk' => ?_, fun k' _ => ⟨k', by simp⟩, fun _ => by simp⟩
  have hne : k' ≠ k := by
    rintro rfl
    exact hF hk'
  simp [get_set, hne]

theorem Object.renames_id (o : Object χ) : o.Renames id F o := by
  cases o with
  | table T => exact .table T.renames_id
  | userdata u => exact .userdata ⟨rfl, rfl, fun _ => by simp, fun _ => by simp⟩
  | function f =>
    have h : (Object.function f).Renames id F (.function (f.rename id)) := .function f
    rwa [f.rename_id] at h

namespace Object.Renames

theorem weaken (h : o.Renames ρ F o') (hF : ∀ f, F' f → F f) : o.Renames ρ F' o' := by
  cases h with
  | table h => exact .table ⟨fun k hk => h.entry k (hF _ hk), h.onto, fun hm => h.metatable (hF _ hm)⟩
  | userdata h =>
    exact .userdata ⟨h.payload, h.finalized, fun hm => h.metatable (hF _ hm), fun he => h.environment (hF _ he)⟩
  | function f => exact .function f

/-- What is the same in the fields of two kinds is the same in those of either. -/
theorem union (h : o.Renames ρ F o') (h' : o.Renames ρ F' o') : o.Renames ρ (fun f => F f ∨ F' f) o' := by
  cases h with
  | table h =>
    cases h' with
    | table h' =>
      exact .table ⟨fun k hk => hk.elim (h.entry k) (h'.entry k), h.onto, fun hm => hm.elim h.metatable h'.metatable⟩
  | userdata h =>
    cases h' with
    | userdata h' =>
      exact .userdata ⟨h.payload, h.finalized, fun hm => hm.elim h.metatable h'.metatable,
        fun he => he.elim h.environment h'.environment⟩
  | function f => exact .function f

theorem trans (h : o.Renames ρ F o') (h' : o'.Renames ρ' F' o'') (hρ : Function.Surjective ρ)
    (hF : ∀ f, F f → F' (f.rename ρ)) : o.Renames (ρ' ∘ ρ) F o'' := by
  cases h with
  | table h =>
    cases h' with
    | table h' => exact .table (h.trans h' hρ hF)
  | userdata h =>
    cases h' with
    | userdata h' =>
      refine .userdata ⟨h'.payload.trans h.payload, h'.finalized.trans h.finalized, fun hm => ?_, fun he => ?_⟩
      · rw [h'.metatable (hF _ hm), h.metatable hm, Option.map_map]
      · rw [h'.environment (hF _ he), h.environment he, Option.map_map]
  | function f =>
    cases h'
    rw [f.rename_rename]
    exact .function f

end Object.Renames

/-! ### Other names -/

/-- A table renamed one way is renamed another way that does the same to the references it mentions. -/
theorem Table.Renames.congr (h : T.Renames ρ F T') (hF : ∀ k : Key, k.ref? ≠ none → F (.entry k))
    (hρ : ∀ r ∈ T.refs, ρ r = ρ' r) (hinj : Function.Injective ρ') : T.Renames ρ' F T' := by
  have hkey : ∀ k, T.get k ≠ .nil → k.rename ρ = k.rename ρ' := by
    intro k hk
    refine Key.rename_congr fun r hr => hρ r (Table.mem_refs_iff.2 (Or.inr ⟨k, T.get k, ?_, Or.inl hr⟩))
    exact Table.mem_of_find? (Table.find?_of_get rfl hk)
  -- a key of the second table is plain, or that of something in the first
  have honto : ∀ k, T'.get k ≠ .nil → ∃ k₀ : Key, k = k₀.rename ρ' ∧ (k₀.ref? = none ∨ T.get k₀ ≠ .nil) := by
    intro k hne
    obtain ⟨k₀, rfl⟩ := h.onto k hne
    by_cases hplain : k₀.ref? = none
    · exact ⟨k₀, by rw [Key.rename_of_plain hplain, Key.rename_of_plain hplain], Or.inl hplain⟩
    · have hne₀ : T.get k₀ ≠ .nil := by
        intro hnil
        rw [h.entry k₀ (hF k₀ hplain), hnil] at hne
        exact hne rfl
      exact ⟨k₀, hkey k₀ hne₀, Or.inr hne₀⟩
  refine ⟨fun k hk => ?_, fun k hne => (honto k hne).imp fun _ hk₀ => hk₀.1, fun hm => ?_⟩
  · by_cases hnil : T.get k = .nil
    · rw [hnil]
      refine Classical.byContradiction fun hne => ?_
      obtain ⟨k₀, hk₀, hcase⟩ := honto _ hne
      obtain rfl := Key.rename_injective hinj hk₀
      rcases hcase with hplain | hne₀
      · rw [Key.rename_of_plain hplain, ← Key.rename_of_plain (ρ := ρ) hplain, h.entry k hk, hnil] at hne
        exact hne rfl
      · exact hne₀ hnil
    · rw [← hkey k hnil, h.entry k hk]
      exact Value.rename_congr fun r hr => hρ r (T.refs_get_subset k r hr)
  · rw [h.metatable hm]
    exact Option.map_congr fun r hr => hρ r (Table.mem_refs_iff.2 (Or.inl hr))

theorem Table.Renames.symm {ρ : Equiv.Perm Ref} (h : T.Renames ρ F T') (hF : ∀ f, F' f → F (f.rename ρ.symm)) :
    T'.Renames ρ.symm F' T := by
  refine ⟨fun k hk => ?_, fun k _ => ⟨k.rename ρ, by simp [Key.rename_rename]⟩, fun hm => ?_⟩
  · have hentry := h.entry (k.rename ρ.symm) (hF _ hk)
    rw [Key.rename_rename, Equiv.self_comp_symm, Key.rename_id] at hentry
    rw [hentry, Value.rename_rename, Equiv.symm_comp_self, Value.rename_id]
  · rw [h.metatable (hF _ hm), Option.map_map, Equiv.symm_comp_self, Option.map_id]
    rfl

namespace Object.Renames

/-- An object renamed one way is renamed another way that does the same to the references it mentions. -/
theorem congr (h : o.Renames ρ F o') (hF : ∀ k : Key, k.ref? ≠ none → F (.entry k)) (hρ : ∀ r ∈ o.refs, ρ r = ρ' r)
    (hinj : Function.Injective ρ') : o.Renames ρ' F o' := by
  cases h with
  | table h => exact .table (h.congr hF hρ hinj)
  | @userdata u _ h =>
    refine .userdata ⟨h.payload, h.finalized, fun hm => ?_, fun he => ?_⟩
    · rw [h.metatable hm]
      exact Option.map_congr fun r hr => hρ r (by simp [Object.refs, hr])
    · rw [h.environment he]
      exact Option.map_congr fun r hr => hρ r (by simp [Object.refs, hr])
  | function f =>
    have hsame : f.rename ρ = f.rename ρ' := by
      have hupvalues : f.upvalues.map (Value.rename ρ) = f.upvalues.map (Value.rename ρ') :=
        List.map_congr_left fun v hv => Value.rename_congr fun r hr => hρ r (List.mem_flatMap.2 ⟨v, hv, hr⟩)
      simp only [NativeFunction.rename, hupvalues]
    rw [hsame]
    exact .function f

theorem symm {ρ : Equiv.Perm Ref} (h : o.Renames ρ F o') (hF : ∀ f, F' f → F (f.rename ρ.symm)) : o'.Renames ρ.symm F' o := by
  cases h with
  | table h => exact .table (h.symm hF)
  | userdata h =>
    refine .userdata ⟨h.payload.symm, h.finalized.symm, fun hm => ?_, fun he => ?_⟩
    · rw [h.metatable (hF _ hm), Option.map_map, Equiv.symm_comp_self, Option.map_id]
      rfl
    · rw [h.environment (hF _ he), Option.map_map, Equiv.symm_comp_self, Option.map_id]
      rfl
  | function f =>
    have hback : (f.rename ρ).rename ρ.symm = f := by
      rw [NativeFunction.rename_rename, Equiv.symm_comp_self, NativeFunction.rename_id]
    have h : (Object.function (f.rename ρ)).Renames ρ.symm F' (.function ((f.rename ρ).rename ρ.symm)) := .function _
    rwa [hback] at h

theorem flip {ρ : Equiv.Perm Ref} {x y : Option (Object χ)} (h : Option.Rel (Object.Renames ρ.symm F) x y)
    (hF : ∀ f, F' f → F (f.rename ρ)) : Option.Rel (Object.Renames ρ F') y x := by
  cases h with
  | some h => exact .some (h.symm (ρ := ρ.symm) hF)
  | none => exact .none

/-- What comes of an object when other fields change, and what it is renamed, correspond under any renaming that does the same to the
references it mentions. -/
theorem past (h : o.Renames id F o') (h' : o.Renames ρ F o'') (hF : ∀ k : Key, k.ref? ≠ none → F (.entry k))
    (hρ : ∀ r ∈ o.refs, ρ r = ρ' r) (hinj : Function.Injective ρ') : o'.Renames ρ' F o'' := by
  have hback : o'.Renames (id : Ref → Ref) F o := symm (ρ := Equiv.refl Ref) h fun f hf => by
    rwa [Equiv.refl_symm, Equiv.coe_refl, Field.rename_id]
  exact hback.trans (h'.congr hF hρ hinj) Function.surjective_id fun f hf => by rwa [Field.rename_id]

end Object.Renames

/-! ## Machines -/

/-- The pins with the references of the pinned values renamed. -/
def Pins.rename (ρ : Ref → Ref) (s : Pins) : Pins := { s with places := s.places.map (Option.map (Value.rename ρ)) }

/-- The second heap has the objects of the first with all references renamed, one to one, and the references that come next
correspond as well. -/
structure Heap.Renamed (ρ : Equiv.Perm Ref) (h h' : Heap χ) : Prop where
  object : ∀ r, Option.Rel (Object.Renames ρ fun _ => True) (h.object? r) (h'.object? (ρ r))
  live : h'.live = h.live
  due : ∀ k, h'.due k = ρ (h.due k)

theorem Heap.Renamed.trans {h h' h'' : Heap χ} {ρ ρ' : Equiv.Perm Ref} (hr : h.Renamed ρ h') (hr' : h'.Renamed ρ' h'') :
    h.Renamed (ρ.trans ρ') h'' := by
  refine ⟨fun r => ?_, hr'.live.trans hr.live, fun k => ?_⟩
  · exact rel_comp (hr.object r) (hr'.object (ρ r)) fun _ _ _ h h' => h.trans h' ρ.surjective fun _ hf => hf
  · rw [hr'.due, hr.due]
    rfl

namespace Machine

/-- The second machine is the first one with all its references renamed, one to one: its heap is, and it holds on to the same. -/
structure Renamed (ρ : Equiv.Perm Ref) (m n : Machine χ σ) : Prop where
  heap : m.heap.Renamed ρ n.heap
  registry : n.registry = ρ m.registry
  globals : n.globals = ρ m.globals
  stack : n.stack = m.stack.map (Value.rename ρ)
  pins : n.pins = m.pins.rename ρ
  pending : n.pending = m.pending.map ρ
  limits : n.limits = m.limits
  depth : n.depth = m.depth
  collecting : n.collecting = m.collecting
  statistics : n.statistics = m.statistics
  host : n.host = m.host

variable {m n p : Machine χ σ} {ρ ρ' : Equiv.Perm Ref}

theorem Renamed.trans (h : m.Renamed ρ n) (h' : n.Renamed ρ' p) : m.Renamed (ρ.trans ρ') p := by
  refine ⟨h.heap.trans h'.heap, ?_, ?_, ?_, ?_, ?_, h'.limits.trans h.limits, h'.depth.trans h.depth,
    h'.collecting.trans h.collecting, h'.statistics.trans h.statistics, h'.host.trans h.host⟩
  · rw [h'.registry, h.registry]
    rfl
  · rw [h'.globals, h.globals]
    rfl
  · rw [h'.stack, h.stack, Array.map_map]
    exact congrArg (m.stack.map ·) (funext fun v => v.rename_rename)
  · rw [h'.pins, h.pins]
    simp [Pins.rename, Function.comp_def, Value.rename_rename]
  · rw [h'.pending, h.pending, List.map_map]
    rfl

/-- The pins with a renaming that does nothing to the references of the pinned values. -/
theorem rename_pins_of_fixes {s : Pins} (hρ : ∀ p v, s.get? p = some v → ∀ r ∈ v.refs, ρ r = r) : s.rename ρ = s := by
  have hplaces : s.places.map (Option.map (Value.rename ρ)) = s.places := by
    refine Array.ext_getElem? fun i => ?_
    rw [Array.getElem?_map]
    cases hi : s.places[i]? with
    | none => rfl
    | some place =>
      cases place with
      | none => rfl
      | some v =>
        have hv : s.get? ⟨i⟩ = some v := by simp [Pins.get?, hi]
        have hsame : v.rename ρ = v.rename id := Value.rename_congr (hρ ⟨i⟩ v hv)
        simp [hsame]
  rw [Pins.rename, hplaces]

/-- Where the renaming does nothing to what a machine holds on to, it is a matter of the heap. -/
theorem HoldsOnly.renamed {G : Ref → Prop} (hm : m.HoldsOnly G) (hρ : ∀ r, G r → ρ r = r) {h h' : Heap χ} (hh : h.Renamed ρ h') :
    ({ m with heap := h } : Machine χ σ).Renamed ρ { m with heap := h' } := by
  have hroot : ∀ r, m.IsRoot r → ρ r = r := fun r hr => hρ r (hm.roots r hr)
  refine ⟨hh, (hroot _ (Or.inl rfl)).symm, (hroot _ (Or.inr (Or.inl rfl))).symm, ?_, ?_, ?_, rfl, rfl, rfl, rfl, rfl⟩
  · refine Array.ext_getElem? fun i => ?_
    show m.stack[i]? = (m.stack.map _)[i]?
    rw [Array.getElem?_map]
    cases hi : m.stack[i]? with
    | none => rfl
    | some v =>
      have hv := Array.mem_of_getElem? hi
      have hsame : v.rename ρ = v.rename id :=
        Value.rename_congr fun r hr => hroot r (Or.inr (Or.inr (Or.inl ⟨v, hv, by simpa [Value.refs] using hr⟩)))
      simp [hsame]
  · refine (rename_pins_of_fixes fun p v hp r hr => hroot r ?_).symm
    exact Or.inr (Or.inr (Or.inr (Or.inl ⟨p, v, hp, by simpa [Value.refs] using hr⟩)))
  · refine ((List.map_congr_left fun r hr => ?_).trans (List.map_id _)).symm
    exact hroot r (Or.inr (Or.inr (Or.inr (Or.inr hr))))

theorem renamed_refl (m : Machine χ σ) : m.Renamed (Equiv.refl Ref) m := by
  have hheap : m.heap.Renamed (Equiv.refl Ref) m.heap := by
    refine ⟨fun r => ?_, rfl, fun _ => rfl⟩
    show Option.Rel _ _ (m.heap.object? r)
    cases m.heap.object? r with
    | none => exact .none
    | some o => exact .some o.renames_id
  exact HoldsOnly.renamed (G := fun _ => True) ⟨fun _ _ => trivial, fun _ _ _ _ _ => trivial⟩ (fun _ _ => rfl) hheap

end Machine

end ScriptHost

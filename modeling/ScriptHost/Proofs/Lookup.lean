import Mathlib.Data.List.MinMax
import ScriptHost.Proofs.Classes
import ScriptHost.Proofs.Finalizers

/-!
# Looking up attributes

Reading an attribute of a handle goes through functions that call each other: the one of the class of the handle, and for each base
the one of that base. Together they search the shadow of the handle and then the tables of the classes below its class, in the
order `History.preorder`, and the first value that is not nil is the one that is read (`read_handle_eq`). A read changes nothing,
and fails only if the limits leave no room for as many calls inside each other as there are classes on the longest path of bases.
-/

namespace ScriptHost

variable {χ σ α β : Type}

namespace Value

/-- The first value of a list that is not nil, or nil. -/
def firstOf (vs : List Value) : Value := (vs.find? (fun v => !v.isNil)).getD .nil

theorem firstOf_cons (v : Value) (vs : List Value) : firstOf (v :: vs) = if v.isNil then firstOf vs else v := by
  cases v <;> rfl

theorem firstOf_append (vs ws : List Value) :
    firstOf (vs ++ ws) = if (firstOf vs).isNil then firstOf ws else firstOf vs := by
  induction vs with
  | nil => rfl
  | cons v vs ih =>
    rw [List.cons_append, firstOf_cons, firstOf_cons, ih]
    by_cases hv : v.isNil = true <;> simp [hv]

/-- The first of the firsts of some lists is the first of all of them. -/
theorem firstOf_flatMap (l : List α) (g : α → List β) (f : β → Value) :
    firstOf ((l.flatMap g).map f) = firstOf (l.map fun a => firstOf ((g a).map f)) := by
  induction l with
  | nil => rfl
  | cons a rest ih => rw [List.flatMap_cons, List.map_append, firstOf_append, List.map_cons, firstOf_cons, ih]

end Value

/-! ## Actions that only read -/

namespace Action

variable {m : Machine χ σ} {fits fits' : Prop} {a : α} {b : β}

/-- The action changes nothing and answers what is said, or fails with a stack overflow where the limits do not fit. -/
def Reads (x : Action χ σ α) (m : Machine χ σ) (fits : Prop) (a : α) : Prop :=
  x m = (.ok a, m) ∨ x m = (.error .overflow, m) ∧ ¬fits

theorem Reads.weaken {x : Action χ σ α} (h : x.Reads m fits a) (hfits : fits' → fits) : x.Reads m fits' a :=
  h.imp id fun h => ⟨h.1, mt hfits h.2⟩

theorem reads_pure (a : α) : (pure a : Action χ σ α).Reads m fits a := Or.inl rfl

theorem reads_query {f : Machine χ σ → Except Fault α} (h : f m = .ok a) : (query f).Reads m fits a :=
  Or.inl (query_of_ok h)

theorem Reads.bind {x : Action χ σ α} {f : α → Action χ σ β} (hx : x.Reads m fits a) (hf : (f a).Reads m fits b) :
    (x >>= f).Reads m fits b := by
  rcases hx with hx | ⟨hx, hn⟩
  · unfold Reads
    rwa [bind_of_ok hx]
  · exact Or.inr ⟨bind_of_error hx, hn⟩

end Action

namespace Machine

/-- The limits leave room for so many calls inside each other that read attributes. -/
def Fits (m : Machine χ σ) (n : Nat) : Prop :=
  1 ≤ m.limits.maxIndexChain ∧ m.depth + n ≤ m.limits.maxCallDepth ∧ m.stack.size + 3 * n ≤ m.limits.stackLimit

instance (m : Machine χ σ) (n : Nat) : Decidable (m.Fits n) := inferInstanceAs (Decidable (_ ∧ _ ∧ _))

variable {m : Machine χ σ} {n : Nat}

theorem Fits.mono {k : Nat} (h : m.Fits n) (hk : k ≤ n) : m.Fits k := by
  unfold Fits at *
  omega

theorem Fits.hasRoom (h : m.Fits (n + 1)) : m.HasRoom 2 := by
  unfold Fits at h
  unfold HasRoom
  omega

theorem Fits.enter (h : m.Fits (n + 1)) (f v key : Value) : (m.enter f [v, key]).Fits n := by
  unfold Fits Machine.enter at *
  simp only [Array.size_append, List.size_toArray, List.length_cons, List.length_nil]
  omega

/-- A call that changed nothing leaves the machine as it was. -/
theorem leave_enter (m : Machine χ σ) (f : Value) (args : List Value) : (m.enter f args).leave m.stack.size = m := by
  unfold Machine.enter leave
  simp

end Machine

/-- A call answers what the body of its function answers, if that only reads. -/
theorem reads_call (Γ : Host χ σ) {m : Machine χ σ} {r : Ref} {function : NativeFunction χ} {args vs : List Value} {fits : Prop}
    (hf : m.heap.object? r = some (.function function)) (hroom : fits → m.HasRoom args.length)
    (hbody : (function.code.run Γ (call Γ) ⟨args, function.upvalues⟩).Reads (m.enter (.function r) args) fits vs) :
    (call Γ (.function r) args).Reads m fits vs := by
  by_cases h : m.HasRoom args.length
  · have hcallee := Machine.callee_eq_ok_iff.2 ⟨h, Heap.function_eq_ok_iff.2 hf⟩
    unfold Action.Reads
    rw [call_of_callee Γ hcallee]
    rcases hbody with hbody | ⟨hbody, hn⟩
    · rw [hbody]
      exact Or.inl (Prod.ext rfl (m.leave_enter _ _))
    · rw [hbody]
      exact Or.inr ⟨Prod.ext rfl (m.leave_enter _ _), hn⟩
  · exact Or.inr ⟨call_of_not_hasRoom Γ r args h, mt hroom h⟩

namespace Machine

/-! ## What classes have -/

/-- What the table of an installed class has under a key of its own. -/
def classValue (m : Machine χ σ) (key : Value) (name : String) : Value :=
  match m.classTable? name with
  | none => .nil
  | some t => (m.rawGet t key).toOption.getD .nil

/-- What is found under a key in the tables of a class and of the classes below it. -/
def inherited (m : Machine χ σ) (ds : History χ) (key : Value) (name : String) : Value :=
  Value.firstOf ((ds.preorder name).map (m.classValue key))

variable {ds : History χ} {m : Machine χ σ} {d : ClassDescriptor χ} {cls : Ref}

/-- What is found is what the class has, or else what is found first below one of its bases. -/
theorem inherited_eq (h : ds.Ordered) (hd : d ∈ ds) (hmeta : d.name ∉ Registry.metamethods) (key : Value) :
    m.inherited ds key d.name =
      if (m.classValue key d.name).isNil then Value.firstOf (d.bases.map (m.inherited ds key))
      else m.classValue key d.name := by
  unfold inherited
  rw [h.preorder_eq hd hmeta, List.map_cons, Value.firstOf_cons, Value.firstOf_flatMap]

/-- A table is read under any key. -/
theorem exists_rawGet {t : Ref} {T : Table} (hT : m.heap.object? t = some (.table T)) (key : Value) :
    ∃ v, m.rawGet t key = .ok v := by
  unfold rawGet
  rw [Heap.table_eq_ok_iff.2 hT]
  cases Key.ofValue key with
  | ok k => exact ⟨_, rfl⟩
  | error e => exact ⟨_, rfl⟩

theorem Represents.rawGet (h : m.Represents d cls) (key : Value) : m.rawGet cls key = .ok (m.classValue key d.name) := by
  obtain ⟨T, hT, -⟩ := h.table
  obtain ⟨v, hv⟩ := exists_rawGet hT key
  simp only [classValue, h.mark, hv]
  rfl

/-- What the shadow of a userdata has under a key. -/
def shadowValue (m : Machine χ σ) (key : Value) (u : Userdata) : Value :=
  match u.environment with
  | none => .nil
  | some shadow => (m.rawGet shadow key).toOption.getD .nil

/-- The shadow of a userdata is read under any key. -/
theorem Unshared.inShadow_eq {closed : Prop} (hm : m.Unshared closed) {h : Ref} {u : Userdata}
    (hu : m.heap.object? h = some (.userdata u)) (key : Value) :
    Attribute.inShadow m (.userdata h) key = .ok (m.shadowValue key u) := by
  have hshadow : Attribute.shadow? m (.userdata h) = .ok u.environment := by
    simp only [Attribute.shadow?, Machine.environment, Heap.userdata_eq_ok_iff.2 hu]
  unfold Attribute.inShadow shadowValue
  rw [hshadow]
  cases he : u.environment with
  | none => rfl
  | some e =>
    obtain ⟨⟨E, hE⟩, -⟩ := hm.environment h u e hu he
    obtain ⟨v, hv⟩ := exists_rawGet hE key
    simp only [hv]
    rfl

end Machine

/-! ## The functions that read -/

section

open ScriptHost.Action Machine

variable {Γ : Host χ σ} {ds : History χ} {m : Machine χ σ} {d : ClassDescriptor χ} {cls : Ref} {fits : Prop} {key : Value}

theorem reads_inBases {c : Caller χ σ} {bases : List Ref} {vs : List Value}
    (h : List.Forall₂ (fun t v => (index c (.table t) key).Reads m fits v) bases vs) :
    (Attribute.inBases c key (bases.map .table)).Reads m fits (Value.firstOf vs) := by
  induction h with
  | nil => exact reads_pure _
  | @cons t v bases vs hv _ ih =>
    refine hv.bind ?_
    rw [Value.firstOf_cons]
    split
    · exact ih
    · exact reads_pure _

/-- What the first hop of a read decides, where the limits allow one. -/
theorem reads_index {v w : Value} (hfits : fits → 1 ≤ m.limits.maxIndexChain)
    (hhop : m.readHop v key = .ok (.stop w) ∨
      ∃ r, m.readHop v key = .ok (.enter (.function r)) ∧ (call Γ (.function r) [v, key]).Reads m fits [w]) :
    (index (call Γ) v key).Reads m fits w := by
  show (readAlong (call Γ) key m.limits.maxIndexChain v).Reads m fits w
  cases hchain : m.limits.maxIndexChain with
  | zero => exact Or.inr ⟨rfl, fun h => by have := hfits h; omega⟩
  | succ hops =>
    unfold Reads
    rw [readAlong_succ]
    rcases hhop with hhop | ⟨r, hhop, hcall⟩
    · rw [hhop]
      exact Or.inl rfl
    · rw [hhop]
      exact hcall.bind (reads_pure _)

/-- The tables of a class and of the classes below it are searched when its table is read. -/
def Searched (Γ : Host χ σ) (ds : History χ) (name : String) : Prop :=
  ∀ (m : Machine χ σ) (t : Ref) (key : Value), m.Classes ds → m.Registered name t →
    (index (call Γ) (.table t) key).Reads m (m.Fits (ds.height name)) (m.inherited ds key name)

/-- The function that reads attributes answers what the receiver has of its own, or else what is found in the class and below. -/
theorem reads_reader (hm : m.Classes ds) (hd : d ∈ ds) (hmeta : d.name ∉ Registry.metamethods) (hcls : m.Represents d cls)
    (hbases : ∀ b ∈ d.bases, Searched Γ ds b) :
    ∃ r, m.rawField cls Registry.readName = .ok (.function r) ∧ ∀ key receiver own,
      Attribute.inShadow m receiver key = .ok own →
      (call Γ (.function r) [receiver, key]).Reads m (m.Fits (ds.height d.name))
        [if own.isNil then m.inherited ds key d.name else own] := by
  obtain ⟨T, hT, hfills, reader, n, bases, hread, hreader, hregistered⟩ := hcls.table
  refine ⟨reader, ?_, fun key receiver own hown => reads_call Γ hreader ?_ ?_⟩
  · simp only [Machine.rawField, Heap.table_eq_ok_iff.2 hT, hread]
  · rw [hm.ordered.height_eq hd hmeta]
    exact fun h => h.hasRoom
  -- the body runs on a machine with the same heap, one call deeper
  have hentered : (m.enter (.function reader) [receiver, key]).Classes ds := hm.of_heap_eq rfl rfl rfl
  have hbelow : List.Forall₂ (fun t v => (index (call Γ) (.table t) key).Reads (m.enter (.function reader) [receiver, key])
      (m.Fits (ds.height d.name)) v) bases (d.bases.map (m.inherited ds key)) := by
    refine List.forall₂_map_right_iff.2 (List.Forall₂.flip ?_)
    refine ((List.forall₂_and_left _ _).2 ⟨fun b hb => hb, hregistered⟩).imp ?_
    rintro b t ⟨hb, ht⟩
    refine (hbases b hb _ t key hentered ht).weaken fun h => ?_
    rw [hm.ordered.height_eq hd hmeta] at h
    exact (h.enter _ _ _).mono (List.le_max_of_le' 0 (List.mem_map_of_mem hb) (Nat.le_refl _))
  refine Reads.bind (a := own) (reads_query hown) ?_
  split
  · refine Reads.bind (a := m.inherited ds key d.name) ?_ (reads_pure _)
    refine Reads.bind (a := m.classValue key d.name) (reads_query (hcls.rawGet key)) ?_
    rw [inherited_eq hm.ordered hd hmeta]
    split
    · exact reads_inBases hbelow
    · exact reads_pure _
  · exact reads_pure _

/-- A hop at a value whose metatable is a class table leads to the function that reads attributes. -/
theorem metafield_readName {v : Value} {r : Ref} (hmt : m.metatable v = .ok (some cls))
    (hread : m.rawField cls Registry.readName = .ok (.function r)) : m.metafield v "__index" = .ok (.function r) := by
  unfold Machine.metafield
  rw [hmt]
  exact hread

/-- Reading the table of a class searches it and the tables of the classes below. -/
theorem searched_of_has (Γ : Host χ σ) (h : ds.Ordered) : ∀ name, ds.Has name → Searched Γ ds name := by
  refine h.induction fun d hd hmeta ih m t key hm ht => ?_
  obtain ⟨cls, hcls⟩ := hm.represented d hd hmeta
  cases ht.eq hcls.registered
  obtain ⟨r, hread, hcall⟩ := reads_reader hm hd hmeta hcls ih
  have hmetatable : m.metatable (.table t) = .ok (some t) := by
    obtain ⟨T, hT, hfills, -⟩ := hcls.table
    simp only [Machine.metatable, Heap.table_eq_ok_iff.2 hT, hfills.metatable]
  have hfound := inherited_eq hm.ordered hd hmeta key (m := m)
  refine reads_index (fun h => h.1) ?_
  simp only [Machine.readHop, hcls.rawGet key, metafield_readName hmetatable hread]
  split
  · exact Or.inr ⟨r, rfl, hcall key (.table t) .nil rfl⟩
  · rename_i hn
    rw [if_neg hn] at hfound
    exact Or.inl (congrArg (fun v => Except.ok (Hop.stop v)) hfound.symm)

/-- Reading a handle searches its shadow, and then the tables of its class and the classes below. -/
theorem reads_handle (Γ : Host χ σ) (hm : m.Classes ds) (hd : d ∈ ds) (hcls : m.classTable? d.name = some cls) {h : Ref}
    {u : Userdata} (hu : m.heap.object? h = some (.userdata u)) (hclass : u.metatable = some cls) :
    ∃ r, m.metafield (.userdata h) Registry.readName = .ok (.function r) ∧ ∀ key,
      (index (call Γ) (.userdata h) key).Reads m (m.Fits (ds.height d.name))
        (Value.firstOf (m.shadowValue key u :: (ds.preorder d.name).map (m.classValue key))) := by
  obtain ⟨⟨hmeta, -⟩, hregistered⟩ := (hm.classTable?_eq_some_iff (hm.ordered.not_reserved hd)).1 hcls
  obtain ⟨t, ht⟩ := hm.represented d hd hmeta
  cases hregistered.eq ht.registered
  have hbases : ∀ b ∈ d.bases, Searched Γ ds b := fun b hb => searched_of_has Γ hm.ordered b (hm.ordered.has_base hd hb)
  have hmetatable : m.metatable (.userdata h) = .ok (some cls) := by
    simp only [Machine.metatable, Heap.userdata_eq_ok_iff.2 hu, hclass]
  obtain ⟨r, hread, hcall⟩ := reads_reader hm hd hmeta ht hbases
  have hfield := metafield_readName hmetatable hread
  refine ⟨r, hfield, fun key => reads_index (fun h => h.1) (Or.inr ⟨r, ?_, ?_⟩)⟩
  · simp only [Machine.readHop, Machine.handlerHop, hfield]
    rfl
  · rw [Value.firstOf_cons]
    exact hcall key (.userdata h) _ (hm.toUnshared.inShadow_eq hu key)

end

/-- On every machine that is built step by step, whatever the host supplies: reading a key of a userdata whose metatable is the
table of an installed class leaves the machine as it is, and answers what the shadow of the userdata has under the key, or else
the first value that the tables of the class and the classes below it have, in depth-first order from left to right, or else nil.
Only where the limits leave no room for as many calls inside each other as the longest path of bases has classes it may fail
instead, with a stack overflow. The condition on native code is that of `Built`: it writes by hand no table that the registry has
under a name, be it that of a class or not, and puts no table of its own there. -/
theorem read_handle_eq {ds : History χ} {m : Machine χ σ} (hm : Built ds m) (Γ : Host χ σ) {d : ClassDescriptor χ} (hd : d ∈ ds)
    {cls h : Ref} {u : Userdata} (hcls : m.classTable? d.name = some cls) (hu : m.heap.object? h = some (.userdata u))
    (hclass : u.metatable = some cls) (key : Value) :
    let found := Value.firstOf (m.shadowValue key u :: (ds.preorder d.name).map (m.classValue key))
    Action.index (call Γ) (.userdata h) key m = (.ok found, m) ∨
      Action.index (call Γ) (.userdata h) key m = (.error .overflow, m) ∧ ¬m.Fits (ds.height d.name) := by
  obtain ⟨-, -, hread⟩ := reads_handle Γ hm.classes hd hcls hu hclass
  exact hread key

/-! ## A diamond -/

/-- A class with two bases that have a base in common. The second of them has a method of its own by the name of the common one. -/
def diamond : List (ClassDescriptor Unit) :=
  [⟨"A", ⟨[("f", ())]⟩, []⟩, ⟨"B", .empty, ["A"]⟩, ⟨"C", ⟨[("f", ())]⟩, ["A"]⟩, ⟨"D", .empty, ["B", "C"]⟩]

/-- A new machine after these classes were installed. -/
def installedDiamond : Machine Unit Unit := (ClassDescriptor.installAll diamond (.start .standard ())).2

/-- The machine after a handle was made for the last class. -/
def afterDiamond : Machine Unit Unit := (Request.perform (call idleHost) (.wrap 0x10 "D") installedDiamond).2

/-- The classes are installed, and the handle has the table of its class, which fits the limits; what is found first under the name
of the method is that of the common base. -/
theorem handle_afterDiamond :
    (ClassDescriptor.installAll diamond (.start .standard () : Machine Unit Unit)).1.toOption = some () ∧
      afterDiamond.classTable? "D" = some ⟨19, 0⟩ ∧
      afterDiamond.heap.object? ⟨26, 0⟩ = some (.userdata ⟨.handle 0x10, some ⟨19, 0⟩, some ⟨27, 0⟩, false⟩) ∧
      afterDiamond.Fits (History.height (diamond.reverse ++ []) "D") ∧
      Value.firstOf (afterDiamond.shadowValue (.string "f") ⟨.handle 0x10, some ⟨19, 0⟩, some ⟨27, 0⟩, false⟩ ::
        (History.preorder (diamond.reverse ++ []) "D").map (afterDiamond.classValue (.string "f"))) = .function ⟨3, 0⟩ := by
  decide +kernel

theorem installAll_diamond : ClassDescriptor.installAll diamond (.start .standard ()) = (.ok (), installedDiamond) :=
  Action.eq_of_fst (eq_ok_of_toOption handle_afterDiamond.1)

theorem built_afterDiamond : Built (diamond.reverse ++ []) afterDiamond :=
  ((Built.start .standard ()).install installAll_diamond (by decide)).request (call idleHost) (.wrap 0x10 "D") trivial trivial nofun

/-- The handle has the method of the common base, which comes before the second base. -/
theorem read_afterDiamond :
    Action.index (call idleHost) (.userdata ⟨26, 0⟩) (.string "f") afterDiamond = (.ok (.function ⟨3, 0⟩), afterDiamond) := by
  have hd : (⟨"D", .empty, ["B", "C"]⟩ : ClassDescriptor Unit) ∈ diamond.reverse ++ [] := by decide
  obtain ⟨-, hcls, hu, hfits, hfound⟩ := handle_afterDiamond
  have hread := read_handle_eq built_afterDiamond idleHost hd hcls hu rfl (.string "f")
  rw [hfound] at hread
  exact hread.resolve_right fun h => h.2 hfits

end ScriptHost

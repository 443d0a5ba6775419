import ScriptHost.Proofs.Lookup
import ScriptHost.Proofs.Moments

/-!
# Kinds of handles

A handle is a kind of a class if reading the name of the class on it finds `true`. Each class has `true` under its own name, and no
class has it under another one, so this decides inheritance as long as nothing else is found first: nothing that scripts wrote on
the handle, and no method or other field of a class that comes before the one looked for (`isKindOf_iff`). Scripts can make a
handle a kind of any class, and a class with a method by the name of its base is no kind of that base
(`isKindOf_decides_inheritance_false`).
-/

namespace ScriptHost

variable {χ σ : Type}

/-- A value other than nil is the first of a list if it is in the list after nothing but nils. -/
theorem Value.firstOf_eq_iff {v : Value} (hv : v ≠ .nil) {vs : List Value} :
    firstOf vs = v ↔ ∃ before after, vs = before ++ v :: after ∧ ∀ w ∈ before, w = .nil := by
  have hfind : firstOf vs = v ↔ vs.find? (fun v => !v.isNil) = some v := by
    unfold firstOf
    cases vs.find? (fun v => !v.isNil) with
    | none => simp [hv.symm]
    | some w => simp
  have hn : v.isNil = false := by simpa [← isNil_iff] using hv
  rw [hfind, List.find?_eq_some_iff_append]
  simp [isNil_iff, hn]

/-- A class of the name has something under the text in its table. -/
def History.HasField (ds : History χ) (name text : String) : Prop := ∃ d ∈ ds, d.name = name ∧ text ∈ d.fields

instance (ds : History χ) (name text : String) : Decidable (ds.HasField name text) :=
  inferInstanceAs (Decidable (∃ d ∈ ds, d.name = name ∧ text ∈ d.fields))

namespace Machine

variable {ds : History χ} {m : Machine χ σ} {d : ClassDescriptor χ} {cls : Ref} {a c N : String}

/-- What a class has under a text is what its table has there. -/
theorem Represents.classValue_eq (h : m.Represents d cls) :
    ∃ T, d.Fills cls T ∧ ∀ N, m.classValue (.string N) d.name = T.field N := by
  obtain ⟨T, hT, hfills, -⟩ := h.table
  refine ⟨T, hfills, fun N => ?_⟩
  have hget := h.rawGet (.string N)
  unfold Machine.rawGet at hget
  rw [Heap.table_eq_ok_iff.2 hT] at hget
  exact (Except.ok.inj hget).symm

/-- A class has `true` under its own name only. -/
theorem Classes.classValue_eq_true_iff (hm : m.Classes ds) (hc : ds.Has c) :
    m.classValue (.string N) c = .boolean true ↔ N = c := by
  obtain ⟨hmeta, d, hd, rfl⟩ := hc
  obtain ⟨cls, hcls⟩ := hm.represented d hd hmeta
  obtain ⟨T, hfills, hvalue⟩ := hcls.classValue_eq
  rw [hvalue, Table.field, hfills.mark, Key.string.injEq]

/-- It has nothing under a text that is none of its fields. -/
theorem Classes.classValue_eq_nil_iff (hm : m.Classes ds) (hc : ds.Has c) :
    m.classValue (.string N) c = .nil ↔ ¬ds.HasField c N := by
  have hvalue : ∀ d ∈ ds, d.name = c → (m.classValue (.string N) c ≠ .nil ↔ N ∈ d.fields) := by
    rintro d hd rfl
    obtain ⟨cls, hcls⟩ := hm.represented d hd hc.1
    obtain ⟨T, hfills, hvalue⟩ := hcls.classValue_eq
    rw [hvalue, Table.field, hfills.fields]
    simp
  constructor
  · rintro hnil ⟨d, hd, hname, hN⟩
    exact (hvalue d hd hname).2 hN hnil
  · intro hnone
    obtain ⟨-, d, hd, hname⟩ := hc
    exact Classical.byContradiction fun hne => hnone ⟨d, hd, hname, (hvalue d hd hname).1 hne⟩

/-- What is found under a name in a class and below is `true` if the class of the name is there, after classes that have no field
of that name. -/
theorem Classes.inherited_eq_true_iff (hm : m.Classes ds) (ha : ds.Has a) :
    m.inherited ds (.string N) a = .boolean true ↔
      ∃ above rest, ds.preorder a = above ++ N :: rest ∧ ∀ c ∈ above, ¬ds.HasField c N := by
  have hhas := hm.ordered.has_of_mem_preorder ha
  unfold inherited
  rw [Value.firstOf_eq_iff (by simp)]
  constructor
  · rintro ⟨before, after, hmap, hnil⟩
    obtain ⟨above, l, hpreorder, rfl, hl⟩ := List.map_eq_append_iff.1 hmap
    obtain ⟨c, rest, rfl, hc, -⟩ := List.map_eq_cons_iff.1 hl
    rw [hpreorder] at hhas
    have hN := (hm.classValue_eq_true_iff (hhas c (by simp))).1 hc
    refine ⟨above, rest, hN ▸ hpreorder, fun b hb => ?_⟩
    exact (hm.classValue_eq_nil_iff (hhas b (by simp [hb]))).1 (hnil _ (List.mem_map_of_mem hb))
  · rintro ⟨above, rest, hpreorder, hnone⟩
    rw [hpreorder] at hhas ⊢
    refine ⟨above.map (m.classValue (.string N)), rest.map (m.classValue (.string N)), ?_, fun w hw => ?_⟩
    · rw [List.map_append, List.map_cons, (hm.classValue_eq_true_iff (hhas N (by simp))).2 rfl]
    · obtain ⟨b, hb, rfl⟩ := List.mem_map.1 hw
      exact (hm.classValue_eq_nil_iff (hhas b (by simp [hb]))).2 (hnone b hb)

/-- Where no other class has a field of the name, it is `true` for the class and its direct and transitive bases. -/
theorem Classes.inherited_eq_true_iff_declares (hm : m.Classes ds) (ha : ds.Has a)
    (hother : ∀ c, Relation.ReflTransGen ds.Declares a c → ds.HasField c N → c = N) :
    m.inherited ds (.string N) a = .boolean true ↔ Relation.ReflTransGen ds.Declares a N := by
  rw [hm.inherited_eq_true_iff ha, ← hm.ordered.mem_preorder_iff ha]
  constructor
  · rintro ⟨above, rest, hpreorder, -⟩
    simp [hpreorder]
  · intro hN
    obtain ⟨above, rest, hpreorder, hnot⟩ := List.eq_append_cons_of_mem hN
    refine ⟨above, rest, hpreorder, fun c hc hfield => hnot ?_⟩
    rwa [← hother c ((hm.ordered.mem_preorder_iff ha).1 (by simp [hpreorder, hc])) hfield]

end Machine

/-- On every machine that is built step by step, whatever the host supplies and whatever was written on the handle: as long as the
classes fit the limits, a handle of an installed class is a kind of a class if its shadow has `true` under the name, or has nothing
there and the lookup visits the class of that name before any class that has another field of the name. Where neither the shadow
nor another class of the hierarchy has anything under the name, this is inheritance. -/
theorem isKindOf_iff {ds : History χ} {m : Machine χ σ} (hm : Built ds m) (Γ : Host χ σ) {d : ClassDescriptor χ} (hd : d ∈ ds)
    {cls h : Ref} {u : Userdata} {a : Address} (hcls : m.classTable? d.name = some cls)
    (hu : m.heap.object? h = some (.userdata u)) (hclass : u.metatable = some cls) (hhandle : u.payload = .handle a)
    (hfits : m.Fits (ds.height d.name)) (N : String) :
    ∃ b, Action.isKindOf (call Γ) (.userdata h) N m = (.ok b, m) ∧
      (b = true ↔ m.shadowValue (.string N) u = .boolean true ∨ m.shadowValue (.string N) u = .nil ∧
        ∃ above rest, ds.preorder d.name = above ++ N :: rest ∧ ∀ c ∈ above, ¬ds.HasField c N) ∧
      (m.shadowValue (.string N) u = .nil →
        (∀ c, Relation.ReflTransGen ds.Declares d.name c → ds.HasField c N → c = N) →
        (b = true ↔ Relation.ReflTransGen ds.Declares d.name N)) := by
  have hc := hm.classes
  have hhas : ds.Has d.name := ((hc.classTable?_eq_some_iff (hc.ordered.not_reserved hd)).1 hcls).1
  obtain ⟨r, hfield, hread⟩ := reads_handle Γ hc hd hcls hu hclass
  have hindex := (hread (.string N)).resolve_right fun h => h.2 hfits
  have hidentity : m.identity? (.userdata h) = some a := by
    obtain ⟨p, mt, e, f⟩ := u
    cases hhandle
    simp only [Machine.identity?, Value.userdata?, Option.bind_some, Machine.address?, Heap.userdata_eq_ok_iff.2 hu]
  refine ⟨Value.firstOf (m.shadowValue (.string N) u :: (ds.preorder d.name).map (m.classValue (.string N))) == .boolean true,
    ?_, ?_, fun hnil hother => ?_⟩
  · rw [Action.isKindOf_eq, hidentity, hfield]
    exact Action.bind_of_ok hindex
  · rw [beq_iff_eq, Value.firstOf_cons, ← hc.inherited_eq_true_iff hhas]
    cases m.shadowValue (.string N) u <;> simp [Value.isNil, Machine.inherited]
  · rw [beq_iff_eq, hnil, ← hc.inherited_eq_true_iff_declares hhas hother]
    rfl

/-! ## A name that is covered, and one that is written -/

/-- A class with a method by the name of its base, which has a base of its own. -/
def coveredClasses : List (ClassDescriptor Unit) :=
  [⟨"A", .empty, []⟩, ⟨"B", .empty, ["A"]⟩, ⟨"D", ⟨[("B", ())]⟩, ["B"]⟩]

/-- A new machine after these classes were installed. -/
def installedCovered : Machine Unit Unit := (ClassDescriptor.installAll coveredClasses (.start .standard ())).2

/-- The machine after a handle was made for the last class, and a script wrote `true` on it under a name that no class has. -/
def afterCovered : Machine Unit Unit :=
  (Attribute.write ⟨[.userdata ⟨20, 0⟩, .string "U", .boolean true], []⟩
    (Request.perform (call idleHost) (.wrap 0x10 "D") installedCovered).2).2

theorem mem_coveredClasses : (⟨"D", ⟨[("B", ())]⟩, ["B"]⟩ : ClassDescriptor Unit) ∈ coveredClasses.reverse ++ [] := by decide

/-- The classes are installed, and the handle has the table of its class, which fits the limits, and nothing under the name of the
base of the base; and it is no kind of the base. -/
theorem handle_afterCovered :
    (ClassDescriptor.installAll coveredClasses (.start .standard () : Machine Unit Unit)).1.toOption = some () ∧
      afterCovered.classTable? "D" = some ⟨12, 0⟩ ∧
      afterCovered.heap.object? ⟨20, 0⟩ = some (.userdata ⟨.handle 0x10, some ⟨12, 0⟩, some ⟨21, 0⟩, false⟩) ∧
      afterCovered.Fits (History.height (coveredClasses.reverse ++ []) "D") ∧
      afterCovered.shadowValue (.string "A") ⟨.handle 0x10, some ⟨12, 0⟩, some ⟨21, 0⟩, false⟩ = .nil ∧
      (Action.isKindOf (call idleHost) (.userdata ⟨20, 0⟩) "B" afterCovered).1.toOption = some false := by
  decide +kernel

theorem installAll_coveredClasses :
    ClassDescriptor.installAll coveredClasses (.start .standard ()) = (.ok (), installedCovered) :=
  Action.eq_of_fst (eq_ok_of_toOption handle_afterCovered.1)

theorem built_afterCovered : Built (coveredClasses.reverse ++ []) afterCovered :=
  (((Built.start .standard ()).install installAll_coveredClasses (by decide)).request (call idleHost) (.wrap 0x10 "D")
    trivial trivial nofun).write _

/-- The handle is a kind of the base of the base. -/
theorem isKindOf_afterCovered :
    Action.isKindOf (call idleHost) (.userdata ⟨20, 0⟩) "A" afterCovered = (.ok true, afterCovered) := by
  obtain ⟨-, hcls, hu, hfits, hshadow, -⟩ := handle_afterCovered
  obtain ⟨b, hrun, -, hdecides⟩ := isKindOf_iff built_afterCovered idleHost mem_coveredClasses hcls hu rfl rfl hfits "A"
  have hD : History.Has (coveredClasses.reverse ++ []) "D" := by decide
  have hvisits := fun c => built_afterCovered.classes.ordered.mem_preorder_iff (b := c) hD
  have hother : ∀ c ∈ History.preorder (coveredClasses.reverse ++ []) "D",
      History.HasField (coveredClasses.reverse ++ []) c "A" → c = "A" := by
    decide
  rw [hrun, (hdecides hshadow fun c hc => hother c ((hvisits c).2 hc)).2 ((hvisits "A").1 (by decide))]

/-- That a handle is a kind of a class exactly if its class is that class or has it as a direct or transitive base is false: a class
with a method by the name of its base is no kind of that base. -/
theorem isKindOf_decides_inheritance_false :
    ¬∀ (Γ : Host Unit Unit) (ds : History Unit) (m : Machine Unit Unit) (d : ClassDescriptor Unit) (cls h : Ref) (u : Userdata)
      (a : Address) (N : String), Built ds m → d ∈ ds → m.classTable? d.name = some cls →
      m.heap.object? h = some (.userdata u) → u.metatable = some cls → u.payload = .handle a → m.Fits (ds.height d.name) →
      ((Action.isKindOf (call Γ) (.userdata h) N m).1 = .ok true ↔ Relation.ReflTransGen ds.Declares d.name N) := by
  intro hall
  obtain ⟨-, hcls, hu, hfits, -, hrun⟩ := handle_afterCovered
  have hkind := (hall idleHost _ _ _ _ _ _ _ "B" built_afterCovered mem_coveredClasses hcls hu rfl rfl hfits).2
    (.single ⟨_, mem_coveredClasses, rfl, by decide⟩)
  rw [hkind] at hrun
  cases hrun

end ScriptHost

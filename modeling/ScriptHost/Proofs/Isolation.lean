import ScriptHost.Proofs.Keys
import ScriptHost.Proofs.Likeness

/-!
# Writes to handles

A write to a handle of an installed class goes through the function of the class that writes attributes, and a read through the one
that reads them. They meet in the shadow of the handle, which no other handle has. So a write that succeeds changes one entry of one
table, under the key of what it was given, and no read sees the change but one of the same handle under an equal key; a write that
fails changes nothing (`shadow_write_isolated`). All that takes native code to mind the binding layer: where another handle is given
the shadow, or the class loses the function that reads attributes, writes are not isolated (`writes_isolated_in_every_run_false`).
-/

namespace ScriptHost

variable {χ σ : Type}

/-- A table is read under the key of a value. -/
theorem Machine.rawGet_eq {m : Machine χ σ} {t : Ref} {T : Table} (hT : m.heap.object? t = some (.table T)) {key : Value} {k : Key}
    (hk : Key.ofValue key = .ok k) : m.rawGet t key = .ok (T.get k) := by
  simp only [Machine.rawGet, Heap.table_eq_ok_iff.2 hT, hk]

namespace Machine

open ScriptHost.Action

/-- The limits let a write to a handle through: one object of its chain is visited, and one function is called with three
arguments. -/
def TakesWrites (m : Machine χ σ) : Prop := 1 ≤ m.limits.maxIndexChain ∧ m.HasRoom 3

instance (m : Machine χ σ) : Decidable m.TakesWrites := inferInstanceAs (Decidable (_ ∧ _ ∧ _))

/-- The machine with another table at a reference. -/
def withTable (m : Machine χ σ) (t : Ref) (T : Table) : Machine χ σ := { m with heap := m.heap.put t.slot (.table T) }

variable {Γ : Host χ σ} {m : Machine χ σ} {h cls e writer reader : Ref} {u : Userdata} {E T : Table} {key key' v : Value} {k : Key}

theorem object?_withTable (hE : m.heap.object? e = some (.table E)) (t : Ref) :
    (m.withTable e T).heap.object? t = if t = e then some (.table T) else m.heap.object? t :=
  Heap.object?_put (Heap.contains_of_object? hE) _ t

theorem alike_withTable (hE : m.heap.object? e = some (.table E)) : m.Alike e (m.withTable e T) :=
  ⟨rfl, rfl, rfl, fun t ht => (object?_withTable hE t).trans (if_neg ht)⟩

/-! ## Writing -/

/-- A raw write is refused for what has no key. -/
theorem rawSet_of_no_key {cause : NoKey} (hk : Key.ofValue key = .error cause) :
    (rawSet e key v : Action χ σ Unit) m = (.error (.key cause), m) := by
  unfold rawSet
  rw [hk]
  rfl

theorem rawSet_of_key (hE : m.heap.object? e = some (.table E)) (hk : Key.ofValue key = .ok k) :
    rawSet e key v m = (.ok (), m.withTable e (E.set k v)) := by
  unfold rawSet
  rw [hk]
  simp only [onHeap, Heap.changeTable, Heap.table_eq_ok_iff.2 hE]
  rfl

/-- What the class of a handle does on a write: its shadow takes the value, if there is such a key. -/
theorem write_handle (hu : m.heap.object? h = some (.userdata u)) (he : u.environment = some e)
    (hE : m.heap.object? e = some (.table E)) (key v : Value) :
    Attribute.write ⟨[.userdata h, key, v], []⟩ m = match Key.ofValue key with
      | .error cause => (.error (.key cause), m)
      | .ok k => (.ok [], m.withTable e (E.set k v)) := by
  have hshadow : Attribute.shadow? m (.userdata h) = .ok (some e) := by
    simp only [Attribute.shadow?, Machine.environment, Heap.userdata_eq_ok_iff.2 hu, he]
  show Action.bind (Action.query fun m => Attribute.shadow? m (.userdata h)) _ m = _
  rw [query_bind, hshadow]
  cases hk : Key.ofValue key with
  | error cause => exact bind_of_error (rawSet_of_no_key hk)
  | ok k => exact bind_of_ok (rawSet_of_key hE hk)

/-- The first hop of a write to a userdata with a metatable that has a function for it. -/
theorem writeHop_userdata (hu : m.heap.object? h = some (.userdata u)) (hmt : u.metatable = some cls)
    (hT : m.heap.object? cls = some (.table T)) (hwrite : T.field Registry.writeName = .function writer) (key : Value) :
    m.writeHop (.userdata h) key = .ok (.enter (.function writer)) := by
  have hfield : m.metafield (.userdata h) "__newindex" = .ok (.function writer) := by
    simp only [metafield, Machine.metatable, Heap.userdata_eq_ok_iff.2 hu, hmt, rawField, Heap.table_eq_ok_iff.2 hT, ← hwrite]
    rfl
  simp only [writeHop, handlerHop, hfield]
  rfl

/-- So the function that writes attributes does, where the limits let it be called. -/
theorem call_writer (hu : m.heap.object? h = some (.userdata u)) (he : u.environment = some e)
    (hE : m.heap.object? e = some (.table E)) {n : String}
    (hwriter : m.heap.object? writer = some (.function ⟨n, .writeAttribute, []⟩)) (hroom : m.HasRoom 3) (key v : Value) :
    call Γ (.function writer) [.userdata h, key, v] m = match Key.ofValue key with
      | .error cause => (.error (.key cause), m)
      | .ok k => (.ok [], m.withTable e (E.set k v)) := by
  have hcallee : m.callee (.function writer) [.userdata h, key, v] = .ok ⟨n, .writeAttribute, []⟩ :=
    callee_eq_ok_iff.2 ⟨hroom, Heap.function_eq_ok_iff.2 hwriter⟩
  rw [call_of_callee Γ hcallee]
  have hwrite := write_handle (m := m.enter (.function writer) [.userdata h, key, v]) hu he hE key v
  simp only [Code.run, hwrite]
  cases Key.ofValue key with
  | error cause => exact Prod.ext rfl (m.leave_enter _ _)
  | ok k => exact Prod.ext rfl ((m.withTable e (E.set k v)).leave_enter _ _)

/-- A write to a handle whose class is complete: the limits refuse it, or there is no such key, or it changes the shadow of the
handle. -/
theorem Complete.setIndex_eq (hc : m.Complete cls) (hu : m.heap.object? h = some (.userdata u)) (hmt : u.metatable = some cls)
    (he : u.environment = some e) (hE : m.heap.object? e = some (.table E)) (key v : Value) :
    setIndex (call Γ) (.userdata h) key v m =
      if m.TakesWrites then
        match Key.ofValue key with
        | .error cause => (.error (.key cause), m)
        | .ok k => (.ok (), m.withTable e (E.set k v))
      else (.error .overflow, m) := by
  cases hc with
  | intro hf _ =>
    obtain ⟨T, -, writer, hT, -, -, -, hwrite, -, n, hwriter⟩ := hf.table
    show writeAlong (call Γ) key v m.limits.maxIndexChain (.userdata h) m = _
    cases hchain : m.limits.maxIndexChain with
    | zero =>
      rw [if_neg fun hw => absurd hw.1 (by omega)]
      rfl
    | succ hops =>
      rw [writeAlong_succ, writeHop_userdata hu hmt hT hwrite]
      by_cases hroom : m.HasRoom 3
      · rw [if_pos ⟨by omega, hroom⟩]
        have hcall := call_writer (Γ := Γ) hu he hE hwriter hroom key v
        cases hk : Key.ofValue key with
        | error cause =>
          rw [hk] at hcall
          exact bind_of_error hcall
        | ok k =>
          rw [hk] at hcall
          exact bind_of_ok hcall
      · rw [if_neg fun hw => hroom hw.2]
        exact bind_of_error (call_of_not_hasRoom Γ writer _ hroom)

/-! ## Reading -/

/-- The function of a class that reads attributes answers what the receiver has of its own, or else what the table of the class has,
if either has anything. -/
theorem reads_found {n : String} {bases : List Ref} {receiver own found : Value}
    (hreader : m.heap.object? reader = some (.function ⟨n, .readAttribute, (cls :: bases).map .table⟩))
    (hown : Attribute.inShadow m receiver key = .ok own) (hfound : m.rawGet cls key = .ok found)
    (hany : own.isNil = false ∨ found.isNil = false) :
    (call Γ (.function reader) [receiver, key]).Reads m (m.HasRoom 2) [if own.isNil then found else own] := by
  refine reads_call Γ hreader id (Reads.bind (a := own) (reads_query hown) ?_)
  split
  · rename_i hnil
    refine Reads.bind (a := found) ?_ (reads_pure _)
    refine Reads.bind (a := found) (reads_query hfound) ?_
    rw [hany.resolve_left (by simp [hnil])]
    exact reads_pure _
  · exact reads_pure _

/-- A handle whose class is complete is read where the limits let its writes through: what its shadow or else the table of its class
has, if either has anything. -/
theorem Complete.index_found (hc : m.Complete cls) (hw : m.TakesWrites) (hu : m.heap.object? h = some (.userdata u))
    (hmt : u.metatable = some cls) {own found : Value} (hown : Attribute.inShadow m (.userdata h) key = .ok own)
    (hfound : m.rawGet cls key = .ok found) (hany : own.isNil = false ∨ found.isNil = false) :
    index (call Γ) (.userdata h) key m = (.ok (if own.isNil then found else own), m) := by
  cases hc with
  | intro hf _ =>
    obtain ⟨T, reader, -, hT, -, -, hread, -, ⟨n, hreader⟩, -⟩ := hf.table
    have hhop : m.readHop (.userdata h) key = .ok (.enter (.function reader)) := by
      rw [readHop_userdata hu hmt hT, hread]
      rfl
    have hroom : m.HasRoom 2 := by
      have h3 := hw.2
      unfold HasRoom at h3 ⊢
      omega
    have hreads : (index (call Γ) (.userdata h) key).Reads m (m.HasRoom 2) (if own.isNil then found else own) :=
      reads_index (fun _ => hw.1) (Or.inr ⟨reader, hhop, reads_found hreader hown hfound hany⟩)
    exact hreads.resolve_right fun h => h.2 hroom

/-- Where its shadow has nothing, a handle is read like the table of its class. -/
theorem Complete.same_as_class (hc : m.Complete cls) (hw : m.TakesWrites) (he : m.Open True e)
    (hu : m.heap.object? h = some (.userdata u)) (hmt : u.metatable = some cls)
    (hown : Attribute.inShadow m (.userdata h) key = .ok .nil) :
    (index (call Γ) (.userdata h) key).Same m (index (call Γ) (.table cls) key) m := by
  obtain ⟨T, reader, hT, hself, hread⟩ : ∃ T reader, m.heap.object? cls = some (.table T) ∧ T.metatable = some cls ∧
      T.field Registry.readName = .function reader := by
    cases id hc with
    | intro hf _ =>
      obtain ⟨T, reader, -, hT, hself, -, hread, -⟩ := hf.table
      exact ⟨T, reader, hT, hself, hread⟩
  obtain ⟨found, hfound⟩ := exists_rawGet hT key
  have hhop := readHop_class hT hself hread hfound
  cases hnil : found.isNil with
  | true =>
    rw [hnil] at hhop
    refine ScriptHost.same_index (alike_refl e m) (Or.inr (Or.inl ⟨reader, ?_, hhop, ?_⟩))
    case refine_2 => exact hc.same_reader he (alike_refl e m) hT hread hown
    rw [readHop_userdata hu hmt hT, hread]
    rfl
  | false =>
    rw [hnil] at hhop
    refine ⟨.ok found, hc.index_found hw hu hmt hown hfound (Or.inr hnil), ?_⟩
    have hreads : (index (call Γ) (.table cls) key).Reads m True found := reads_index (fun _ => hw.1) (Or.inl hhop)
    exact hreads.resolve_right fun h => h.2 trivial

/-- What a handle has of its own is what its shadow has. -/
theorem inShadow_of_environment (hu : m.heap.object? h = some (.userdata u)) (he : u.environment = some e) (key : Value) :
    Attribute.inShadow m (.userdata h) key = m.rawGet e key := by
  simp only [Attribute.inShadow, Attribute.shadow?, Machine.environment, Heap.userdata_eq_ok_iff.2 hu, he]

/-- Under an equal key a table has what was put there. -/
theorem rawGet_withTable (hE : m.heap.object? e = some (.table E)) (hk : Key.ofValue key = .ok k)
    (heq : key.rawEqual key' = true) : (m.withTable e (E.set k v)).rawGet e key' = .ok v := by
  rw [rawGet_eq ((object?_withTable hE e).trans (if_pos rfl)) ((Value.rawEqual_iff_of_key hk).1 heq), Table.get_set, if_pos rfl]

/-- Under another key a table has what it had. -/
theorem rawGet_withTable_of_ne (hE : m.heap.object? e = some (.table E)) (hk : Key.ofValue key = .ok k)
    (hne : ¬key.rawEqual key' = true) : (m.withTable e (E.set k v)).rawGet e key' = m.rawGet e key' := by
  have hE' : (m.withTable e (E.set k v)).heap.object? e = some (.table (E.set k v)) :=
    (object?_withTable hE e).trans (if_pos rfl)
  rw [Value.rawEqual_iff_of_key hk] at hne
  cases hk' : Key.ofValue key' with
  | error cause => simp only [rawGet, Heap.table_eq_ok_iff.2 hE, Heap.table_eq_ok_iff.2 hE', hk']
  | ok k' =>
    rw [rawGet_eq hE hk', rawGet_eq hE' hk', Table.get_set, if_neg]
    rintro rfl
    exact hne hk'

end Machine

/-! ## Reads after a write -/

open ScriptHost.Action Machine

variable {Γ : Host χ σ}

/-- On every machine of a run in which native code minds the binding layer and installs classes with success or not at all, for every
handle of an installed class, whatever is written under whatever key: the handle has a shadow, which is that of no other handle. If
the write succeeds, the machine is what it was but for the entry of the key in that shadow. A read of the handle under any value
that is equal to the key then answers what was written, or if that was nil what the table of the class is read as. Reads of the
handle under any other key, of all other handles and of all tables with the names of classes are what they were, and none of them
changes anything. If the write fails, which it does where the limits do not let it through or there is no such key, the machine is
what it was. -/
theorem shadow_write_isolated (hΓ : Γ.Lawful Machine.Tends Machine.Tended) {m : Machine χ σ} (hm : Reached Γ Machine.Tends m)
    {name : String} {cls h : Ref} {u : Userdata} {a : Address} (hcls : m.classTable? name = some cls)
    (hu : m.heap.object? h = some (.userdata u)) (hpay : u.payload = .handle a) (hclass : u.metatable = some cls) (key v : Value) :
    ∃ e E, u.environment = some e ∧ m.heap.object? e = some (.table E) ∧
      (∀ r w b, m.heap.object? r = some (.userdata w) → w.payload = .handle b → w.environment = some e → r = h) ∧
      ((∃ fault, setIndex (call Γ) (.userdata h) key v m = (.error fault, m) ∧
          (¬m.TakesWrites ∧ fault = .overflow ∨ ∃ cause, Key.ofValue key = .error cause ∧ fault = .key cause)) ∨
        ∃ k m', Key.ofValue key = .ok k ∧ setIndex (call Γ) (.userdata h) key v m = (.ok (), m') ∧
          m' = m.withTable e (E.set k v) ∧
          (∀ t, m'.heap.object? t = if t = e then some (.table (E.set k v)) else m.heap.object? t) ∧
          (∀ key', key.rawEqual key' = true → v ≠ .nil → index (call Γ) (.userdata h) key' m' = (.ok v, m')) ∧
          (∀ key', key.rawEqual key' = true → v = .nil →
            (index (call Γ) (.userdata h) key').Same m' (index (call Γ) (.table cls) key') m') ∧
          (∀ key', ¬key.rawEqual key' = true →
            (index (call Γ) (.userdata h) key').Same m (index (call Γ) (.userdata h) key') m') ∧
          (∀ r w b, m.heap.object? r = some (.userdata w) → w.payload = .handle b → r ≠ h → ∀ key',
            (index (call Γ) (.userdata r) key').Same m (index (call Γ) (.userdata r) key') m') ∧
          ∀ n t, n ∉ Registry.reserved → m.Registered n t → ∀ key',
            (index (call Γ) (.table t) key').Same m (index (call Γ) (.table t) key') m') := by
  have ht := hm.tended hΓ
  have hname : name ∉ Registry.reserved := by
    intro hname
    rw [ht.managed.classTable?_of_reserved hname] at hcls
    cases hcls
  have hc := ht.completed.complete_of_classTable? hname hcls
  obtain ⟨e, he, -⟩ := ht.managed.rostered.shadow h u a hu hpay
  have hopen := ht.completed.environment h u e hu he
  obtain ⟨⟨E, hE⟩, hwritable⟩ := id hopen
  have hset := hc.setIndex_eq (Γ := Γ) hu hclass he hE key v
  refine ⟨e, E, he, hE, fun r w b hw hwpay hwe => ht.shadows r h w u b a e hw hu hwpay hpay hwe he, ?_⟩
  by_cases hw : m.TakesWrites
  case neg =>
    rw [if_neg hw] at hset
    exact Or.inl ⟨_, hset, Or.inl ⟨hw, rfl⟩⟩
  rw [if_pos hw] at hset
  cases hk : Key.ofValue key with
  | error cause =>
    rw [hk] at hset
    exact Or.inl ⟨_, hset, Or.inr ⟨cause, rfl, rfl⟩⟩
  | ok k =>
    rw [hk] at hset
    refine Or.inr ⟨k, m.withTable e (E.set k v), rfl, hset, rfl, object?_withTable hE, ?_⟩
    have halike : m.Alike e (m.withTable e (E.set k v)) := alike_withTable hE
    have hedit : m.Edit True (m.withTable e (E.set k v)) := by
      have h : m.Edit True (Action.rawSet e key v m).2 := ht.completed.toUnshared.edit_rawSet (Or.inl hwritable)
      rwa [rawSet_of_key hE hk] at h
    have hc' := hc.edit ht.completed.toUnshared hedit
    -- a userdata is not the table that was written
    have huserdata : ∀ {r w}, m.heap.object? r = some (.userdata w) →
        (m.withTable e (E.set k v)).heap.object? r = some (.userdata w) :=
      fun hw => (halike.object _ (Heap.ne_of_table_of_userdata hE hw).symm).trans hw
    have hown : ∀ key', key.rawEqual key' = true →
        Attribute.inShadow (m.withTable e (E.set k v)) (.userdata h) key' = .ok v := fun key' heq =>
      (inShadow_of_environment (huserdata hu) he key').trans (rawGet_withTable hE hk heq)
    refine ⟨fun key' heq hv => ?_, fun key' heq hv => ?_, fun key' hne => ?_, fun r w b hw hwpay hrh key' => ?_,
      fun n t hn ht' key' => ht.completed.same_class hopen halike hn ht' key'⟩
    · obtain ⟨T, hT⟩ := hc'.exists_table
      obtain ⟨found, hfound⟩ := exists_rawGet hT key'
      have hnil : v.isNil = false := by cases v <;> simp_all [Value.isNil]
      have hindex := hc'.index_found (Γ := Γ) hw (huserdata hu) hclass (hown key' heq) hfound (Or.inl hnil)
      rwa [hnil] at hindex
    · subst hv
      exact hc'.same_as_class hw (hedit.open hopen) (huserdata hu) hclass (hown key' heq)
    · refine ht.same_handle hopen halike hu hpay (inShadow_congr hu (huserdata hu) fun s hs => ?_)
      cases he.symm.trans hs
      exact rawGet_withTable_of_ne hE hk hne
    · refine ht.same_handle hopen halike hw hwpay (inShadow_congr hw (huserdata hw) fun s hs => rawGet_congr (halike.object s ?_) _)
      rintro rfl
      exact hrh (ht.shadows r h w u b a s hw hu hwpay hpay hs he)

/-! ## Two handles of a class -/

/-- A new machine after two classes were installed, one a base of the other, and two handles were made for the other. -/
def twoHandles : Machine Unit Unit :=
  let m := (Request.perform (call idleHost) (.installClasses [⟨"A", ⟨[("f", ())]⟩, []⟩, ⟨"B", .empty, ["A"]⟩])
    (.start .standard ())).2
  let m := (Request.perform (call idleHost) (.wrap 0x10 "B") m).2
  (Request.perform (call idleHost) (.wrap 0x20 "B") m).2

theorem reached_twoHandles : Reached idleHost Machine.Tends twoHandles := by
  have hwrap : ∀ {m : Machine Unit Unit} {a : Address}, m.Tends (.wrap a "B") := ⟨Or.inr ⟨trivial, Or.inl (by decide)⟩, nofun⟩
  refine (((Reached.start .standard ()).request (.installClasses _) ⟨trivial, fun classes e => ?_⟩).request (.wrap _ _)
    hwrap).request (.wrap _ _) hwrap
  cases e
  exact Or.inr (eq_ok_of_toOption (by decide +kernel))

/-- The number one, as a double. -/
def numberOne : Value := .number ⟨0x3FF0000000000000⟩

/-- The handles are there and the limits let writes through. The double and the integer are equal. -/
theorem handles_twoHandles :
    twoHandles.classTable? "B" = some ⟨8, 0⟩ ∧ twoHandles.TakesWrites ∧
      twoHandles.heap.object? ⟨15, 0⟩ = some (.userdata ⟨.handle 0x10, some ⟨8, 0⟩, some ⟨16, 0⟩, false⟩) ∧
      twoHandles.heap.object? ⟨17, 0⟩ = some (.userdata ⟨.handle 0x20, some ⟨8, 0⟩, some ⟨18, 0⟩, false⟩) ∧
      (Key.ofValue numberOne).toOption = some (.integer 1) ∧ numberOne.rawEqual (.integer 1) = true := by
  decide +kernel

/-- What is written to one handle under the double is read there under the integer, and no read of the other handle sees it. -/
theorem shadow_write_isolated_twoHandles :
    ∃ m', setIndex (call idleHost) (.userdata ⟨15, 0⟩) numberOne (.integer 7) twoHandles = (.ok (), m') ∧
      index (call idleHost) (.userdata ⟨15, 0⟩) (.integer 1) m' = (.ok (.integer 7), m') ∧
      ∀ key, (index (call idleHost) (.userdata ⟨17, 0⟩) key).Same twoHandles
        (index (call idleHost) (.userdata ⟨17, 0⟩) key) m' := by
  obtain ⟨hcls, hw, hu, hother, hk, heq⟩ := handles_twoHandles
  obtain ⟨e, E, -, -, -, ⟨fault, -, ⟨hn, -⟩ | ⟨cause, hcause, -⟩⟩ | ⟨k, m', -, hset, -, -, hread, -, -, hsame, -⟩⟩ :=
    shadow_write_isolated lawful_idleHost reached_twoHandles hcls hu rfl rfl numberOne (.integer 7)
  · exact absurd hw hn
  · rw [hcause] at hk
    cases hk
  · exact ⟨m', hset, hread _ heq nofun, hsame _ _ _ hother rfl (by decide)⟩

/-! ## Native code that does not mind the binding layer -/

namespace Machine

/-- A new machine after requests, one after the other. -/
def requested (requests : List (Request Unit Unit)) : Machine Unit Unit :=
  requests.foldl (fun m r => (r.perform (call idleHost) m).2) (.start .standard ())

/-- It is a machine of a run. -/
theorem reached_requested (requests : List (Request Unit Unit)) : Reached idleHost (fun _ _ => True) (requested requests) := by
  have hreached : ∀ m, Reached idleHost (fun _ _ => True) m →
      Reached idleHost (fun _ _ => True) (requests.foldl (fun m r => (r.perform (call idleHost) m).2) m) := by
    induction requests with
    | nil => exact fun _ hm => hm
    | cons r rest ih => exact fun m hm => ih _ (hm.request r trivial)
  exact hreached _ (.start .standard ())

/-- What a write to a handle should not show in: another handle, or the table of an installed class. -/
inductive Bystander (m : Machine Unit Unit) (h : Ref) : Value → Prop where
  | handle {r : Ref} {w : Userdata} {b : Address} (hr : m.heap.object? r = some (.userdata w)) (hpay : w.payload = .handle b)
      (other : r ≠ h) : Bystander m h (.userdata r)
  | table {name : String} {t : Ref} (ht : m.classTable? name = some t) : Bystander m h (.table t)

/-- The handle is one of an installed class. -/
def Classed (m : Machine Unit Unit) (h : Ref) : Prop :=
  ∃ name cls u a, m.classTable? name = some cls ∧ m.heap.object? h = some (.userdata u) ∧ u.payload = .handle a ∧
    u.metatable = some cls

/-- What is written to the handle is read back, and no read of a bystander sees the write. -/
def Isolates (m : Machine Unit Unit) (h : Ref) : Prop :=
  ∀ key v m', setIndex (call idleHost) (.userdata h) key v m = (.ok (), m') →
    (v ≠ .nil → index (call idleHost) (.userdata h) key m' = (.ok v, m')) ∧
    ∀ w, m.Bystander h w → ∀ key', (index (call idleHost) w key').Same m (index (call idleHost) w key') m'

variable {m : Machine Unit Unit} {h : Ref} {v w : Value}

/-- The handle has the class of the name, with its table, and the shadow. -/
def HandleOf (m : Machine Unit Unit) (name : String) (h cls shadow : Ref) : Prop :=
  m.classTable? name = some cls ∧ m.heap.object? h = some (.userdata ⟨.handle 0x10, some cls, some shadow, false⟩)

instance (m : Machine Unit Unit) (name : String) (h cls shadow : Ref) : Decidable (m.HandleOf name h cls shadow) :=
  inferInstanceAs (Decidable (_ ∧ _))

/-- What is written to the handle is not read back. -/
def LosesWrite (m : Machine Unit Unit) (h : Ref) (key v : Value) : Prop :=
  (setIndex (call idleHost) (.userdata h) key v m).1.toOption = some () ∧
    (index (call idleHost) (.userdata h) key (setIndex (call idleHost) (.userdata h) key v m).2).1.toOption ≠ some v

instance (m : Machine Unit Unit) (h : Ref) (key v : Value) : Decidable (m.LosesWrite h key v) :=
  inferInstanceAs (Decidable (_ ∧ _))

/-- A read of the value answers something else after what is written to the handle. -/
def ShowsWrite (m : Machine Unit Unit) (h : Ref) (key v w key' : Value) : Prop :=
  (setIndex (call idleHost) (.userdata h) key v m).1.toOption = some () ∧
    (index (call idleHost) w key' m).1.toOption ≠
      (index (call idleHost) w key' (setIndex (call idleHost) (.userdata h) key v m).2).1.toOption

instance (m : Machine Unit Unit) (h : Ref) (key v w key' : Value) : Decidable (m.ShowsWrite h key v w key') :=
  inferInstanceAs (Decidable (_ ∧ _))

/-- A write that is not read back is not isolated. -/
theorem LosesWrite.not_isolates {key : Value} (hloses : m.LosesWrite h key v) (hv : v ≠ .nil) : ¬m.Isolates h := by
  intro hisolates
  obtain ⟨hwrite, hread⟩ := hloses
  obtain ⟨hback, -⟩ := hisolates key v _ (Action.eq_of_fst (eq_ok_of_toOption hwrite))
  rw [hback hv] at hread
  exact hread rfl

/-- Nor is one that a read of a bystander sees. -/
theorem ShowsWrite.not_isolates {key key' : Value} (hshows : m.ShowsWrite h key v w key') (hw : m.Bystander h w) : ¬m.Isolates h := by
  intro hisolates
  obtain ⟨hwrite, hread⟩ := hshows
  obtain ⟨-, hsame⟩ := hisolates key v _ (Action.eq_of_fst (eq_ok_of_toOption hwrite))
  obtain ⟨r, hbefore, hafter⟩ := hsame w hw key'
  rw [hbefore, hafter] at hread
  exact hread rfl

end Machine

/-- If the requests lead to a handle of an installed class, and do not give it another environment, writes to it are isolated. -/
def IsolatedAfter (requests : List (Request Unit Unit)) (h : Ref) : Prop :=
  (∀ env, Request.setEnvironment h env ∉ requests) → (requested requests).Classed h → (requested requests).Isolates h

/-- Two classes, one a base of the other, and two handles of the other. -/
def pairOfHandles : List (Request Unit Unit) :=
  [.installClasses [⟨"A", .empty, []⟩, ⟨"B", .empty, ["A"]⟩], .wrap 0x10 "B", .wrap 0x20 "B"]

/-- The second handle is given the shadow of the first. -/
def sharedShadow : List (Request Unit Unit) := pairOfHandles ++ [.setEnvironment ⟨16, 0⟩ (some ⟨15, 0⟩)]

/-- The second handle is given a metatable that sends reads to the shadow of the first. -/
def handleRedirected : List (Request Unit Unit) :=
  pairOfHandles ++ [.newTable, .rawSet ⟨18, 0⟩ (.string "__index") (.table ⟨15, 0⟩),
    .setMetatable (.userdata ⟨16, 0⟩) (some ⟨18, 0⟩)]

/-- The table of the base is given such a metatable. -/
def classRedirected : List (Request Unit Unit) :=
  pairOfHandles ++ [.newTable, .rawSet ⟨18, 0⟩ (.string "__index") (.table ⟨15, 0⟩),
    .setMetatable (.table ⟨2, 0⟩) (some ⟨18, 0⟩)]

/-- The class loses the function that reads attributes. -/
def readerRemoved : List (Request Unit Unit) := pairOfHandles ++ [.rawSet ⟨7, 0⟩ (.string "__index") .nil]

/-- So it does through a userdata whose environment is the table of the class. -/
def readerOverwritten : List (Request Unit Unit) :=
  pairOfHandles ++ [.newUserdata .unit, .setEnvironment ⟨18, 0⟩ (some ⟨7, 0⟩), .setMetatable (.userdata ⟨18, 0⟩) (some ⟨7, 0⟩),
    .setIndex (.userdata ⟨18, 0⟩) (.string "__index") .nil]

/-- A table that sends reads to the shadow of a handle is put into the registry as that of a class. -/
def classForged : List (Request Unit Unit) :=
  pairOfHandles ++ [.newTable, .rawSet ⟨18, 0⟩ (.string "__index") (.table ⟨15, 0⟩), .rawSet ⟨18, 0⟩ (.string "C") (.boolean true),
    .setMetatable (.table ⟨18, 0⟩) (some ⟨18, 0⟩), .rawSet ⟨0, 0⟩ (.string "C") (.table ⟨18, 0⟩)]

/-- A third handle is wrapped under the name of the enumerations, one of which is named `__index` and sends reads to the shadow of
the first handle. -/
def enumerationsWrapped : List (Request Unit Unit) :=
  pairOfHandles ++ [.defineEnums [⟨"__index", []⟩], .newTable, .rawSet ⟨20, 0⟩ (.string "__index") (.table ⟨15, 0⟩),
    .setMetatable (.table ⟨19, 0⟩) (some ⟨20, 0⟩), .wrap 0x30 Registry.enumerations]

/-- A class named `__index` is installed, and then once more with a base that is not installed at its turn. -/
def begunAgain : List (Request Unit Unit) :=
  [.installClasses [⟨"__index", .empty, []⟩], .installClasses [⟨"__gc", .empty, []⟩, ⟨"__index", .empty, ["__gc"]⟩],
    .wrap 0x10 "__index"]

theorem not_isolatedAfter {requests : List (Request Unit Unit)} {name : String} {h cls shadow : Ref}
    (hclass : (requested requests).HandleOf name h cls shadow) (henvironment : ∀ env, Request.setEnvironment h env ∉ requests)
    (hnot : ¬(requested requests).Isolates h) : ¬IsolatedAfter requests h :=
  fun hafter => hnot (hafter henvironment ⟨name, cls, _, 0x10, hclass.1, hclass.2, rfl, rfl⟩)

/-- What the runs come to: a handle of an installed class, and a write to it that shows elsewhere, or is not read back. -/
theorem runs_leak :
    ((requested sharedShadow).HandleOf "B" ⟨14, 0⟩ ⟨7, 0⟩ ⟨15, 0⟩ ∧
      (requested sharedShadow).heap.object? ⟨16, 0⟩ = some (.userdata ⟨.handle 0x20, some ⟨7, 0⟩, some ⟨15, 0⟩, false⟩) ∧
      (requested sharedShadow).ShowsWrite ⟨14, 0⟩ (.string "x") (.integer 7) (.userdata ⟨16, 0⟩) (.string "x")) ∧
    ((requested handleRedirected).HandleOf "B" ⟨14, 0⟩ ⟨7, 0⟩ ⟨15, 0⟩ ∧
      (requested handleRedirected).heap.object? ⟨16, 0⟩ = some (.userdata ⟨.handle 0x20, some ⟨18, 0⟩, some ⟨17, 0⟩, false⟩) ∧
      (requested handleRedirected).ShowsWrite ⟨14, 0⟩ (.string "x") (.integer 7) (.userdata ⟨16, 0⟩) (.string "x")) ∧
    ((requested classRedirected).HandleOf "B" ⟨14, 0⟩ ⟨7, 0⟩ ⟨15, 0⟩ ∧
      (requested classRedirected).classTable? "A" = some ⟨2, 0⟩ ∧
      (requested classRedirected).ShowsWrite ⟨14, 0⟩ (.string "x") (.integer 7) (.table ⟨2, 0⟩) (.string "x")) ∧
    ((requested readerRemoved).HandleOf "B" ⟨14, 0⟩ ⟨7, 0⟩ ⟨15, 0⟩ ∧
      (requested readerRemoved).LosesWrite ⟨14, 0⟩ (.string "x") (.integer 7)) ∧
    ((requested readerOverwritten).HandleOf "B" ⟨14, 0⟩ ⟨7, 0⟩ ⟨15, 0⟩ ∧
      (requested readerOverwritten).LosesWrite ⟨14, 0⟩ (.string "x") (.integer 7)) ∧
    ((requested classForged).HandleOf "B" ⟨14, 0⟩ ⟨7, 0⟩ ⟨15, 0⟩ ∧
      (requested classForged).classTable? "C" = some ⟨18, 0⟩ ∧
      (requested classForged).ShowsWrite ⟨14, 0⟩ (.string "x") (.integer 7) (.table ⟨18, 0⟩) (.string "x")) ∧
    ((requested enumerationsWrapped).HandleOf "B" ⟨14, 0⟩ ⟨7, 0⟩ ⟨15, 0⟩ ∧
      (requested enumerationsWrapped).heap.object? ⟨21, 0⟩ = some (.userdata ⟨.handle 0x30, some ⟨18, 0⟩, some ⟨22, 0⟩, false⟩) ∧
      (requested enumerationsWrapped).ShowsWrite ⟨14, 0⟩ (.string "x") (.integer 7) (.userdata ⟨21, 0⟩) (.string "x")) ∧
    ((requested begunAgain).HandleOf "__index" ⟨14, 0⟩ ⟨2, 0⟩ ⟨15, 0⟩ ∧
      (requested begunAgain).LosesWrite ⟨14, 0⟩ (.string "x") (.integer 7)) := by
  decide +kernel

theorem not_isolatedAfter_sharedShadow : ¬IsolatedAfter sharedShadow ⟨14, 0⟩ := by
  obtain ⟨⟨hclass, hother, hshows⟩, -⟩ := runs_leak
  exact not_isolatedAfter hclass (by simp [sharedShadow, pairOfHandles]) (hshows.not_isolates (.handle hother rfl (by decide)))

theorem not_isolatedAfter_handleRedirected : ¬IsolatedAfter handleRedirected ⟨14, 0⟩ := by
  obtain ⟨-, ⟨hclass, hother, hshows⟩, -⟩ := runs_leak
  exact not_isolatedAfter hclass (by simp [handleRedirected, pairOfHandles]) (hshows.not_isolates (.handle hother rfl (by decide)))

theorem not_isolatedAfter_classRedirected : ¬IsolatedAfter classRedirected ⟨14, 0⟩ := by
  obtain ⟨-, -, ⟨hclass, hbase, hshows⟩, -⟩ := runs_leak
  exact not_isolatedAfter hclass (by simp [classRedirected, pairOfHandles]) (hshows.not_isolates (.table hbase))

theorem not_isolatedAfter_readerRemoved : ¬IsolatedAfter readerRemoved ⟨14, 0⟩ := by
  obtain ⟨-, -, -, ⟨hclass, hloses⟩, -⟩ := runs_leak
  exact not_isolatedAfter hclass (by simp [readerRemoved, pairOfHandles]) (hloses.not_isolates nofun)

theorem not_isolatedAfter_readerOverwritten : ¬IsolatedAfter readerOverwritten ⟨14, 0⟩ := by
  obtain ⟨-, -, -, -, ⟨hclass, hloses⟩, -⟩ := runs_leak
  exact not_isolatedAfter hclass (by simp [readerOverwritten, pairOfHandles]) (hloses.not_isolates nofun)

theorem not_isolatedAfter_classForged : ¬IsolatedAfter classForged ⟨14, 0⟩ := by
  obtain ⟨-, -, -, -, -, ⟨hclass, hforged, hshows⟩, -⟩ := runs_leak
  exact not_isolatedAfter hclass (by simp [classForged, pairOfHandles]) (hshows.not_isolates (.table hforged))

theorem not_isolatedAfter_enumerationsWrapped : ¬IsolatedAfter enumerationsWrapped ⟨14, 0⟩ := by
  obtain ⟨-, -, -, -, -, -, ⟨hclass, hother, hshows⟩, -⟩ := runs_leak
  exact not_isolatedAfter hclass (by simp [enumerationsWrapped, pairOfHandles])
    (hshows.not_isolates (.handle hother rfl (by decide)))

theorem not_isolatedAfter_begunAgain : ¬IsolatedAfter begunAgain ⟨14, 0⟩ := by
  obtain ⟨-, -, -, -, -, -, -, hclass, hloses⟩ := runs_leak
  exact not_isolatedAfter hclass (by simp [begunAgain]) (hloses.not_isolates nofun)

/-- It is not enough that the handle keeps its own shadow. Other handles must keep their shadows and their metatables, the tables of
classes must be neither written nor given a metatable, by hand or as the environment of a userdata, and the registry must not be
written by hand, nor a handle wrapped under a reserved name. And no list of classes must be installed in part: a class that has the
name of a metamethod can lose that metamethod so. -/
theorem writes_isolated_in_every_run_false :
    ¬IsolatedAfter sharedShadow ⟨14, 0⟩ ∧ ¬IsolatedAfter handleRedirected ⟨14, 0⟩ ∧ ¬IsolatedAfter classRedirected ⟨14, 0⟩ ∧
      ¬IsolatedAfter readerRemoved ⟨14, 0⟩ ∧ ¬IsolatedAfter readerOverwritten ⟨14, 0⟩ ∧ ¬IsolatedAfter classForged ⟨14, 0⟩ ∧
      ¬IsolatedAfter enumerationsWrapped ⟨14, 0⟩ ∧ ¬IsolatedAfter begunAgain ⟨14, 0⟩ :=
  ⟨not_isolatedAfter_sharedShadow, not_isolatedAfter_handleRedirected, not_isolatedAfter_classRedirected,
    not_isolatedAfter_readerRemoved, not_isolatedAfter_readerOverwritten, not_isolatedAfter_classForged,
    not_isolatedAfter_enumerationsWrapped, not_isolatedAfter_begunAgain⟩

end ScriptHost

import ScriptHost.Proofs.Interning
import ScriptHost.Proofs.Refusal

/-!
# What is guarded

What the operations do to tables and userdata that something depends on. An operation of the binding layer writes the tables it
makes, the registry under the names it makes tables for, the tables it finds under names of the registry, and the globals under the
names of namespaces; the payload of a userdata that is no handle it leaves. So guarded tables that are none of these stay what they
are, but for the keys that are free (`Action.Heeds`), and so they do in every event that does not write them by hand
(`Secured.upholds_after`).
-/

namespace ScriptHost

variable {χ σ α β : Type}

/-- The second table is the first one, apart from the entries under the keys. -/
def Table.SameBut (S : Key → Prop) (T T' : Table) : Prop := T'.metatable = T.metatable ∧ ∀ k, ¬S k → T'.find? k = T.find? k

namespace Table.SameBut

variable {S : Key → Prop} {T T' T'' : Table}

theorem refl (T : Table) : T.SameBut S T := ⟨rfl, fun _ _ => rfl⟩

theorem trans (h : T.SameBut S T') (h' : T'.SameBut S T'') : T.SameBut S T'' :=
  ⟨h'.1.trans h.1, fun k hk => (h'.2 k hk).trans (h.2 k hk)⟩

theorem set {k : Key} (hk : S k) (v : Value) : T.SameBut S (T.set k v) := by
  refine ⟨Table.metatable_set T k v, fun k' hk' => ?_⟩
  rw [Table.find?_set, if_neg]
  rintro rfl
  exact hk' hk

theorem erase {k : Key} (hk : S k) : T.SameBut S (T.erase k) := by
  refine ⟨rfl, fun k' hk' => ?_⟩
  rw [Table.find?_erase, if_neg]
  rintro rfl
  exact hk' hk

theorem get (h : T.SameBut S T') {k : Key} (hk : ¬S k) : T'.get k = T.get k := by
  unfold Table.get
  rw [h.2 k hk]

end Table.SameBut

/-- Tables that are guarded but for the keys that are free, userdata whose payloads are guarded, the registry and the globals, and
names of the registry that are not those of guarded tables. Under these a guarded registry may change. -/
structure Guard where
  tables : Ref → Prop
  free : Ref → Key → Prop
  payloads : Ref → Prop
  registry : Ref
  globals : Ref
  foreign : String → Prop
  opens : ∀ name, foreign name → tables registry → free registry (.string name)

namespace Guard

/-- The registry may change under the name. -/
def Opens (G : Guard) (name : String) : Prop := G.tables G.registry → G.free G.registry (.string name)

/-- The value is no guarded table. -/
def Loose (G : Guard) (v : Value) : Prop := ∀ t, v = .table t → ¬G.tables t

/-- What may become of the object of a reference. -/
def Lets (G : Guard) (r : Ref) : Object χ → Object χ → Prop
  | .table T, o => ∃ T', o = .table T' ∧ (G.tables r → T.SameBut (G.free r) T')
  | .userdata u, o => ∃ u', o = .userdata u' ∧ u'.finalized = u.finalized ∧ (G.payloads r → u'.payload = u.payload)
  | .function f, o => o = .function f

variable {G : Guard} {r : Ref} {o o' o'' : Object χ}

theorem lets_refl (o : Object χ) : G.Lets r o o := by
  cases o with
  | table T => exact ⟨T, rfl, fun _ => .refl T⟩
  | userdata u => exact ⟨u, rfl, rfl, fun _ => rfl⟩
  | function f => rfl

theorem Lets.trans (h : G.Lets r o o') (h' : G.Lets r o' o'') : G.Lets r o o'' := by
  cases o with
  | table T =>
    obtain ⟨T', rfl, hsame⟩ := h
    obtain ⟨T'', rfl, hsame'⟩ := h'
    exact ⟨T'', rfl, fun ht => (hsame ht).trans (hsame' ht)⟩
  | userdata u =>
    obtain ⟨u', rfl, hflag, hpay⟩ := h
    obtain ⟨u'', rfl, hflag', hpay'⟩ := h'
    exact ⟨u'', rfl, hflag'.trans hflag, fun hr => (hpay' hr).trans (hpay hr)⟩
  | function f =>
    cases h
    exact h'

end Guard

namespace Machine

/-- What is guarded is there, no guarded table is under a foreign name, and no guarded payload is that of a handle. -/
structure Secured (G : Guard) (m : Machine χ σ) : Prop where
  wellFormed : m.heap.WellFormed
  registry : m.registry = G.registry ∧ ∃ R, m.heap.object? G.registry = some (.table R)
  globals : m.globals = G.globals
  there : ∀ t, G.tables t ∨ G.payloads t → m.heap.contains t = true
  foreign : ∀ name t, G.foreign name → m.Registered name t → ¬G.tables t
  payload : ∀ r u a, G.payloads r → m.heap.object? r = some (.userdata u) → u.payload ≠ .handle a

/-- Every object has become what the guard lets it. -/
def Upholds (G : Guard) (m m' : Machine χ σ) : Prop :=
  ∀ r o, m.heap.object? r = some o → ∃ o', m'.heap.object? r = some o' ∧ G.Lets r o o'

variable {G : Guard} {m m' m'' : Machine χ σ} {r : Ref} {o : Object χ}

theorem upholds_of_object?_eq (h : ∀ r, m'.heap.object? r = m.heap.object? r) : m.Upholds G m' :=
  fun r o ho => ⟨o, (h r).trans ho, Guard.lets_refl o⟩

theorem upholds_refl (m : Machine χ σ) : m.Upholds G m := upholds_of_object?_eq fun _ => rfl

theorem Upholds.trans (h : m.Upholds G m') (h' : m'.Upholds G m'') : m.Upholds G m'' := by
  intro r o ho
  obtain ⟨o', ho', hlets⟩ := h r o ho
  obtain ⟨o'', ho'', hlets'⟩ := h' r o' ho'
  exact ⟨o'', ho'', hlets.trans hlets'⟩

theorem Upholds.table (h : m.Upholds G m') (hr : G.tables r) {T : Table} (hT : m.heap.object? r = some (.table T)) :
    ∃ T', m'.heap.object? r = some (.table T') ∧ T.SameBut (G.free r) T' := by
  obtain ⟨o, ho, T', rfl, hsame⟩ := h r _ hT
  exact ⟨T', ho, hsame hr⟩

theorem Upholds.userdata (h : m.Upholds G m') {u : Userdata} (hu : m.heap.object? r = some (.userdata u)) :
    ∃ u', m'.heap.object? r = some (.userdata u') ∧ u'.finalized = u.finalized ∧ (G.payloads r → u'.payload = u.payload) := by
  obtain ⟨o, ho, u', rfl, hrest⟩ := h r _ hu
  exact ⟨u', ho, hrest⟩

theorem Upholds.contains (h : m.Upholds G m') (hr : m.heap.contains r = true) : m'.heap.contains r = true := by
  obtain ⟨o, ho⟩ := Heap.contains_iff.1 hr
  obtain ⟨o', ho', -⟩ := h r o ho
  exact Heap.contains_of_object? ho'

/-- Going on with what is guarded. -/
def guarding (G : Guard) : Discipline χ σ where
  Inv := Secured G
  Next := Upholds G
  refl := upholds_refl
  trans _ _ _ := Upholds.trans

/-- One object is written as the guard lets it, or made, and no guarded table gets a foreign name. -/
theorem Secured.written (hm : m.Secured G) (h : m.Written m' r o) (hlets : ∀ p, m.heap.object? r = some p → G.Lets r p o)
    (hnames : r = G.registry → ∀ R name t, o = .table R → G.foreign name → R.field name = .table t → G.tables t →
      m.Registered name t) : m'.Secured G ∧ m.Upholds G m' := by
  have hupholds : m.Upholds G m' := by
    intro s p hp
    by_cases hs : s = r
    · subst hs
      exact ⟨o, h.self, hlets p hp⟩
    · exact ⟨p, (h.other hs).trans hp, Guard.lets_refl p⟩
  obtain ⟨hregistry, R, hR⟩ := hm.registry
  obtain ⟨o', hR', R', rfl, -⟩ := hupholds _ _ hR
  refine ⟨⟨h.wellFormed, ⟨h.registry.trans hregistry, R', hR'⟩, h.globals.trans hm.globals,
    fun t ht => hupholds.contains (hm.there t ht), fun name t hname ht hguarded => ?_, fun s u' a hs hu' => ?_⟩, hupholds⟩
  · refine hm.foreign name t hname ?_ hguarded
    by_cases hr : r = G.registry
    · subst hr
      cases h.self.symm.trans hR'
      refine hnames rfl R' name t rfl hname ?_ hguarded
      rwa [registered_iff (by rw [h.registry, hregistry]; exact hR')] at ht
    · refine (registered_congr ?_ name t).1 ht
      rw [h.registry, hregistry]
      exact h.other (Ne.symm hr)
  · obtain ⟨p, hp⟩ := Heap.contains_iff.1 (hm.there s (Or.inr hs))
    obtain ⟨p', hp', hlets'⟩ := hupholds s p hp
    cases hu'.symm.trans hp'
    cases p with
    | table T =>
      obtain ⟨T', e, -⟩ := hlets'
      cases e
    | userdata u =>
      obtain ⟨u'', e, -, hpay⟩ := hlets'
      cases e
      rw [hpay hs]
      exact hm.payload s u a hs hp
    | function f => cases hlets'

end Machine

namespace Action

open Discipline Machine

/-- The action upholds what is guarded, and this holds of its answer. -/
def Heeds (G : Guard) (x : Action χ σ α) (Q : α → Prop) : Prop := (guarding G).Keeps (fun _ => True) x fun a _ => Q a

variable {G : Guard} {Q : α → Prop} {Q' : β → Prop} {s : Ref}

theorem Heeds.bind {x : Action χ σ α} {f : α → Action χ σ β} (hx : Heeds G x Q) (hf : ∀ a, Q a → Heeds G (f a) Q') :
    Heeds G (x >>= f) Q' :=
  Keeps.bind hx fun a m hm hq => hf a hq m hm trivial

theorem heeds_still {x : Action χ σ α} (hx : ∀ m, (x m).2 = m) (hQ : ∀ m a, m.Secured G → (x m).1 = .ok a → Q a) :
    Heeds G x Q :=
  keeps_of_still hx fun m a hm _ => hQ m a hm

theorem heeds_pure {a : α} (h : Q a) : Heeds G (pure a : Action χ σ α) Q := keeps_pure fun _ _ _ => h

theorem heeds_fail (e : Fault) : Heeds G (fail e : Action χ σ α) Q := keeps_fail e

theorem heeds_query (f : Machine χ σ → Except Fault α) : Heeds G (query f) fun _ => True :=
  heeds_still (fun _ => rfl) fun _ _ _ _ => trivial

/-- An action that writes one object, if it does anything. -/
theorem heeds_of_written {x : Action χ σ α} (h : ∀ m : Machine χ σ, m.Secured G → (x m).2.Secured G ∧ m.Upholds G (x m).2) :
    Heeds G x fun _ => True :=
  fun m hm _ => ⟨(h m hm).1, (h m hm).2, fun _ _ => trivial⟩

/-! ## Raw access -/

/-- What is made is not guarded. -/
theorem heeds_allocate {o : Object χ} (ho : ∀ t, o = .table t → t.Unique) :
    Heeds G (allocate o : Action χ σ Ref) fun r => ¬G.tables r := by
  intro m hm _
  obtain ⟨r, m', h, hfresh, hwritten⟩ := exists_allocate hm.wellFormed ho
  obtain ⟨-, R, hR⟩ := hm.registry
  obtain ⟨hm', hupholds⟩ := hm.written hwritten (fun p hp => absurd (Heap.contains_of_object? hp) hfresh)
    fun e => absurd e.symm (ne_of_not_contains hfresh hR)
  rw [h]
  refine ⟨hm', hupholds, fun a ha => ?_⟩
  cases ha
  exact fun ht => hfresh (hm.there r (Or.inl ht))

theorem heeds_newTable : Heeds G (newTable : Action χ σ Ref) fun r => ¬G.tables r :=
  heeds_allocate fun _ e => Object.table.inj e ▸ Table.unique_empty

theorem heeds_newUserdata (p : Payload) : Heeds G (newUserdata p : Action χ σ Ref) fun r => ¬G.tables r :=
  heeds_allocate fun _ e => nomatch e

theorem heeds_newFunction (name : String) (code : Code χ) (upvalues : List Value) :
    Heeds G (newFunction name code upvalues : Action χ σ Ref) fun r => ¬G.tables r :=
  heeds_allocate fun _ e => nomatch e

/-- A table changes, under free keys if it is guarded, and in the registry no guarded table gets a foreign name. -/
theorem heeds_changeTable {f : Table → Table} (hf : ∀ T, T.Unique → (f T).Unique)
    (hsame : G.tables s → ∀ T : Table, T.SameBut (G.free s) (f T))
    (hnames : s = G.registry → ∀ T name t, G.tables t → (f T).field name = .table t → T.field name = .table t) :
    Heeds G (onHeap (fun h => h.changeTable s f) : Action χ σ Unit) fun _ => True := by
  refine heeds_of_written fun m hm => ?_
  refine onHeap_elim (P := fun m' => m'.Secured G ∧ m.Upholds G m') ⟨hm, upholds_refl m⟩ fun h' hc => ?_
  obtain ⟨T, hT, rfl⟩ := Heap.changeTable_eq_ok_iff.1 hc
  have hwritten : m.Written _ s (.table (f T)) := written_put hm.wellFormed (Heap.contains_of_object? hT)
    fun _ e => Object.table.inj e ▸ hf T (hm.wellFormed.unique s T hT)
  refine hm.written hwritten (fun p hp => ?_) fun hs R name t e _ hfield ht => ?_
  · cases hT.symm.trans hp
    exact ⟨f T, rfl, fun hs => hsame hs T⟩
  · cases e
    refine ⟨T, ?_, hnames hs T name t ht hfield⟩
    rw [hm.registry.1, ← hs]
    exact hT

/-- Any value but a guarded table may be put into a table, under a free key if that is guarded. -/
theorem heeds_store {k : Key} (hs : G.tables s → G.free s k) {v : Value} (hv : G.Loose v) :
    Heeds G (onHeap (fun h => h.changeTable s (fun T => T.set k v)) : Action χ σ Unit) fun _ => True := by
  refine heeds_changeTable (fun _ hu => hu.set _ _) (fun h _ => .set (hs h) v) fun _ T name t ht hfield => ?_
  rw [Table.field, Table.get_set] at hfield
  split at hfield
  · exact absurd ht (hv t hfield)
  · exact hfield

theorem heeds_setField {name : String} (hs : G.tables s → G.free s (.string name)) {v : Value} (hv : G.Loose v) :
    Heeds G (setField s name v : Action χ σ Unit) fun _ => True :=
  heeds_store hs hv

theorem heeds_setAt {i : Int64} (hs : G.tables s → G.free s (.integer i)) {v : Value} (hv : G.Loose v) :
    Heeds G (setAt s i v : Action χ σ Unit) fun _ => True :=
  heeds_store hs hv

theorem heeds_setRegistry {name : String} (hname : G.Opens name) {v : Value} (hv : G.Loose v) :
    Heeds G (setRegistry name v : Action χ σ Unit) fun _ => True := by
  have hlook : Heeds G (look : Action χ σ (Machine χ σ)) fun m => m.registry = G.registry :=
    heeds_still (fun _ => rfl) fun m a hm ha => Except.ok.inj ha ▸ hm.registry.1
  refine hlook.bind fun m hm => heeds_setField (fun ht => ?_) hv
  rw [hm] at ht ⊢
  exact hname ht

theorem heeds_setGlobal {name : String} (hname : G.tables G.globals → G.free G.globals (.string name)) {v : Value}
    (hv : G.Loose v) : Heeds G (setGlobal name v : Action χ σ Unit) fun _ => True := by
  have hlook : Heeds G (look : Action χ σ (Machine χ σ)) fun m => m.globals = G.globals :=
    heeds_still (fun _ => rfl) fun m a hm ha => Except.ok.inj ha ▸ hm.globals
  refine hlook.bind fun m hm => heeds_setField (fun ht => ?_) hv
  rw [hm] at ht ⊢
  exact hname ht

/-- A userdata keeps its flag, and its payload if that is guarded, since then it is no handle. -/
theorem heeds_changeUserdata {f : Userdata → Userdata} (hflag : ∀ u, (f u).finalized = u.finalized)
    (hpay : G.payloads s → ∀ u, (∀ a, u.payload ≠ .handle a) → (f u).payload = u.payload) :
    Heeds G (onHeap (fun h => h.changeUserdata s f) : Action χ σ Unit) fun _ => True := by
  refine heeds_of_written fun m hm => ?_
  refine onHeap_elim (P := fun m' => m'.Secured G ∧ m.Upholds G m') ⟨hm, upholds_refl m⟩ fun h' hc => ?_
  obtain ⟨u, hu, rfl⟩ := Heap.changeUserdata_eq_ok_iff.1 hc
  refine hm.written (written_put hm.wellFormed (Heap.contains_of_object? hu) nofun) (fun p hp => ?_) fun _ _ _ _ e => nomatch e
  cases hu.symm.trans hp
  exact ⟨f u, rfl, hflag u, fun hs => hpay hs u fun a => hm.payload s u a hs hu⟩

theorem heeds_requireTable (r : Option Ref) : Heeds G (requireTable r : Action χ σ Unit) fun _ => True :=
  heeds_still (requireTable_still r) fun _ _ _ _ => trivial

theorem heeds_setMetatable {v : Value} (hv : G.Loose v) (mt : Option Ref) :
    Heeds G (setMetatable v mt : Action χ σ Unit) fun _ => True := by
  refine (heeds_requireTable mt).bind fun _ _ => ?_
  cases v with
  | table t => exact heeds_changeTable (fun _ hu => hu) (fun ht => absurd ht (hv t rfl)) fun _ _ _ _ _ h => h
  | userdata r => exact heeds_changeUserdata (fun _ => rfl) fun _ _ _ => rfl
  | _ => exact heeds_fail _

theorem heeds_setEnvironment (r : Ref) (env : Option Ref) :
    Heeds G (setEnvironment r env : Action χ σ Unit) fun _ => True :=
  (heeds_requireTable env).bind fun _ _ => heeds_changeUserdata (fun _ => rfl) fun _ _ _ => rfl

theorem heeds_setPayload (hs : ¬G.payloads s) (p : Payload) : Heeds G (setPayload s p : Action χ σ Bool) fun _ => True := by
  refine (heeds_query _).bind fun held _ => ?_
  split
  · have hchange : Heeds G (onHeap (fun h => h.changeUserdata s fun u => { u with payload := p }) : Action χ σ Unit) fun _ => True :=
      heeds_changeUserdata (fun _ => rfl) fun h => absurd h hs
    exact hchange.bind fun _ _ => heeds_pure trivial
  · exact heeds_pure trivial

theorem heeds_rawSet {key v : Value} (hs : ∀ k, Key.ofValue key = .ok k → G.tables s → G.free s k)
    (hv : G.Loose v) : Heeds G (rawSet s key v : Action χ σ Unit) fun _ => True := by
  unfold rawSet
  split
  · exact heeds_fail _
  · rename_i k hk
    exact heeds_store (hs k hk) hv

/-! ## The tables of the binding layer -/

/-- What is under a foreign name is not guarded. -/
theorem loose_of_registryField {m : Machine χ σ} (hm : m.Secured G) {name : String} (hname : G.foreign name) {v : Value}
    (hv : m.registryField name = .ok v) : G.Loose v := by
  obtain ⟨hregistry, R, hR⟩ := hm.registry
  rw [← hregistry] at hR
  rw [registryField_of_table hR, Except.ok.injEq] at hv
  rintro t rfl
  exact hm.foreign name t hname ⟨R, hR, hv⟩

theorem heeds_registryTable {name : String} (hname : G.foreign name) (mode : Option String) :
    Heeds G (Registry.table name mode : Action χ σ Ref) fun t => ¬G.tables t := by
  have hfield : Heeds G (query fun m : Machine χ σ => m.registryField name) G.Loose :=
    heeds_still (fun _ => rfl) fun m v hm hv => loose_of_registryField hm hname hv
  have hweak : ∀ mode, Heeds G (Registry.newWeakTable mode : Action χ σ Ref) fun t => ¬G.tables t := by
    intro mode
    refine heeds_newTable.bind fun t ht => heeds_newTable.bind fun mt hmt => ?_
    refine (heeds_setField (fun h => absurd h hmt) (by nofun)).bind fun _ _ => ?_
    exact (heeds_setMetatable (fun s e => Value.table.inj e ▸ ht) _).bind fun _ _ => heeds_pure ht
  refine hfield.bind fun v hv => ?_
  split
  · exact heeds_pure (hv _ rfl)
  · refine Heeds.bind (Q := fun t => ¬G.tables t) ?_ fun t ht => ?_
    · cases mode with
      | none => exact heeds_newTable
      | some mode => exact hweak mode
    · exact (heeds_setRegistry (G.opens name hname) fun s e => Value.table.inj e ▸ ht).bind fun _ _ => heeds_pure ht

/-- The table under a name is not written, and is not guarded if the name is foreign. -/
theorem heeds_metatableNamed {name : String} (hname : G.Opens name) :
    Heeds G (metatableNamed name : Action χ σ (Ref × Bool)) fun p => G.foreign name → ¬G.tables p.1 := by
  have hfield : Heeds G (query fun m : Machine χ σ => m.registryField name) fun v => G.foreign name → G.Loose v :=
    heeds_still (fun _ => rfl) fun m v hm hv hforeign => loose_of_registryField hm hforeign hv
  refine hfield.bind fun v hv => ?_
  split
  · exact heeds_pure fun hforeign => hv hforeign _ rfl
  · refine heeds_newTable.bind fun mt hmt => (heeds_setField (fun h => absurd h hmt) (by nofun)).bind fun _ _ => ?_
    exact (heeds_setRegistry hname fun s e => Value.table.inj e ▸ hmt).bind fun _ _ => heeds_pure fun _ => hmt

theorem heeds_ensureHandle (hname : G.foreign Registry.pointers) (a : Address) :
    Heeds G (ensureHandle a : Action χ σ Ref) fun _ => True := by
  refine (heeds_registryTable hname _).bind fun pointers hpointers => (heeds_query _).bind fun found _ => ?_
  split
  · exact heeds_pure trivial
  · refine (heeds_newUserdata _).bind fun handle _ => heeds_newTable.bind fun shadow _ => ?_
    refine (heeds_setEnvironment handle _).bind fun _ _ => Heeds.bind (Q := fun _ => True) ?_ fun _ _ => heeds_pure trivial
    exact heeds_rawSet (fun _ _ h => absurd h hpointers) (by nofun)

/-- What is no handle keeps its payload when an address is forgotten. -/
theorem payload_forgetAddress {u : Userdata} (hu : ∀ a, u.payload ≠ .handle a) : u.forgetAddress.payload = u.payload := by
  unfold Userdata.forgetAddress
  split
  · rename_i a ha
    exact absurd ha (hu a)
  · rfl

theorem heeds_unregister (hname : G.foreign Registry.pointers) (a : Address) :
    Heeds G (unregister a : Action χ σ Unit) fun _ => True := by
  have hlook : Heeds G (look : Action χ σ (Machine χ σ)) fun m => ∀ p, Registry.find? m Registry.pointers = some p →
      ¬G.tables p := by
    refine heeds_still (fun _ => rfl) fun m a hm ha p hp => ?_
    obtain ⟨hregistry, R, hR⟩ := hm.registry
    rw [← hregistry] at hR
    cases ha
    exact hm.foreign _ p hname ((find?_eq_some_iff hR).1 hp)
  refine hlook.bind fun m₀ hm₀ => ?_
  split
  · exact heeds_pure trivial
  · rename_i pointers hfound
    refine (heeds_query _).bind fun found _ => ?_
    split
    · refine (heeds_changeUserdata finalized_forgetAddress fun _ _ => payload_forgetAddress).bind fun _ _ => ?_
      exact heeds_rawSet (fun _ _ h => absurd h (hm₀ pointers hfound)) (by nofun)
    · exact heeds_pure trivial

theorem heeds_wrap (hpointers : G.foreign Registry.pointers) {a : Address} {name : String}
    (hname : a ≠ Address.null → G.Opens name) : Heeds G (wrap a name : Action χ σ Value) fun _ => True := by
  unfold wrap
  split
  · exact heeds_pure trivial
  · rename_i hnull
    refine (heeds_ensureHandle hpointers a).bind fun handle _ => (heeds_metatableNamed (hname hnull)).bind fun found _ => ?_
    exact (heeds_setMetatable (by nofun) _).bind fun _ _ => heeds_pure trivial

theorem heeds_defineAll (hname : G.foreign Registry.enumerations) (enums : List EnumDescriptor) :
    Heeds G (EnumDescriptor.defineAll enums : Action χ σ Unit) fun _ => True := by
  have hfill : ∀ (t : Ref) (members : List (String × Int64)), ¬G.tables t →
      Heeds G (EnumDescriptor.fill t members : Action χ σ Unit) fun _ => True := by
    intro t members ht
    induction members with
    | nil => exact heeds_pure trivial
    | cons e rest ih =>
      refine (heeds_setField (fun h => absurd h ht) (by nofun)).bind fun _ _ => ?_
      exact (heeds_setAt (fun h => absurd h ht) (by nofun)).bind fun _ _ => ih
  induction enums with
  | nil => exact heeds_pure trivial
  | cons d rest ih =>
    refine Heeds.bind (Q := fun _ => True) ?_ fun _ _ => ih
    refine (heeds_registryTable hname _).bind fun all hall => heeds_newTable.bind fun t ht => ?_
    refine (hfill t d.members ht).bind fun _ _ => ?_
    exact heeds_setField (fun h => absurd h hall) fun s e => Value.table.inj e ▸ ht

theorem heeds_stage (hname : G.foreign Registry.cells) (hcounter : G.Opens Registry.nextCell) (p : Payload) :
    Heeds G (Cell.stage p : Action χ σ Ref) fun _ => True := by
  refine (heeds_registryTable hname _).bind fun cells hcells => (heeds_newUserdata p).bind fun cell _ => ?_
  refine Heeds.bind (Q := fun _ => True) ?_ fun place _ => ?_
  · exact (heeds_query _).bind fun _ _ => (heeds_setRegistry hcounter (by nofun)).bind fun _ _ => heeds_pure trivial
  · exact (heeds_setAt (fun h => absurd h hcells) (by nofun)).bind fun _ _ => heeds_pure trivial

theorem heeds_stageArguments (hname : G.foreign Registry.cells) (hcounter : G.Opens Registry.nextCell) (v : Value) :
    Heeds G (Arguments.ofValue v : Action χ σ StagedArguments) fun _ => True := by
  unfold Arguments.ofValue
  split
  · exact (heeds_query _).bind fun _ _ => (heeds_stage hname hcounter _).bind fun _ _ => heeds_pure trivial
  · exact heeds_fail _

theorem heeds_newTexts (texts : List String) : Heeds G (Arguments.toTable texts : Action χ σ Ref) fun _ => True := by
  have hfill : ∀ (t : Ref) (n : Nat), ¬G.tables t → Heeds G (Arguments.fill t n texts : Action χ σ Unit) fun _ => True := by
    intro t n ht
    induction texts generalizing n with
    | nil => exact heeds_pure trivial
    | cons s rest ih => exact (heeds_setAt (fun h => absurd h ht) (by nofun)).bind fun _ _ => ih _
  exact heeds_newTable.bind fun t ht => (hfill t 0 ht).bind fun _ _ => heeds_pure trivial

/-! ## Classes -/

theorem heeds_installMethods (hs : ¬G.tables s) (name : String) (methods : List (String × χ)) :
    Heeds G (ClassDescriptor.installMethods s name methods : Action χ σ _) fun _ => True := by
  induction methods with
  | nil => exact heeds_pure trivial
  | cons e rest ih =>
    refine (heeds_newFunction _ _ _).bind fun f _ => (heeds_setField (fun h => absurd h hs) (by nofun)).bind fun _ _ => ?_
    exact ih.bind fun _ _ => heeds_pure trivial

theorem heeds_publish (hs : ¬G.tables s) (methods : List (String × Ref)) :
    Heeds G (ClassDescriptor.publish s methods : Action χ σ Unit) fun _ => True := by
  induction methods with
  | nil => exact heeds_pure trivial
  | cons e rest ih => exact (heeds_setField (fun h => absurd h hs) (by nofun)).bind fun _ _ => ih

/-- Installing a class, also one that fails, writes its table, which is not guarded if its name is foreign, and the global with the
name of its namespace. -/
theorem heeds_install {d : ClassDescriptor χ} (hname : G.foreign d.name)
    (hspace : G.tables G.globals → G.free G.globals (.string (ClassDescriptor.namespaceName d.name))) :
    Heeds G (d.install : Action χ σ Unit) fun _ => True := by
  refine (heeds_metatableNamed (G.opens _ hname)).bind fun found hfound => ?_
  have hcls := hfound hname
  have hset : ∀ name (v : Value), (∀ t, v ≠ .table t) → Heeds G (setField found.1 name v : Action χ σ Unit) fun _ => True :=
    fun _ _ hv => heeds_setField (fun h => absurd h hcls) fun t e => absurd e (hv t)
  refine (heeds_installMethods hcls _ _).bind fun methods _ => (hset _ _ (by nofun)).bind fun _ _ => ?_
  refine (heeds_query _).bind fun bases _ => (heeds_newFunction _ _ _).bind fun reader _ => ?_
  refine (heeds_newFunction _ _ _).bind fun writer _ => (heeds_newFunction _ _ _).bind fun finalizer _ => ?_
  refine (hset _ _ (by nofun)).bind fun _ _ => (hset _ _ (by nofun)).bind fun _ _ => (hset _ _ (by nofun)).bind fun _ _ => ?_
  refine (heeds_setMetatable (fun s e => Value.table.inj e ▸ hcls) _).bind fun _ _ => ?_
  refine heeds_newTable.bind fun space hfresh => (heeds_publish hfresh methods).bind fun _ _ => ?_
  exact heeds_setGlobal hspace fun s e => Value.table.inj e ▸ hfresh

theorem heeds_installEach {classes : List (ClassDescriptor χ)} (hnames : ∀ d ∈ classes, G.foreign d.name ∧
    (G.tables G.globals → G.free G.globals (.string (ClassDescriptor.namespaceName d.name)))) :
    Heeds G (ClassDescriptor.installEach classes : Action χ σ Unit) fun _ => True := by
  induction classes with
  | nil => exact heeds_pure trivial
  | cons d rest ih =>
    obtain ⟨hd, hrest⟩ := List.forall_mem_cons.1 hnames
    exact (heeds_install hd.1 hd.2).bind fun _ _ => ih hrest

end Action

/-! ## Events -/

namespace Event

/-- The event asks for the table of a name, which is made if there is none. Null is wrapped without one. -/
def Names (name : String) : Event χ σ → Prop
  | .ask (.wrap a n) => a ≠ Address.null ∧ n = name
  | .ask (.metatableNamed n) => n = name
  | _ => False

/-- The event gives a userdata another payload. -/
def Repays (r : Ref) : Event χ σ → Prop
  | .ask (.setPayload u _) => u = r
  | _ => False

end Event

/-- An event other than a collection writes nothing that is guarded by hand, and leaves the names that are not foreign. -/
structure Guard.Permits (G : Guard) (m : Machine χ σ) (e : Event χ σ) : Prop where
  pointers : G.foreign Registry.pointers
  enumerations : ∀ enums, e = .ask (.defineEnums enums) → G.foreign Registry.enumerations
  stages : e.Stages → G.foreign Registry.cells ∧ G.Opens Registry.nextCell
  names : ∀ name, e.Names name → G.Opens name
  writes : ∀ t key v k, G.tables t → e.written? m t = some (key, v) → Key.ofValue key = .ok k → G.free t k
  classes : ∀ t, G.tables t → ¬e.Reclasses t
  payloads : ∀ r, G.payloads r → ¬e.Repays r
  installs : ∀ classes, e = .ask (.installClasses classes) → m.checkClasses [] classes = .ok () → ∀ d ∈ classes,
    G.foreign d.name ∧ (G.tables G.globals → G.free G.globals (.string (ClassDescriptor.namespaceName d.name)))

namespace Machine

variable {G : Guard} {m : Machine χ σ} {s : Ref}

/-- A table changes under free keys, if it is guarded. -/
theorem upholds_changeTable {f : Table → Table} (hsame : G.tables s → ∀ T : Table, T.SameBut (G.free s) (f T)) :
    m.Upholds G (Action.onHeap (fun h => h.changeTable s f) m).2 := by
  refine Action.onHeap_elim (P := fun m' => m.Upholds G m') (upholds_refl m) fun h' hc => ?_
  obtain ⟨T, hT, rfl⟩ := Heap.changeTable_eq_ok_iff.1 hc
  intro r o ho
  rw [Heap.object?_put (Heap.contains_of_object? hT)]
  by_cases hr : r = s
  · subst hr
    cases hT.symm.trans ho
    exact ⟨_, if_pos rfl, f T, rfl, fun hs => hsame hs T⟩
  · exact ⟨o, (if_neg hr).trans ho, Guard.lets_refl o⟩

theorem upholds_rawSet {key : Value} (hs : ∀ k, Key.ofValue key = .ok k → G.tables s → G.free s k) (v : Value) :
    m.Upholds G (Action.rawSet s key v m).2 := by
  unfold Action.rawSet
  cases hk : Key.ofValue key with
  | error cause => exact upholds_refl m
  | ok k => exact upholds_changeTable fun ht _ => .set (hs k hk ht) v

theorem upholds_remove {key : Value} (hs : ∀ k, Key.ofValue key = .ok k → G.tables s → G.free s k) :
    m.Upholds G (Action.remove s key m).2 := by
  unfold Action.remove
  cases hk : Key.ofValue key with
  | error cause => exact upholds_refl m
  | ok k =>
    show m.Upholds G (Action.bind (Action.query fun m => m.heap.table s) _ m).2
    rw [Action.query_bind]
    cases m.heap.table s with
    | error e => exact upholds_refl m
    | ok T =>
      rw [Action.answer_snd _ (fun _ => T.find? k) m]
      exact upholds_changeTable fun ht _ => .erase (hs k hk ht)

/-- A silent request that the guard permits upholds what is guarded. -/
theorem Secured.upholds_perform (hm : m.Secured G) (c : Caller χ σ) {r : Request χ σ} (hr : r.IsSilent)
    (h : G.Permits m (.ask r)) : m.Upholds G (r.perform c m).2 := by
  have hheeds : ∀ {α : Type} {x : Action χ σ α} {Q : α → Prop}, x.Heeds G Q → m.Upholds G (x m).2 :=
    fun hx => (hx m hm trivial).2.1
  have hpointers := h.pointers
  cases r with
  | look | keep | push | pop | setTop | pin | unpin => exact upholds_refl m
  | newTable => exact hheeds Action.heeds_newTable
  | newUserdata p => exact hheeds (Action.heeds_newUserdata p)
  | newFunction name code upvalues => exact hheeds (Action.heeds_newFunction name code upvalues)
  | newReader name cls bases => exact hheeds (Action.heeds_newFunction _ _ _)
  | rawSet s key v => exact upholds_rawSet (fun k hk ht => h.writes s key v k ht (if_pos rfl) hk) v
  | remove s key => exact upholds_remove fun k hk ht => h.writes s key .nil k ht (if_pos rfl) hk
  | setMetatable v mt =>
    refine hheeds (Action.heeds_setMetatable (fun t e ht => ?_) mt)
    subst e
    exact h.classes t ht rfl
  | setEnvironment u env => exact hheeds (Action.heeds_setEnvironment u env)
  | setPayload u p => exact hheeds (Action.heeds_setPayload (fun hu => h.payloads u hu rfl) p)
  | metatableNamed name => exact hheeds (Action.heeds_metatableNamed (h.names name rfl))
  | ensureHandle a => exact hheeds (Action.heeds_ensureHandle hpointers a)
  | unregister a => exact hheeds (Action.heeds_unregister hpointers a)
  | wrap a name => exact hheeds (Action.heeds_wrap hpointers fun ha => h.names name ⟨ha, rfl⟩)
  | installClasses classes =>
    cases hc : m.checkClasses [] classes with
    | error e =>
      show m.Upholds G (ClassDescriptor.installAll classes m).2
      rw [installAll_of_refused hc]
      exact upholds_refl m
    | ok _ =>
      show m.Upholds G (ClassDescriptor.installAll classes m).2
      rw [installAll_of_checked hc]
      exact hheeds (Action.heeds_installEach (h.installs classes rfl hc))
  | defineEnums enums => exact hheeds (Action.heeds_defineAll (h.enumerations enums rfl) enums)
  | stage p =>
    obtain ⟨hcells, hcounter⟩ := h.stages trivial
    exact hheeds (Action.heeds_stage hcells hcounter p)
  | stageInteger v =>
    obtain ⟨hcells, hcounter⟩ := h.stages trivial
    exact hheeds (Q := fun _ => True) ((Action.heeds_stage hcells hcounter _).bind fun _ _ => Action.heeds_pure trivial)
  | stageArguments v =>
    obtain ⟨hcells, hcounter⟩ := h.stages trivial
    exact hheeds (Action.heeds_stageArguments hcells hcounter v)
  | newTexts texts => exact hheeds (Action.heeds_newTexts texts)
  | index | setIndex | call | callMethod | collect | isKindOf => exact hr.elim

/-- An event other than a collection that the guard permits upholds what is guarded. -/
theorem Secured.upholds_after (hm : m.Secured G) {e : Event χ σ} (he : ∀ r, e = .ask r → r.IsSilent) (hsweep : e ≠ .sweep)
    (h : G.Permits m e) : m.Upholds G (m.after e) := by
  cases e with
  | ask r => exact hm.upholds_perform _ (he r rfl) h
  | store s key v => exact upholds_rawSet (fun k hk ht => h.writes s key v k ht (if_pos rfl) hk) v
  | write call =>
    show m.Upholds G (Attribute.write call m).2
    rw [write_eq]
    split
    · rename_i s hs
      refine upholds_rawSet (fun k hk ht => h.writes s (call.arg 2) (call.arg 3) k ht ?_ hk) _
      simp only [Event.written?, hs, if_true]
    · exact upholds_refl m
  | enter | leave | queue | finish => exact upholds_refl m
  | sweep => exact absurd rfl hsweep

end Machine

end ScriptHost

import ScriptHost.Proofs.Lookup
import ScriptHost.Proofs.Shadows

/-!
# Reads on machines that differ in one table

Two machines that have the same limits, are as deep in calls and have the same objects apart from one table are alike
(`Machine.Alike`). If that table is no table of a class, reading a complete class answers the same on both, by induction on its bases
(`Complete.same_index`), and so does reading a handle under a key under which its shadow has the same on both
(`Tended.same_handle`).
-/

namespace ScriptHost

variable {χ σ α β : Type}

/-- The table found through a reference depends on the object there alone. -/
theorem Heap.table_congr {h h' : Heap χ} {t : Ref} (e : h'.object? t = h.object? t) : h'.table t = h.table t := by
  unfold Heap.table Heap.get
  rw [e]

theorem Machine.rawGet_congr {m m' : Machine χ σ} {t : Ref} (e : m'.heap.object? t = m.heap.object? t) (key : Value) :
    m'.rawGet t key = m.rawGet t key := by
  unfold Machine.rawGet
  rw [Heap.table_congr e]

/-! ## Actions that answer the same -/

namespace Action

/-- The first action on the first machine and the second one on the second answer or fail alike, and change nothing. -/
def Same (x : Action χ σ α) (m : Machine χ σ) (y : Action χ σ α) (m' : Machine χ σ) : Prop := ∃ r, x m = (r, m) ∧ y m' = (r, m')

variable {m m' : Machine χ σ} {x y : Action χ σ α}

theorem same_pure (a : α) : (pure a : Action χ σ α).Same m (pure a) m' := ⟨.ok a, rfl, rfl⟩

theorem same_query {f g : Machine χ σ → Except Fault α} (h : f m = g m') : (query f).Same m (query g) m' :=
  ⟨f m, rfl, Prod.ext h.symm rfl⟩

theorem Same.bind {f g : α → Action χ σ β} (hx : x.Same m y m') (hf : ∀ a, (f a).Same m (g a) m') :
    (x >>= f).Same m (y >>= g) m' := by
  obtain ⟨r, hx, hy⟩ := hx
  cases r with
  | ok a =>
    obtain ⟨r, hf, hg⟩ := hf a
    exact ⟨r, (bind_of_ok hx).trans hf, (bind_of_ok hy).trans hg⟩
  | error e => exact ⟨.error e, bind_of_error hx, bind_of_error hy⟩

end Action

/-! ## Machines that are alike -/

namespace Machine

/-- The machines have the same limits, as many calls under way and as much on the stack, and the same objects, except at one
reference. -/
structure Alike (e : Ref) (m m' : Machine χ σ) : Prop where
  limits : m'.limits = m.limits
  depth : m'.depth = m.depth
  height : m'.stack.size = m.stack.size
  object : ∀ t, t ≠ e → m'.heap.object? t = m.heap.object? t

variable {e r : Ref} {m m' : Machine χ σ} {args args' : List Value}

theorem alike_refl (e : Ref) (m : Machine χ σ) : m.Alike e m := ⟨rfl, rfl, rfl, fun _ _ => rfl⟩

theorem Alike.enter (h : m.Alike e m') (f : Value) (hargs : args'.length = args.length) :
    (m.enter f args).Alike e (m'.enter f args') := by
  refine ⟨h.limits, congrArg (· + 1) h.depth, ?_, h.object⟩
  simp only [Machine.enter, Array.size_append, List.size_toArray, List.length_cons, h.height, hargs]

/-- A function is called on both or on neither. -/
theorem Alike.callee (h : m.Alike e m') (hr : r ≠ e) (hargs : args'.length = args.length) :
    m'.callee (.function r) args' = m.callee (.function r) args := by
  have hf : m'.heap.function r = m.heap.function r := by
    unfold Heap.function Heap.get
    rw [h.object r hr]
  simp only [Machine.callee, h.limits, h.depth, h.height, hargs, hf]

end Machine

section

open ScriptHost.Action Machine

variable {Γ : Host χ σ} {e r reader cls : Ref} {m m' : Machine χ σ} {args args' : List Value} {v v' key : Value} {bases : List Ref}

/-- Calls answer the same if the bodies of the function do. -/
theorem same_call (h : m.Alike e m') (hr : r ≠ e) (hargs : args'.length = args.length)
    (hbody : ∀ f, m.heap.object? r = some (.function f) →
      (f.code.run Γ (call Γ) ⟨args, f.upvalues⟩).Same (m.enter (.function r) args)
        (f.code.run Γ (call Γ) ⟨args', f.upvalues⟩) (m'.enter (.function r) args')) :
    (call Γ (.function r) args).Same m (call Γ (.function r) args') m' := by
  have hsame := h.callee hr hargs
  cases hc : m.callee (.function r) args with
  | error fault => exact ⟨.error fault, call_of_refused Γ hc, call_of_refused Γ (hsame.trans hc)⟩
  | ok f =>
    obtain ⟨result, hx, hy⟩ := hbody f (Heap.function_eq_ok_iff.1 (callee_eq_ok_iff.1 hc).2)
    refine ⟨result.mapError Fault.inScript, ?_, ?_⟩
    · rw [call_of_callee Γ hc]
      simp only [hx, leave_enter]
    · rw [call_of_callee Γ (hsame.trans hc)]
      simp only [hy, leave_enter]

/-- Reads answer the same if their first hops do: both stop with one value, or one function takes over that answers the same, or both
fail. -/
theorem same_index (h : m.Alike e m') (hhop : (∃ w, m.readHop v key = .ok (.stop w) ∧ m'.readHop v' key = .ok (.stop w)) ∨
      (∃ r, m.readHop v key = .ok (.enter (.function r)) ∧ m'.readHop v' key = .ok (.enter (.function r)) ∧
        (call Γ (.function r) [v, key]).Same m (call Γ (.function r) [v', key]) m') ∨
      ∃ fault, m.readHop v key = .error fault ∧ m'.readHop v' key = .error fault) :
    (index (call Γ) v key).Same m (index (call Γ) v' key) m' := by
  show (readAlong (call Γ) key m.limits.maxIndexChain v).Same m (readAlong (call Γ) key m'.limits.maxIndexChain v') m'
  rw [h.limits]
  cases m.limits.maxIndexChain with
  | zero => exact ⟨.error .overflow, rfl, rfl⟩
  | succ hops =>
    unfold Same
    simp only [readAlong_succ]
    rcases hhop with ⟨w, hx, hy⟩ | ⟨r, hx, hy, hcall⟩ | ⟨fault, hx, hy⟩
    · exact ⟨.ok w, by rw [hx], by rw [hy]⟩
    · rw [hx, hy]
      exact hcall.bind fun _ => same_pure _
    · exact ⟨.error fault, by rw [hx], by rw [hy]⟩

theorem same_inBases {c : Caller χ σ} (h : ∀ b ∈ bases, (index c (.table b) key).Same m (index c (.table b) key) m') :
    (Attribute.inBases c key (bases.map .table)).Same m (Attribute.inBases c key (bases.map .table)) m' := by
  induction bases with
  | nil => exact same_pure _
  | cons b rest ih =>
    obtain ⟨hb, hrest⟩ := List.forall_mem_cons.1 h
    refine hb.bind fun found => ?_
    split
    · exact ih hrest
    · exact same_pure _

/-- The function that reads attributes answers the same for receivers that have the same of their own, if the bases do. -/
theorem same_reader (h : m.Alike e m') (hreader : reader ≠ e) (hcls : cls ≠ e)
    (hf : ∃ name, m.heap.object? reader = some (.function ⟨name, .readAttribute, (cls :: bases).map .table⟩))
    (hown : Attribute.inShadow m v key = Attribute.inShadow m' v' key)
    (hbases : ∀ b ∈ bases, (index (call Γ) (.table b) key).Same (m.enter (.function reader) [v, key])
      (index (call Γ) (.table b) key) (m'.enter (.function reader) [v', key])) :
    (call Γ (.function reader) [v, key]).Same m (call Γ (.function reader) [v', key]) m' := by
  refine same_call h hreader rfl fun f hf' => ?_
  obtain ⟨name, hf⟩ := hf
  cases hf.symm.trans hf'
  refine Same.bind (same_query hown) fun own => ?_
  split
  · refine Same.bind ?_ fun _ => same_pure _
    refine Same.bind (same_query (rawGet_congr (h.object cls hcls) key).symm) fun found => ?_
    split
    · exact same_inBases hbases
    · exact same_pure _
  · exact same_pure _

end

namespace Machine

open ScriptHost.Action

variable {Γ : Host χ σ} {e r t cls reader : Ref} {m m' : Machine χ σ} {v v' key : Value} {bases : List Ref} {T : Table}
  {name : String}

/-! ## Classes -/

/-- The first hop of a read at a class: it stops at what the table has, or else the function that reads attributes takes over. -/
theorem readHop_class (hT : m.heap.object? t = some (.table T)) (hmt : T.metatable = some t)
    (hread : T.field Registry.readName = .function reader) {found : Value} (hfound : m.rawGet t key = .ok found) :
    m.readHop (.table t) key = .ok (if found.isNil then .enter (.function reader) else .stop found) := by
  have hmetatable : m.metatable (.table t) = .ok (some t) := by
    simp only [Machine.metatable, Heap.table_eq_ok_iff.2 hT, hmt]
  have hfield : m.rawField t Registry.readName = .ok (.function reader) := by
    simp only [rawField, Heap.table_eq_ok_iff.2 hT, hread]
  simp only [readHop, hfound, metafield_readName hmetatable hfield]
  split <;> rfl

/-- The table of a class is none that may be written. -/
theorem Furnishes.ne_of_open (h : m.Furnishes cls bases) (he : m.Open True e) : cls ≠ e := by
  rintro rfl
  obtain ⟨name, hname, hr⟩ := h.named
  exact not_open_of_registered hname hr he

/-- Nor is a function. -/
theorem ne_of_open_of_function {f : NativeFunction χ} (hf : m.heap.object? r = some (.function f)) (he : m.Open True e) : r ≠ e := by
  rintro rfl
  obtain ⟨⟨E, hE⟩, -⟩ := he
  cases hf.symm.trans hE

/-- A complete class is read the same on machines that are alike but for a table that may be written. -/
theorem Complete.same_index (hc : m.Complete t) (he : m.Open True e) {n n' : Machine χ σ} (hheap : n.heap = m.heap)
    (h : n.Alike e n') : (index (call Γ) (.table t) key).Same n (index (call Γ) (.table t) key) n' := by
  -- the bases are read one call deeper, on machines with the heaps of these
  induction hc generalizing n n' with
  | @intro cls bases hf _ ih =>
    have hne := hf.ne_of_open he
    obtain ⟨T, reader, -, hT, hmt, -, hread, -, ⟨name, hreader⟩, -⟩ := hf.table
    have hreader' := ne_of_open_of_function hreader he
    rw [← hheap] at hT hreader
    obtain ⟨found, hfound⟩ := exists_rawGet hT key
    have hobject := h.object cls hne
    refine ScriptHost.same_index h ?_
    rw [readHop_class hT hmt hread hfound,
      readHop_class (hobject.trans hT) hmt hread ((rawGet_congr hobject key).trans hfound)]
    split
    · exact Or.inr (Or.inl ⟨reader, rfl, rfl, same_reader h hreader' hne ⟨name, hreader⟩ rfl fun b hb =>
        ih b hb hheap (h.enter _ rfl)⟩)
    · exact Or.inl ⟨found, rfl, rfl⟩

/-- So does its function that reads attributes, for receivers that have the same of their own. -/
theorem Complete.same_reader (hc : m.Complete t) (he : m.Open True e) (h : m.Alike e m')
    (hT : m.heap.object? t = some (.table T)) (hread : T.field Registry.readName = .function reader)
    (hown : Attribute.inShadow m v key = Attribute.inShadow m' v' key) :
    (call Γ (.function reader) [v, key]).Same m (call Γ (.function reader) [v', key]) m' := by
  cases hc with
  | intro hf below =>
    obtain ⟨T', reader', -, hT', -, -, hread', -, ⟨name, hreader⟩, -⟩ := hf.table
    cases hT.symm.trans hT'
    cases hread.symm.trans hread'
    exact ScriptHost.same_reader h (ne_of_open_of_function hreader he) (hf.ne_of_open he) ⟨name, hreader⟩ hown fun b hb =>
      (below b hb).same_index he rfl (h.enter _ rfl)

/-- So is a table that is blank. -/
theorem same_index_blank (hT : m.heap.object? t = some (.table (.blank name))) (ht : t ≠ e) (h : m.Alike e m') :
    (index (call Γ) (.table t) key).Same m (index (call Γ) (.table t) key) m' := by
  have hhop : ∀ {n : Machine χ σ}, n.heap.object? t = some (.table (.blank name)) →
      ∃ found, n.rawGet t key = .ok found ∧ n.readHop (.table t) key = .ok (.stop found) := by
    intro n hT
    obtain ⟨found, hfound⟩ := exists_rawGet hT key
    refine ⟨found, hfound, ?_⟩
    have hfield : n.metafield (.table t) "__index" = .ok .nil := by
      simp only [metafield, Machine.metatable, Heap.table_eq_ok_iff.2 hT]
      rfl
    simp only [readHop, hfound, hfield]
    cases found <;> rfl
  have hobject := h.object t ht
  obtain ⟨found, hfound, hstop⟩ := hhop hT
  obtain ⟨found', hfound', hstop'⟩ := hhop (hobject.trans hT)
  cases ((rawGet_congr hobject key).symm.trans hfound').symm.trans hfound
  exact ScriptHost.same_index h (Or.inl ⟨_, hstop, hstop'⟩)

/-- So is everything that has the name of a class. -/
theorem Completed.same_class (hm : m.Completed) (he : m.Open True e) (h : m.Alike e m') (hname : name ∉ Registry.reserved)
    (ht : m.Registered name t) (key : Value) :
    (index (call Γ) (.table t) key).Same m (index (call Γ) (.table t) key) m' := by
  rcases hm.classes name t hname ht with hblank | hc
  · refine same_index_blank hblank ?_ h
    rintro rfl
    exact not_open_of_registered hname ht he
  · exact hc.same_index he rfl h

/-! ## Handles -/

/-- The first hop of a read at a userdata with a metatable. -/
theorem readHop_userdata {u : Userdata} (hu : m.heap.object? r = some (.userdata u)) (hmt : u.metatable = some t)
    (hT : m.heap.object? t = some (.table T)) (key : Value) :
    m.readHop (.userdata r) key = if (T.field Registry.readName).isNil then .error (.type (.notIndexable .userdata))
      else .ok (.ofHandler (T.field Registry.readName)) := by
  simp only [readHop, handlerHop, metafield, Machine.metatable, Heap.userdata_eq_ok_iff.2 hu, hmt, rawField,
    Heap.table_eq_ok_iff.2 hT]
  rfl

/-- One without a metatable is not read. -/
theorem readHop_userdata_of_none {u : Userdata} (hu : m.heap.object? r = some (.userdata u)) (hmt : u.metatable = none)
    (key : Value) : m.readHop (.userdata r) key = .error (.type (.notIndexable .userdata)) := by
  simp only [readHop, handlerHop, metafield, Machine.metatable, Heap.userdata_eq_ok_iff.2 hu, hmt]
  rfl

/-- A handle is read the same under a key under which its shadow has the same. -/
theorem Tended.same_handle (hm : m.Tended) (he : m.Open True e) (h : m.Alike e m') {u : Userdata} {a : Address}
    (hu : m.heap.object? r = some (.userdata u)) (hpay : u.payload = .handle a)
    (hown : Attribute.inShadow m (.userdata r) key = Attribute.inShadow m' (.userdata r) key) :
    (index (call Γ) (.userdata r) key).Same m (index (call Γ) (.userdata r) key) m' := by
  have hne : r ≠ e := by
    rintro rfl
    obtain ⟨⟨E, hE⟩, -⟩ := he
    cases hu.symm.trans hE
  have hu' := (h.object r hne).trans hu
  refine ScriptHost.same_index h ?_
  cases hmt : u.metatable with
  | none =>
    exact Or.inr (Or.inr ⟨_, readHop_userdata_of_none hu hmt key, readHop_userdata_of_none hu' hmt key⟩)
  | some t =>
    obtain ⟨name, hname, ht⟩ := hm.managed.orderly.classOf trivial r u a t hu hpay hmt
    have hte : t ≠ e := by
      rintro rfl
      exact not_open_of_registered hname ht he
    obtain ⟨-, T, hT⟩ := hm.completed.registered name t ht
    have hT' := (h.object t hte).trans hT
    rw [readHop_userdata hu hmt hT, readHop_userdata hu' hmt hT']
    rcases hm.completed.classes name t hname ht with hblank | hc
    · cases hT.symm.trans hblank
      exact Or.inr (Or.inr ⟨_, rfl, rfl⟩)
    · obtain ⟨reader, hread⟩ : ∃ reader, T.field Registry.readName = .function reader := by
        cases id hc with
        | intro hf _ =>
          obtain ⟨T', reader, -, hT', -, -, hread, -⟩ := hf.table
          cases hT.symm.trans hT'
          exact ⟨reader, hread⟩
      rw [hread]
      exact Or.inr (Or.inl ⟨reader, rfl, rfl, hc.same_reader he h hT hread hown⟩)

/-- What a userdata has of its own is the same if its shadow is. -/
theorem inShadow_congr {u : Userdata} (hu : m.heap.object? r = some (.userdata u)) (hu' : m'.heap.object? r = some (.userdata u))
    (hshadow : ∀ s, u.environment = some s → m'.rawGet s key = m.rawGet s key) :
    Attribute.inShadow m (.userdata r) key = Attribute.inShadow m' (.userdata r) key := by
  simp only [Attribute.inShadow, Attribute.shadow?, Machine.environment, Heap.userdata_eq_ok_iff.2 hu,
    Heap.userdata_eq_ok_iff.2 hu']
  cases hs : u.environment with
  | none => rfl
  | some s => exact (hshadow s hs).symm

end Machine

end ScriptHost

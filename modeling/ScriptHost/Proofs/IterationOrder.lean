import ScriptHost.Proofs.OneShot
import ScriptHost.Proofs.Respecting
import ScriptHost.Proofs.Sweeping
import ScriptHost.Proofs.Traversal

/-!
# Collections do not depend on the order of entries

A collection of a machine and one of the machine reordered sweep alike, so the same finalizers are called for the same userdata, in
the same order. A program that does not go by the order of the entries it sees (`Prog.IsOrderBlind`) asks the same on both, is
answered the same and leaves two machines of which one is the other reordered; and with the bodies that it runs everything in
between does (`Moment.Steady`). So do whole collections (`collection_order_independent`).
-/

namespace ScriptHost

variable {χ σ α : Type}

/-! ## Chains of accesses -/

namespace Action

variable {c : Caller χ σ} {m : Machine χ σ} {key v : Value}

/-- A read that comes to the same function, if to any, and that function. -/
theorem steadyAt_readAlong (hops : Nat) (current : Value) (hcall : ∀ f object,
    Machine.enters (fun current => m.readHop current key) hops current = some (f, object) → (c f [object, key]).SteadyAt m) :
    (readAlong c key hops current).SteadyAt m := by
  induction hops generalizing current with
  | zero => exact steadyAt_fail _
  | succ hops ih =>
    refine .query (fun n h => h.readHop current key) fun hop hhop => ?_
    unfold Machine.enters at hcall
    simp only [hhop] at hcall
    cases hop with
    | stop w => exact steadyAt_pure w
    | enter f => exact (hcall f current rfl).bind fun _ _ => steadyAt_pure _
    | next w => exact ih w hcall

theorem steadyAt_writeAlong (hops : Nat) (current : Value) (hcall : ∀ f object,
    Machine.enters (fun current => m.writeHop current key) hops current = some (f, object) → (c f [object, key, v]).SteadyAt m) :
    (writeAlong c key v hops current).SteadyAt m := by
  induction hops generalizing current with
  | zero => exact steadyAt_fail _
  | succ hops ih =>
    refine .query (fun n h => h.writeHop current key) fun hop hhop => ?_
    unfold Machine.enters at hcall
    simp only [hhop] at hcall
    cases hop with
    | stop w =>
      cases w with
      | table t => exact (respects_rawSet t key v).reordered m
      | _ => exact steadyAt_pure ()
    | enter f => exact (hcall f current rfl).bind fun _ _ => steadyAt_pure ()
    | next w => exact ih w hcall

/-! ## The code of classes -/

/-- A search whose reads are steady where they are made. -/
theorem steadyAt_inBases (bases : List Value) (hindex : ∀ e ∈ Attribute.searched c key bases m,
    (index c (.table e.1) key).SteadyAt e.2) : (Attribute.inBases c key bases).SteadyAt m := by
  induction bases generalizing m with
  | nil => exact steadyAt_pure _
  | cons base bases ih =>
    cases base with
    | table t =>
      rw [Attribute.searched] at hindex
      obtain ⟨hfirst, hrest⟩ := List.forall_mem_cons.1 hindex
      refine hfirst.bind fun found hfound => ?_
      rcases he : index c (.table t) key m with ⟨answer, m'⟩
      rw [he] at hfound hrest
      cases hfound
      by_cases hn : found.isNil = true
      · simp only [hn, if_true] at hrest ⊢
        exact ih hrest
      · simp only [hn]
        exact steadyAt_pure _
    | _ => exact ih hindex

theorem steadyAt_read (call : Call) (hindex : ∀ e ∈ Attribute.lookedAt c call m, (index c (.table e.1) (call.arg 2)).SteadyAt e.2) :
    (Attribute.read c call).SteadyAt m := by
  refine .query (fun n h => h.inShadow _ _) fun own hown => ?_
  unfold Attribute.lookedAt at hindex
  simp only [hown] at hindex
  by_cases hn : own.isNil = true
  · simp only [hn, if_true] at hindex ⊢
    refine SteadyAt.bind ?_ fun _ _ => steadyAt_pure _
    cases hup : call.upvalues with
    | nil => exact steadyAt_pure _
    | cons cls bases =>
      rw [hup] at hindex
      refine .query (fun n h => h.inClass _ _) fun found hfound => ?_
      simp only [Attribute.below, hfound] at hindex
      by_cases hn : found.isNil = true
      · simp only [hn, if_true] at hindex ⊢
        exact steadyAt_inBases bases hindex
      · simp only [hn]
        exact steadyAt_pure _
  · simp only [hn]
    exact steadyAt_pure _

theorem steadyAt_finalize (call : Call)
    (hcall : ∀ f, Attribute.finalizer? call m = some f → (c (.function f) [call.arg 1]).SteadyAt m) :
    (Attribute.finalize c call).SteadyAt m := by
  refine .query (fun n h => h.shadow? _) fun shadow? hshadow => ?_
  unfold Attribute.finalizer? at hcall
  simp only [hshadow] at hcall
  cases shadow? with
  | none => exact steadyAt_pure _
  | some shadow =>
    refine .query (fun n h => h.rawField _ _) fun found hfound => ?_
    simp only [hfound] at hcall
    cases found with
    | function f => exact (hcall f rfl).bind fun _ _ => steadyAt_pure _
    | _ => exact steadyAt_pure _

end Action

/-! ## Programs that do not go by the order -/

/-- The two programs ask the same requests and end the same, as long as they are answered the same. When they look at the machine,
one may see the machine reordered. -/
inductive Prog.Alike : Prog χ σ α → Prog χ σ α → Prop where
  | done (a : α) : Alike (.done a) (.done a)
  | fail (e : Fault) : Alike (.fail e) (.fail e)
  | look {next next' : Except Fault (Machine χ σ) → Prog χ σ α}
      (h : ∀ m n : Machine χ σ, m.Reordered n → Alike (next (.ok m)) (next' (.ok n))) : Alike (.ask .look next) (.ask .look next')
  | ask {r : Request χ σ} {next next' : Except Fault r.Answer → Prog χ σ α} (hr : r ≠ .look)
      (h : ∀ answer, Alike (next answer) (next' answer)) : Alike (.ask r next) (.ask r next')

/-- The program does not go by the order of the entries of the tables it looks at. -/
def Prog.IsOrderBlind (p : Prog χ σ α) : Prop := p.Alike p

/-- Programs that are alike, on machines of which one is the other reordered, when what they ask is steady. -/
theorem Prog.Alike.run {c : Caller χ σ} {p p' : Prog χ σ α} (h : p.Alike p') {m n : Machine χ σ} (hm : m.Reordered n)
    (hasked : ∀ e ∈ p.asked c m, e.1 ≠ .look → (e.1.perform c).SteadyAt e.2) :
    (p'.run c n).1 = (p.run c m).1 ∧ (p.run c m).2.Reordered (p'.run c n).2 := by
  induction h generalizing m n with
  | done a => exact ⟨rfl, hm⟩
  | fail e => exact ⟨rfl, hm⟩
  | look _ ih => exact ih m n hm hm fun e he => hasked e (List.mem_cons_of_mem _ he)
  | @ask r next next' hr _ ih =>
    obtain ⟨hanswer, hend⟩ := hasked (r, m) List.mem_cons_self hr n hm
    show ((next' (r.perform c n).1).run c (r.perform c n).2).1 = ((next (r.perform c m).1).run c (r.perform c m).2).1 ∧
      ((next (r.perform c m).1).run c (r.perform c m).2).2.Reordered ((next' (r.perform c n).1).run c (r.perform c n).2).2
    rw [hanswer]
    exact ih _ hend fun e he => hasked e (List.mem_cons_of_mem _ he)

/-! ## Finalizers -/

/-- The finalizers of a queue whose calls are steady. -/
theorem reordered_finalizeAll {c : Caller χ σ} (refs : List Ref) {m n : Machine χ σ} (h : m.Reordered n)
    (hturns : ∀ t ∈ turns c refs m, ∀ f, t.finalizer? = some f → (c f [.userdata t.subject]).SteadyAt t.machine) :
    (Action.finalizeAll c refs n).1 = (Action.finalizeAll c refs m).1 ∧
      (Action.finalizeAll c refs m).2.Reordered (Action.finalizeAll c refs n).2 := by
  induction refs generalizing m n with
  | nil => exact ⟨rfl, h⟩
  | cons r rest ih =>
    have hqueue : (m.queue rest).Reordered (n.queue rest) := h.change (f := fun m => m.queue rest) (fun _ => rfl) fun _ _ => rfl
    rw [turns] at hturns
    obtain ⟨hfirst, hrest⟩ := List.forall_mem_cons.1 hturns
    cases hf : (m.queue rest).finalizer? r with
    | none =>
      have hafter : Turn.after c ⟨r, m.queue rest⟩ = m.queue rest := by simp [Turn.after, Turn.finalizer?, hf]
      rw [finalizeAll_skip hf, finalizeAll_skip ((hqueue.finalizer? r).trans hf)]
      exact ih hqueue (hafter ▸ hrest)
    | some f =>
      have hafter : Turn.after c ⟨r, m.queue rest⟩ = (c f [.userdata r] (m.queue rest)).2 := by
        simp [Turn.after, Turn.finalizer?, hf]
      obtain ⟨hanswer, hend⟩ := hfirst f hf _ hqueue
      obtain ⟨hothers, hlast⟩ := ih hend (hafter ▸ hrest)
      rw [finalizeAll_call hf, finalizeAll_call ((hqueue.finalizer? r).trans hf)]
      exact ⟨by simp only [hanswer, hothers], hlast⟩

/-- A collection whose finalizers do the same on a machine reordered. -/
theorem steadyAt_collect {c : Caller χ σ} {m : Machine χ σ} (hfinalizers : m.collecting = false → ∀ n, m.swept.Reordered n →
    (Action.finalizeAll c m.swept.pending n).1 = (Action.finalizeAll c m.swept.pending m.swept).1 ∧
      (Action.finalizeAll c m.swept.pending m.swept).2.Reordered (Action.finalizeAll c m.swept.pending n).2) :
    (Action.collect c).SteadyAt m := by
  intro n h
  cases hc : m.collecting with
  | true =>
    rw [collect_of_collecting hc, collect_of_collecting (h.collecting.trans hc)]
    exact ⟨rfl, h⟩
  | false =>
    obtain ⟨hdone, hend⟩ := hfinalizers hc n.swept h.swept
    rw [collect_eq hc, collect_eq (h.collecting.trans hc), h.swept.pending, h.dead]
    refine ⟨?_, ?_⟩
    · simp only [hdone]
    · simp only [hdone, hend.statistics, hend.heap.live]
      exact hend.change (f := fun m => m.finish _) (fun _ => rfl) fun _ _ => rfl

/-! ## Moments -/

namespace Moment

/-- What goes on in the moment goes on in the same way on the machine reordered. -/
def Steady (Γ : Host χ σ) : Moment χ σ → Prop
  | request r m => r ≠ .look → (r.perform (ScriptHost.call Γ)).SteadyAt m
  | call f args m => (ScriptHost.call Γ f args).SteadyAt m
  | body code c m => (code.run Γ (ScriptHost.call Γ) c).SteadyAt m
  | finalizers m => ∀ n, m.Reordered n →
    (Action.finalizeAll (ScriptHost.call Γ) m.pending n).1 = (Action.finalizeAll (ScriptHost.call Γ) m.pending m).1 ∧
      (Action.finalizeAll (ScriptHost.call Γ) m.pending m).2.Reordered (Action.finalizeAll (ScriptHost.call Γ) m.pending n).2

variable {Γ : Host χ σ} {M N : Moment χ σ}

open ScriptHost.Action

theorem steady_request {r : Request χ σ} {m : Machine χ σ} (ih : ∀ N ∈ (request r m).parts Γ, N.Steady Γ) :
    (request r m).Steady Γ := by
  intro hlook
  by_cases hheap : r.IsForHeap
  · exact (r.respects_perform (ScriptHost.call Γ) hheap).reordered m
  have hread : ∀ {v key} {m : Machine χ σ}, (request (.index v key) m).Steady Γ →
      (Action.index (ScriptHost.call Γ) v key).SteadyAt m := fun h => h (fun he => nomatch he)
  cases r with
  | look => exact absurd rfl hlook
  | keep memory => exact fun n h => ⟨rfl, h.change (f := fun m => { m with host := memory }) (fun _ => rfl) fun _ _ => rfl⟩
  | push v =>
    exact fun n h => ⟨rfl, h.change (f := fun m => { m with stack := m.stack.push v }) (fun _ => rfl) fun _ _ => rfl⟩
  | pop =>
    refine fun n h => ⟨?_, h.change (f := fun m => { m with stack := m.stack.pop }) (fun _ => rfl) fun _ _ => rfl⟩
    show Except.ok (n.stack.back?.getD .nil) = Except.ok (m.stack.back?.getD .nil)
    rw [h.stack]
  | setTop top =>
    refine fun n h => ⟨rfl, h.change (f := fun m =>
      { m with stack := m.stack.take top ++ Array.replicate (top - m.stack.size) .nil }) (fun _ => rfl) fun _ _ => rfl⟩
  | pin v =>
    refine fun n h => ⟨?_, h.change (f := fun m => { m with pins := (m.pins.pin v).2 }) (fun _ => rfl) fun _ _ => rfl⟩
    show Except.ok (n.pins.pin v).1 = Except.ok (m.pins.pin v).1
    rw [h.pins]
  | unpin p =>
    refine fun n h => ⟨?_, h.change (f := fun m => { m with pins := (m.pins.unpin p).2 }) (fun _ => rfl) fun _ _ => rfl⟩
    show Except.ok (n.pins.unpin p).1 = Except.ok (m.pins.unpin p).1
    rw [h.pins]
  | index v key =>
    refine SteadyAt.look (fun n h => by rw [h.limits]) (steadyAt_readAlong _ v fun f object h => ?_)
    exact ih _ (mem_parts_iff.2 (.read h))
  | setIndex target key v =>
    refine SteadyAt.look (fun n h => by rw [h.limits]) (steadyAt_writeAlong _ target fun f object h => ?_)
    exact ih _ (mem_parts_iff.2 (.write h))
  | call f args => exact ih _ (mem_parts_iff.2 (.call f args m))
  | callMethod v name args =>
    refine SteadyAt.bind (hread (ih _ (mem_parts_iff.2 (.lookup v name args m)))) fun method hmethod => ?_
    by_cases hn : method.isNil = true
    · simp only [hn, if_true]
      exact steadyAt_fail _
    · simp only [hn]
      exact ih _ (mem_parts_iff.2 (.method (Prod.ext hmethod rfl) (Bool.eq_false_iff.2 hn)))
  | isKindOf v name =>
    refine SteadyAt.look (fun n h => by rw [h.identity?]) ?_
    by_cases hv : (m.identity? v).isNone = true
    · simp only [hv, if_true]
      exact steadyAt_pure _
    · simp only [hv]
      refine .query (fun n h => h.metafield _ _) fun reader hreader => ?_
      by_cases hn : reader.isNil = true
      · simp only [hn, if_true]
        exact steadyAt_pure _
      · simp only [hn]
        have hsome : (m.identity? v).isSome = true := by
          cases hi : m.identity? v with
          | none => exact absurd (by rw [hi]; rfl) hv
          | some a => rfl
        have hmarker := ih (request (.index v (.string name)) m)
          (mem_parts_iff.2 (.marker hsome hreader (Bool.eq_false_iff.2 hn)))
        exact (hread hmarker).bind fun _ _ => steadyAt_pure _
  | collect =>
    exact steadyAt_collect fun hc => ih _ (mem_parts_iff.2 (.sweep hc))
  | _ => exact absurd trivial hheap

theorem steady_call {f : Value} {args : List Value} {m : Machine χ σ} (ih : ∀ N ∈ (call f args m).parts Γ, N.Steady Γ) :
    (call f args m).Steady Γ := by
  intro n h
  cases hf : m.callee f args with
  | error e =>
    rw [call_of_refused Γ hf, call_of_refused Γ ((h.callee f args).trans hf)]
    exact ⟨rfl, h⟩
  | ok function =>
    have hentered : (m.enter f args).Reordered (n.enter f args) :=
      h.change (f := fun m => m.enter f args) (fun _ => rfl) fun _ _ => rfl
    obtain ⟨hanswer, hend⟩ := ih _ (mem_parts_iff.2 (.enter hf)) _ hentered
    rw [call_of_callee Γ hf, call_of_callee Γ ((h.callee f args).trans hf), h.stack]
    exact ⟨congrArg (Except.mapError Fault.inScript) hanswer,
      hend.change (f := fun m => m.leave _) (fun _ => rfl) fun _ _ => rfl⟩

theorem steady_body {code : Code χ} {c : Call} {m : Machine χ σ} (hblind : ∀ k, code = .host k → (Γ k c).IsOrderBlind)
    (ih : ∀ N ∈ (body code c m).parts Γ, N.Steady Γ) : (body code c m).Steady Γ := by
  cases code with
  | host k =>
    exact fun n h => (hblind k rfl).run h fun e he => ih _ (mem_parts_iff.2 (.ask (Prog.mem_asked_iff.1 he)))
  | readAttribute =>
    exact steadyAt_read c fun e he => ih _ (mem_parts_iff.2 (.base (Attribute.mem_lookedAt_iff.1 he))) fun he => nomatch he
  | writeAttribute => exact (respects_writeAttribute c).reordered m
  | finalizeHandle =>
    exact steadyAt_finalize c fun f hf => ih _ (mem_parts_iff.2 (.finalizer (Attribute.finalizer?_eq_some_iff.1 hf)))

/-- Where all bodies of the host are blind to the order, everything goes on in the same way. -/
theorem steady (hblind : ∀ k c m, M.Within Γ (body (.host k) c m) → (Γ k c).IsOrderBlind) : M.Steady Γ := by
  refine Moment.induction Γ (P := fun M => (∀ k c m, M.Within Γ (body (.host k) c m) → (Γ k c).IsOrderBlind) → M.Steady Γ)
    (fun M ih hblind => ?_) M hblind
  have ih : ∀ N ∈ M.parts Γ, N.Steady Γ := fun N hN =>
    ih N hN fun k c m hwithin => hblind k c m (.head (mem_parts_iff.1 hN) hwithin)
  cases M with
  | request r m => exact steady_request ih
  | call f args m => exact steady_call ih
  | body code c m => exact steady_body (fun k he => hblind k c m (he ▸ .refl)) ih
  | finalizers m =>
    exact fun n h => reordered_finalizeAll m.pending h fun t ht f hf => ih _ (mem_parts_iff.2 (.turn ht hf))

end Moment

/-! ## Whole collections -/

namespace Machine

/-- The sweep takes the entry out of the table that the reference finds. -/
def Removes (m : Machine χ σ) (r : Ref) (e : Key × Value) : Prop :=
  ∃ t t', m.heap.object? r = some (.table t) ∧ m.swept.heap.object? r = some (.table t') ∧ e ∈ t.entries ∧ e ∉ t'.entries

theorem Reordered.removes_iff {m n : Machine χ σ} (h : m.Reordered n) {r : Ref} {e : Key × Value} :
    n.Removes r e ↔ m.Removes r e := by
  have hremoves : ∀ {m n : Machine χ σ}, m.Reordered n → m.Removes r e → n.Removes r e := by
    rintro m n h ⟨t, t', ht, ht', hin, hout⟩
    have hfound : ∀ {h h' : Heap χ} {t : Table}, h.Reordered h' → h.object? r = some (.table t) →
        ∃ t', h'.object? r = some (.table t') ∧ t.Reordered t' := fun h₁ ht => by
      obtain ⟨_, t', hx, -, hr, -, ht'⟩ | ⟨_, hx, -⟩ := h₁.table r <;> cases (Heap.table_eq_ok_iff.2 ht).symm.trans hx
      exact ⟨t', ht', hr⟩
    obtain ⟨u, hu, hr⟩ := hfound h.heap ht
    obtain ⟨u', hu', hr'⟩ := hfound h.swept.heap ht'
    exact ⟨u, u', hu, hu', hr.entries.mem_iff.1 hin, mt hr'.entries.mem_iff.2 hout⟩
  exact ⟨hremoves h.symm, hremoves h⟩

end Machine

/-- Take a machine and that machine with the entries of its tables in another order. Collections of the two free the same
references in the same order, come to the same free list, flag and queue the same userdata in the same order and take the same
entries out of the same tables; and it does not matter in which order a sweep of either takes what waits to be marked and lists
what an object holds on to, or clears the tables in the order in which it met them. If no body that runs in the collection goes by
the order of entries, both collections answer the same, and the machines they end in are again one machine and that machine
reordered. -/
theorem collection_order_independent (Γ : Host χ σ) {m n : Machine χ σ} (h : m.Reordered n) :
    n.dead = m.dead ∧ n.swept.heap.free = m.swept.heap.free ∧
    n.doomed = m.doomed ∧ n.swept.pending = m.swept.pending ∧
    (∀ r, n.swept.heap.userdata r = m.swept.heap.userdata r) ∧
    (∀ r e, n.Removes r e ↔ m.Removes r e) ∧
    m.swept.Reordered n.swept ∧
    (∀ s, m.SweepsTo s ↔ s = m.swept) ∧ (∀ s, n.SweepsTo s ↔ s = n.swept) ∧
    ((∀ k c x, (Moment.request .collect m).Within Γ (.body (.host k) c x) → (Γ k c).IsOrderBlind) →
      (Action.collect (call Γ) n).1 = (Action.collect (call Γ) m).1 ∧
      (Action.collect (call Γ) m).2.Reordered (Action.collect (call Γ) n).2) := by
  have hswept := h.swept
  exact ⟨h.dead, hswept.heap.free, h.doomed, hswept.pending, hswept.heap.userdata, fun r e => h.removes_iff, hswept,
    fun s => Machine.sweepsTo_iff, fun s => Machine.sweepsTo_iff,
    fun hblind => Moment.steady (M := .request .collect m) hblind (fun he => nomatch he) n h⟩

/-- A host whose functions keep the number of live objects in mind and make a table. -/
def countingHost : Host Unit Nat := fun _ _ => do
  let m ← Prog.look
  Prog.request (.keep m.heap.live)
  let t ← Prog.request .newTable
  return [.table t]

theorem isOrderBlind_countingHost (k : Unit) (c : Call) : (countingHost k c).IsOrderBlind := by
  refine .look fun m n h => ?_
  show Prog.Alike (.ask (.keep m.heap.live) _) (.ask (.keep n.heap.live) _)
  rw [h.heap.live]
  refine .ask (fun he => nomatch he) fun kept => ?_
  cases kept with
  | error e => exact .fail e
  | ok _ =>
    refine .ask (fun he => nomatch he) fun made => ?_
    cases made with
    | error e => exact .fail e
    | ok t => exact .done _

/-- Makes a global table with weak values, and, with a finalizer, a userdata, and two tables, of which one is pinned. -/
def makeCache : Prog Unit Nat Unit := do
  let mt ← Prog.request .newTable
  let finalizer ← Prog.request (.newFunction "finalizer" (.host ()) [])
  Prog.request (.rawSet mt (.string "__gc") (.function finalizer))
  let cache ← Prog.request .newTable
  let weakly ← Prog.request .newTable
  Prog.request (.rawSet weakly (.string "__mode") (.string "v"))
  Prog.request (.setMetatable (.table cache) (some weakly))
  Prog.request (.rawSet (← Prog.look).globals (.string "cache") (.table cache))
  let u ← Prog.request (.newUserdata .unit)
  Prog.request (.setMetatable (.userdata u) (some mt))
  let _ ← Prog.request .newTable
  let kept ← Prog.request .newTable
  let _ ← Prog.request (.pin (.table kept))

/-- The machine with the entries that its weak table lists. -/
def listing (m : Machine Unit Nat) (entries : List (Key × Value)) : Machine Unit Nat :=
  { m with heap := m.heap.put 4 (.table ⟨entries, some ⟨5, 0⟩⟩) }

/-- A new machine with a cache that lists the entries. -/
def cacheListing (entries : List (Key × Value)) : Machine Unit Nat :=
  listing (makeCache.exec countingHost (.start .standard 0)).2 entries

theorem reordered_listing {m : Machine Unit Nat} (hm : m.heap.WellFormed) {entries entries' : List (Key × Value)}
    (hunique : (entries.map Prod.fst).Nodup) (h : entries.Perm entries') : (listing m entries).Reordered (listing m entries') :=
  ⟨hm.reordered.put 4 (.table ⟨hunique, h, rfl⟩), rfl⟩

/-- The userdata, the table that nothing keeps and the one that is pinned. -/
def cached : List (Key × Value) :=
  [(.string "handle", .userdata ⟨6, 0⟩), (.string "loose", .table ⟨7, 0⟩), (.string "pinned", .table ⟨8, 0⟩)]

/-- Listed either way round, the userdata is taken up and the loose table freed, the cache loses both and the finalizer counts as
many objects. -/
theorem collection_order_independent_cached :
    (cacheListing cached).heap.object? ⟨4, 0⟩ ≠ (cacheListing cached.reverse).heap.object? ⟨4, 0⟩ ∧
    (cacheListing cached).Reordered (cacheListing cached.reverse) ∧
    (cacheListing cached.reverse).doomed = [⟨6, 0⟩] ∧ (cacheListing cached.reverse).dead = [⟨7, 0⟩] ∧
    (∀ e ∈ cached.take 2, (cacheListing cached.reverse).Removes ⟨4, 0⟩ e) ∧
    (∀ s, (cacheListing cached.reverse).SweepsTo s ↔ s = (cacheListing cached.reverse).swept) ∧
    (Action.collect (call countingHost) (cacheListing cached.reverse)).1 =
      (Action.collect (call countingHost) (cacheListing cached)).1 ∧
    (Action.collect (call countingHost) (cacheListing cached)).2.Reordered
      (Action.collect (call countingHost) (cacheListing cached.reverse)).2 ∧
    (Action.collect (call countingHost) (cacheListing cached)).2.host = 8 := by
  have hreached : Reached countingHost (fun _ _ => True) (makeCache.exec countingHost (.start .standard 0)).2 :=
    (Reached.start .standard 0).exec makeCache (Prog.obeys_all _ _)
  have hreordered : (cacheListing cached).Reordered (cacheListing cached.reverse) :=
    reordered_listing hreached.wellFormed (by decide) (List.reverse_perm _).symm
  have hdoomed : (cacheListing cached).doomed = [⟨6, 0⟩] := by decide +kernel
  have hdead : (cacheListing cached).dead = [⟨7, 0⟩] := by decide +kernel
  have hremoves : ∀ e ∈ cached.take 2, (cacheListing cached).Removes ⟨4, 0⟩ e := fun e he =>
    ⟨⟨cached, some ⟨5, 0⟩⟩, ⟨cached.drop 2, some ⟨5, 0⟩⟩, by decide +kernel, by decide +kernel, List.mem_of_mem_take he,
      (by decide : ∀ e ∈ cached.take 2, e ∉ cached.drop 2) e he⟩
  obtain ⟨hdead', -, hdoomed', -, -, hremoves', -, -, hsweeps, hcollect⟩ := collection_order_independent countingHost hreordered
  obtain ⟨hanswer, hend⟩ := hcollect fun k c _ _ => isOrderBlind_countingHost k c
  exact ⟨by decide +kernel, hreordered, hdoomed'.trans hdoomed, hdead'.trans hdead, fun e he => (hremoves' _ e).2 (hremoves e he),
    hsweeps, hanswer, hend, by decide +kernel⟩

end ScriptHost

import ScriptHost.Access
import ScriptHost.Marking

/-!
# Collection

A collection marks what the roots keep alive. Userdata outside of that which wait for a finalizer are taken up: they are
flagged, so that this happens to each of them once, and with everything they hold on to they live until the collection after.
Then weak tables lose the entries whose weak half is gone, everything that is not marked is freed, in ascending order of the
slots, and the finalizers of what was taken up are called, in that order. A finalizer that fails stops no other one; the first
failure is what the collection reports. A collection that is asked for while one is under way does nothing.
-/

namespace ScriptHost

variable {χ σ : Type}

namespace Heap

/-- The reference is to a userdata that was not taken up yet and has a `__gc` in its metatable. -/
def awaitsFinalizer (h : Heap χ) (r : Ref) : Bool :=
  match h.userdata r with
  | .error _ => false
  | .ok u =>
    match u.finalized, u.metatable with
    | false, some mt =>
      match h.table mt with
      | .ok named => !(named.field "__gc").isNil
      | .error _ => false
    | _, _ => false

/-- The references to the objects without a mark, in ascending order of their slots. -/
def unmarked (h : Heap χ) (marks : Marks) : List Ref := h.refs.filter (fun r => !marks.has r.slot)

/-- The heap with userdata flagged as taken up for finalization. -/
def flagAll (h : Heap χ) (refs : List Ref) : Heap χ :=
  refs.foldl (fun h r => (h.changeUserdata r (fun u => { u with finalized := true })).toOption.getD h) h

/-! ## Weak entries -/

/-- The reference keeps nothing alive: it is stale, or what it refers to was not marked. -/
def isLost (h : Heap χ) (marks : Marks) (r : Ref) : Bool := !(h.contains r && marks.has r.slot)

/-- The reference finds a userdata that a collection has taken up. -/
def isFinalized (h : Heap χ) (r : Ref) : Bool :=
  match h.userdata r with
  | .ok u => u.finalized
  | .error _ => false

/-- A table of the mode loses the entry: its weak key is lost, or its weak value is lost or finalized. -/
def losesEntry (h : Heap χ) (marks : Marks) (w : WeakMode) (entry : Key × Value) : Bool :=
  (w.keys && entry.1.ref?.any (h.isLost marks)) ||
    (w.values && entry.2.ref?.any (fun r => h.isLost marks r || h.isFinalized r))

/-- The table without the weak entries it loses. -/
def clearTable (h : Heap χ) (marks : Marks) (t : Table) : Table :=
  let mode := h.weakMode t
  if mode.isWeak then { t with entries := t.entries.filter (fun e => !h.losesEntry marks mode e) } else t

/-- An object without the weak entries it loses. -/
def clearObject (h : Heap χ) (marks : Marks) : Object χ → Object χ
  | .table t => .table (h.clearTable marks t)
  | o => o

/-- The heap whose marked tables are without the weak entries they lose. -/
def clearWeak (h : Heap χ) (marks : Marks) : Heap χ :=
  { h with
    slots := h.slots.mapIdx (fun i s => if marks.has i then { s with object := s.object.map (h.clearObject marks) } else s) }

/-- The heap with the references released, one after the other. -/
def releaseAll (h : Heap χ) (refs : List Ref) : Heap χ := refs.foldl release h

end Heap

/-! ## The phases -/

namespace Machine

/-- The machine after everything a collection does before it calls a finalizer, and how many objects it freed. What was taken
up is pending. -/
def reclaim (m : Machine χ σ) : Nat × Machine χ σ :=
  let held := m.heap.markFrom m.roots (.none m.heap.capacity)
  let doomed := (m.heap.unmarked held).filter m.heap.awaitsFinalizer
  let flagged := m.heap.flagAll doomed
  let kept := flagged.markFrom doomed held
  let cleared := flagged.clearWeak kept
  let dead := cleared.unmarked kept
  (dead.length, { m with heap := cleared.releaseAll dead, pending := m.pending ++ doomed })

/-- The finalizer of a userdata: the function under `__gc` in its metatable. -/
def finalizer? (m : Machine χ σ) (r : Ref) : Option Value :=
  match m.metafield (.userdata r) "__gc" with
  | .ok (.function f) => some (.function f)
  | _ => none

end Machine

namespace Action

/-- What came of the finalizers of a collection: how many were called, and what the first that failed reported. -/
structure Finalized where
  called : Nat
  failure : Option String
  deriving DecidableEq, Repr

/-- Calls the finalizers of userdata, in order, each with its userdata. One that fails does not keep the others from being
called. Userdata without a function under `__gc` are passed over. -/
def finalizeAll (call : Caller χ σ) : List Ref → Machine χ σ → Finalized × Machine χ σ
  | [], m => (⟨0, none⟩, m)
  | r :: rest, m =>
    let m := { m with pending := rest }
    match m.finalizer? r with
    | none => finalizeAll call rest m
    | some f =>
      let (result, m) := call f [.userdata r] m
      let (others, m) := finalizeAll call rest m
      match result with
      | .ok _ => ({ others with called := others.called + 1 }, m)
      | .error e => (⟨others.called + 1, some e.report⟩, m)

/-- Collects garbage and answers how many objects were freed, or fails with what the first finalizer that failed reported. -/
def collect (call : Caller χ σ) : Action χ σ Nat := fun m =>
  if m.collecting then (.ok 0, m)
  else
    let (freed, m) := { m with collecting := true }.reclaim
    let (done, m) := finalizeAll call m.pending m
    let statistics := m.statistics.add freed done.called m.heap.live
    let m := { m with collecting := false, statistics }
    match done.failure with
    | none => (.ok freed, m)
    | some text => (.error (.finalizer text), m)

end Action

end ScriptHost

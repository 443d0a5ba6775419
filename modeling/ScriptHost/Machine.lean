import ScriptHost.Heap
import ScriptHost.Pins

/-!
# The machine

A machine is a heap with two tables that are always there, the registry and the globals, a stack of values, the pins, and the
bookkeeping of calls and collections. It also carries, untouched, whatever the host keeps of its own (`host`), so that native
code can have a memory.

An `Action` is a step of the machine: it answers or fails, and either way says what the machine is afterwards, because what
was done before a fault stays done.
-/

namespace ScriptHost

/-- The limits of a machine: how deep native calls nest, how many objects a metamethod chain visits, and how many values the
stack may hold when a call starts. -/
structure Limits where
  maxCallDepth : Nat
  maxIndexChain : Nat
  stackLimit : Nat
  deriving DecidableEq, Repr

/-- The limits of a machine that is given none. -/
def Limits.standard : Limits := ⟨200, 100, 8000⟩

/-- What collections have done so far, and what the last one did. -/
structure Statistics where
  collections : Nat
  objectsFreed : Nat
  finalizersRun : Nat
  lastFreed : Nat
  liveObjects : Nat
  deriving DecidableEq, Repr

/-- No collection yet. -/
def Statistics.none : Statistics := ⟨0, 0, 0, 0, 0⟩

/-- The statistics after one more collection. -/
def Statistics.add (s : Statistics) (freed finalizers live : Nat) : Statistics :=
  ⟨s.collections + 1, s.objectsFreed + freed, s.finalizersRun + finalizers, freed, live⟩

/-- A machine whose functions have codes in `χ` and whose host keeps a `σ`. `pending` are the userdata whose finalizers a
collection has still to run, `collecting` says that one is under way. -/
structure Machine (χ σ : Type) where
  heap : Heap χ
  registry : Ref
  globals : Ref
  stack : Array Value
  pins : Pins
  limits : Limits
  depth : Nat
  pending : List Ref
  collecting : Bool
  statistics : Statistics
  host : σ

namespace Machine

variable {χ σ : Type}

/-- A new machine: two empty tables on the heap, nothing else. -/
def start (limits : Limits) (host : σ) : Machine χ σ :=
  let (registry, heap) := Heap.empty.allocate (.table .empty)
  let (globals, heap) := heap.allocate (.table .empty)
  { heap, registry, globals, stack := #[], pins := .empty, limits, depth := 0, pending := [], collecting := false,
    statistics := .none, host }

/-- How many values are on the stack. -/
def top (m : Machine χ σ) : Nat := m.stack.size

/-- The value at a place of the stack: a positive place counts from the bottom, a negative one from the top, both from one. -/
def stackAt (m : Machine χ σ) (place : Int) : Value :=
  let position : Int := if 0 < place then place - 1 else if place < 0 then m.stack.size + place else -1
  if position < 0 then .nil else (m.stack[position.toNat]?).getD .nil

/-- The types of the values on the stack, bottom first. -/
def stackTypes (m : Machine χ σ) : List TypeName := m.stack.toList.map Value.typeName

/-- Everything the machine holds on to: the roots a collection starts from. -/
def roots (m : Machine χ σ) : List Ref :=
  m.registry :: m.globals ::
    (m.stack.toList.filterMap Value.ref? ++ m.pins.values.filterMap Value.ref? ++ m.pending)

end Machine

/-! ## Actions -/

/-- A step of the machine with an answer. -/
def Action (χ σ α : Type) : Type := Machine χ σ → Except Fault α × Machine χ σ

namespace Action

variable {χ σ α β : Type}

/-- The step that answers and changes nothing. -/
protected def pure (a : α) : Action χ σ α := fun m => (.ok a, m)

/-- One step after another; the second is not taken when the first fails. -/
protected def bind (x : Action χ σ α) (f : α → Action χ σ β) : Action χ σ β := fun m =>
  match x m with
  | (.ok a, m') => f a m'
  | (.error e, m') => (.error e, m')

instance : Monad (Action χ σ) where
  pure := Action.pure
  bind := Action.bind

/-- The step that fails and changes nothing. -/
def fail (e : Fault) : Action χ σ α := fun m => (.error e, m)

/-- The step that looks at the machine. -/
def look : Action χ σ (Machine χ σ) := fun m => (.ok m, m)

/-- The step that reads something off the machine, or fails, and changes nothing. -/
def query (f : Machine χ σ → Except Fault α) : Action χ σ α := fun m => (f m, m)

/-- The step that answers or fails as told. -/
def ofExcept (r : Except Fault α) : Action χ σ α := fun m => (r, m)

/-- The step that changes the machine. -/
def modify (f : Machine χ σ → Machine χ σ) : Action χ σ Unit := fun m => (.ok (), f m)

/-- The step that changes the heap, or fails and changes nothing. -/
def onHeap (f : Heap χ → Except Fault (Heap χ)) : Action χ σ Unit := fun m =>
  match f m.heap with
  | .ok heap => (.ok (), { m with heap })
  | .error e => (.error e, m)

/-- The step that makes a new object. -/
def allocate (o : Object χ) : Action χ σ Ref := fun m =>
  let (r, heap) := m.heap.allocate o
  (.ok r, { m with heap })

end Action

/-! ## Calls -/

/-- What a native function is called with: arguments, and the values bound to it. -/
structure Call where
  args : List Value
  upvalues : List Value
  deriving DecidableEq, Repr

namespace Call

/-- The argument at a place counted from one, nil when there is none. -/
def arg (c : Call) : Nat → Value
  | 0 => .nil
  | place + 1 => (c.args[place]?).getD .nil

/-- The bound value at a place counted from one. -/
def upvalue? (c : Call) : Nat → Option Value
  | 0 => none
  | place + 1 => c.upvalues[place]?

end Call

/-- What calls a function value with arguments. The operations that may call take it as a parameter. -/
abbrev Caller (χ σ : Type) : Type := Value → List Value → Action χ σ (List Value)

end ScriptHost

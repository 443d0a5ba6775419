import ScriptHost.Fault

/-!
# The heap

An arena of slots. A free slot is taken last freed first, and freeing a slot moves its generation on, so a reference made for
an earlier occupant no longer finds anything. Every lookup through a reference can therefore fail in two ways: the reference is
stale, or the object is of another kind than the one asked for.
-/

namespace ScriptHost

variable {χ : Type}

/-- A slot: how often it was freed, as a 32-bit count, and its object unless it is free. -/
structure Slot (χ : Type) where
  generation : UInt32
  object : Option (Object χ)
  deriving DecidableEq

/-- The heap: its slots, of which there are fewer than 2^32, the free slots with the one to be reused next in front, and the number
of objects. -/
structure Heap (χ : Type) where
  slots : Array (Slot χ)
  free : List Nat
  live : Nat
  deriving DecidableEq

namespace Heap

/-- The heap without slots. -/
def empty : Heap χ := ⟨#[], [], 0⟩

/-- The number of slots, free or not. -/
def capacity (h : Heap χ) : Nat := h.slots.size

/-- The object a reference finds: the one in its slot, if the slot is not free and of the generation of the reference. -/
def object? (h : Heap χ) (r : Ref) : Option (Object χ) :=
  match h.slots[r.slot]? with
  | some s => if s.generation = r.generation then s.object else none
  | none => none

/-- The reference finds an object. -/
def contains (h : Heap χ) (r : Ref) : Bool := (h.object? r).isSome

/-- The object a reference finds, or the fault of a stale reference. -/
def get (h : Heap χ) (r : Ref) : Except Fault (Object χ) :=
  match h.object? r with
  | some o => .ok o
  | none => .error .stale

/-- The table a reference finds. -/
def table (h : Heap χ) (r : Ref) : Except Fault Table :=
  match h.get r with
  | .ok (.table t) => .ok t
  | .ok o => .error (.type (.kind .table o.kind))
  | .error e => .error e

/-- The userdata a reference finds. -/
def userdata (h : Heap χ) (r : Ref) : Except Fault Userdata :=
  match h.get r with
  | .ok (.userdata u) => .ok u
  | .ok o => .error (.type (.kind .userdata o.kind))
  | .error e => .error e

/-- The native function a reference finds. -/
def function (h : Heap χ) (r : Ref) : Except Fault (NativeFunction χ) :=
  match h.get r with
  | .ok (.function f) => .ok f
  | .ok o => .error (.type (.kind .function o.kind))
  | .error e => .error e

/-- The heap with another object in a slot. -/
def put (h : Heap χ) (i : Nat) (o : Object χ) : Heap χ :=
  { h with slots := h.slots.modify i (fun s => { s with object := some o }) }

/-- The heap with a table changed. -/
def changeTable (h : Heap χ) (r : Ref) (f : Table → Table) : Except Fault (Heap χ) :=
  match h.table r with
  | .ok t => .ok (h.put r.slot (.table (f t)))
  | .error e => .error e

/-- The heap with a userdata changed. -/
def changeUserdata (h : Heap χ) (r : Ref) (f : Userdata → Userdata) : Except Fault (Heap χ) :=
  match h.userdata r with
  | .ok u => .ok (h.put r.slot (.userdata (f u)))
  | .error e => .error e

/-- Makes a new object: in the slot freed last, with the generation that slot has come to, or in a new slot. -/
def allocate (h : Heap χ) (o : Object χ) : Ref × Heap χ :=
  match h.free with
  | i :: rest =>
    (⟨i, (h.slots[i]?.map Slot.generation).getD 0⟩, { h.put i o with free := rest, live := h.live + 1 })
  | [] => (⟨h.slots.size, 0⟩, { h with slots := h.slots.push ⟨0, some o⟩, live := h.live + 1 })

/-- Frees the object a reference finds: its slot is empty, of the next generation, and the next to be reused. -/
def release (h : Heap χ) (r : Ref) : Heap χ :=
  if h.contains r then
    { slots := h.slots.modify r.slot (fun s => ⟨s.generation + 1, none⟩)
      free := r.slot :: h.free
      live := h.live - 1 }
  else h

/-- The references to all objects, in ascending order of their slots. -/
def refs (h : Heap χ) : List Ref :=
  h.slots.toList.zipIdx.filterMap (fun e => e.1.object.map (fun _ => ⟨e.2, e.1.generation⟩))

end Heap

end ScriptHost

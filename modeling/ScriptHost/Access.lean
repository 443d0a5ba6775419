import ScriptHost.Machine

/-!
# Raw access

Reading and writing without metamethods: tables, metatables, environments, the registry, the globals, the stack and the pins.
What only reads is a function of the machine; what writes is an `Action`.
-/

namespace ScriptHost

variable {χ σ : Type}

namespace Machine

/-- The value under a key of a table. The table is looked up first; then a nil or NaN key, under which nothing is ever
stored, reads nil. -/
def rawGet (m : Machine χ σ) (t : Ref) (k : Value) : Except Fault Value :=
  match m.heap.table t with
  | .error e => .error e
  | .ok table =>
    match Key.ofValue k with
    | .ok key => .ok (table.get key)
    | .error _ => .ok .nil

/-- The value under a text of a table. -/
def rawField (m : Machine χ σ) (t : Ref) (name : String) : Except Fault Value :=
  match m.heap.table t with
  | .error e => .error e
  | .ok table => .ok (table.field name)

/-- The value under an integer of a table. -/
def rawIndex (m : Machine χ σ) (t : Ref) (i : Int64) : Except Fault Value :=
  match m.heap.table t with
  | .error e => .error e
  | .ok table => .ok (table.get (.integer i))

/-- The border of a table. -/
def rawLength (m : Machine χ σ) (t : Ref) : Except Fault Nat :=
  match m.heap.table t with
  | .error e => .error e
  | .ok table => .ok table.border

/-- The metatable of a table or userdata; no other value has one. -/
def metatable (m : Machine χ σ) : Value → Except Fault (Option Ref)
  | .table r =>
    match m.heap.table r with
    | .error e => .error e
    | .ok t => .ok t.metatable
  | .userdata r =>
    match m.heap.userdata r with
    | .error e => .error e
    | .ok u => .ok u.metatable
  | _ => .ok none

/-- A field of the metatable of a value, nil without one. -/
def metafield (m : Machine χ σ) (v : Value) (name : String) : Except Fault Value :=
  match m.metatable v with
  | .error e => .error e
  | .ok none => .ok .nil
  | .ok (some mt) => m.rawField mt name

/-- The environment of a userdata. -/
def environment (m : Machine χ σ) (u : Ref) : Except Fault (Option Ref) :=
  match m.heap.userdata u with
  | .error e => .error e
  | .ok u => .ok u.environment

/-- An entry of the registry. -/
def registryField (m : Machine χ σ) (name : String) : Except Fault Value := m.rawField m.registry name

/-- A global. -/
def globalField (m : Machine χ σ) (name : String) : Except Fault Value := m.rawField m.globals name

end Machine

namespace Action

/-- Puts a value under a key of a table; nil removes the entry. A value that is no key is refused before the table is looked
up. -/
def rawSet (t : Ref) (k v : Value) : Action χ σ Unit :=
  match Key.ofValue k with
  | .error cause => fail (.key cause)
  | .ok key => onHeap (fun h => h.changeTable t (fun table => table.set key v))

/-- Puts a value under a text of a table. -/
def setField (t : Ref) (name : String) (v : Value) : Action χ σ Unit :=
  onHeap (fun h => h.changeTable t (fun table => table.set (.string name) v))

/-- Puts a value under an integer of a table. -/
def setAt (t : Ref) (i : Int64) (v : Value) : Action χ σ Unit :=
  onHeap (fun h => h.changeTable t (fun table => table.set (.integer i) v))

/-- Takes the entry of a key out of a table and answers what it held. -/
def remove (t : Ref) (k : Value) : Action χ σ (Option Value) :=
  match Key.ofValue k with
  | .error cause => fail (.key cause)
  | .ok key => do
    let table ← query (fun m => m.heap.table t)
    onHeap (fun h => h.changeTable t (fun table => table.erase key))
    return table.find? key

/-- A new table without entries. -/
def newTable : Action χ σ Ref := allocate (.table .empty)

/-- A new userdata around a payload. -/
def newUserdata (p : Payload) : Action χ σ Ref := allocate (.userdata (.ofPayload p))

/-- A new native function with bound values. -/
def newFunction (name : String) (code : Code χ) (upvalues : List Value) : Action χ σ Ref :=
  allocate (.function ⟨name, code, upvalues⟩)

/-- The reference, where there is one, is to a table. -/
def requireTable : Option Ref → Action χ σ Unit
  | none => pure ()
  | some r => do
    let _ ← query (fun m => m.heap.table r)

/-- Gives a table or userdata a metatable, or takes it away. The new metatable is looked up first. -/
def setMetatable (v : Value) (mt : Option Ref) : Action χ σ Unit := do
  requireTable mt
  match v with
  | .table r => onHeap (fun h => h.changeTable r (fun t => { t with metatable := mt }))
  | .userdata r => onHeap (fun h => h.changeUserdata r (fun u => { u with metatable := mt }))
  | other => fail (.type (.noMetatable other.typeName))

/-- Gives a userdata an environment, or takes it away. The new environment is looked up first. -/
def setEnvironment (u : Ref) (env : Option Ref) : Action χ σ Unit := do
  requireTable env
  onHeap (fun h => h.changeUserdata u (fun u => { u with environment := env }))

/-- Replaces the payload of a userdata by one of the same type, and answers whether it was of that type. -/
def setPayload (u : Ref) (p : Payload) : Action χ σ Bool := do
  let held ← query (fun m => m.heap.userdata u)
  if held.payload.sameType p then
    onHeap (fun h => h.changeUserdata u (fun u => { u with payload := p }))
    return true
  else return false

/-- Sets an entry of the registry. -/
def setRegistry (name : String) (v : Value) : Action χ σ Unit := do
  let m ← look
  setField m.registry name v

/-- Sets a global. -/
def setGlobal (name : String) (v : Value) : Action χ σ Unit := do
  let m ← look
  setField m.globals name v

/-- The metatable registered under a name, made if there is none, and whether it was made. A new one knows its name. -/
def metatableNamed (name : String) : Action χ σ (Ref × Bool) := do
  match ← query (fun m => m.registryField name) with
  | .table r => return (r, false)
  | _ =>
    let mt ← newTable
    setField mt "__name" (.string name)
    setRegistry name (.table mt)
    return (mt, true)

/-! ## Stack and pins -/

/-- Puts a value on the stack. -/
def push (v : Value) : Action χ σ Unit := modify (fun m => { m with stack := m.stack.push v })

/-- Takes the top value off the stack; an empty stack gives nil. -/
def pop : Action χ σ Value := fun m => (.ok (m.stack.back?.getD .nil), { m with stack := m.stack.pop })

/-- Cuts the stack to a height, or fills it up to it with nils. -/
def setTop (height : Nat) : Action χ σ Unit :=
  modify (fun m => { m with stack := m.stack.take height ++ Array.replicate (height - m.stack.size) .nil })

/-- Pins a value. -/
def pin (v : Value) : Action χ σ Pin := fun m =>
  let (p, pins) := m.pins.pin v
  (.ok p, { m with pins })

/-- Takes a pin out and answers what it held. -/
def unpin (p : Pin) : Action χ σ (Option Value) := fun m =>
  let (v, pins) := m.pins.unpin p
  (.ok v, { m with pins })

end Action

end ScriptHost

import ScriptHost.Binding.Registry
import ScriptHost.Metamethod

/-!
# Attributes

What the three metamethods of every class do. Reading an attribute looks at the shadow of the handle, then at the class itself,
then at each base in its order, through the metamethods of that base; the first that has it wins. Writing one writes the shadow
and never a class. Finalizing a handle calls the finalizer that its shadow holds.

The function that reads attributes has the class table and the tables of the bases bound to it.
-/

namespace ScriptHost

variable {χ σ : Type}

namespace Attribute

/-- The shadow of a receiver: the environment of a userdata. -/
def shadow? (m : Machine χ σ) : Value → Except Fault (Option Ref)
  | .userdata r => m.environment r
  | _ => .ok none

/-- What the shadow of a receiver has under a key. -/
def inShadow (m : Machine χ σ) (receiver key : Value) : Except Fault Value :=
  match shadow? m receiver with
  | .error e => .error e
  | .ok none => .ok .nil
  | .ok (some shadow) => m.rawGet shadow key

/-- What a class has under a key of its own. -/
def inClass (m : Machine χ σ) (key : Value) : Value → Except Fault Value
  | .table t => m.rawGet t key
  | _ => .ok .nil

/-- What the first of some bases has under a key that has anything there. -/
def inBases (call : Caller χ σ) (key : Value) : List Value → Action χ σ Value
  | [] => pure .nil
  | .table t :: bases => do
    let found ← Action.index call (.table t) key
    if found.isNil then inBases call key bases else return found
  | _ :: bases => inBases call key bases

/-- What a class, or else the first of its bases, has under a key. -/
def inHierarchy (call : Caller χ σ) (key : Value) : List Value → Action χ σ Value
  | [] => pure .nil
  | cls :: bases => do
    let own ← Action.query (fun m => inClass m key cls)
    if own.isNil then inBases call key bases else return own

/-- Reads an attribute: the arguments are the receiver and the key, the bound values the class and its bases. -/
def read (call : Caller χ σ) (c : Call) : Action χ σ (List Value) := do
  let own ← Action.query (fun m => inShadow m (c.arg 1) (c.arg 2))
  if own.isNil then return [← inHierarchy call (c.arg 2) c.upvalues] else return [own]

/-- Writes an attribute: the arguments are the receiver, the key and the value. A receiver without a shadow takes nothing. -/
def write (c : Call) : Action χ σ (List Value) := do
  match ← Action.query (fun m => shadow? m (c.arg 1)) with
  | none => return []
  | some shadow =>
    Action.rawSet shadow (c.arg 2) (c.arg 3)
    return []

/-- Finalizes a handle: calls the function that its shadow has under `__gc`, if there is one, with the handle. -/
def finalize (call : Caller χ σ) (c : Call) : Action χ σ (List Value) := do
  match ← Action.query (fun m => shadow? m (c.arg 1)) with
  | none => return []
  | some shadow =>
    match ← Action.query (fun m => m.rawField shadow Registry.finalizeName) with
    | .function f =>
      let _ ← call (.function f) [c.arg 1]
      return []
    | _ => return []

/-- A new function that reads the attributes of a class with some bases. -/
def newReader (name : String) (cls : Ref) (bases : List Ref) : Action χ σ Ref :=
  Action.newFunction (name ++ "." ++ Registry.readName) .readAttribute ((cls :: bases).map .table)

end Attribute

end ScriptHost

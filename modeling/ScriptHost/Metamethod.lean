import ScriptHost.Collection

/-!
# Metamethods

Reading and writing with metamethods follow a chain. At each object of it something is found, or a function takes over, or the
access goes on with another value. The chain visits at most as many objects as the limits allow; one that is longer, a cyclic
one for instance, is a stack overflow.
-/

namespace ScriptHost

variable {χ σ : Type}

/-- What an access does at one object of its chain. -/
inductive Hop where
  /-- A read has found the value, a write has found the table under which the value belongs. -/
  | stop (v : Value)
  /-- The function takes over. -/
  | enter (f : Value)
  /-- The access goes on with the value. -/
  | next (v : Value)
  deriving DecidableEq, Repr

/-- Where a handler that is not nil leads: a function takes over, with anything else the access goes on. -/
def Hop.ofHandler : Value → Hop
  | .function f => .enter (.function f)
  | v => .next v

namespace Machine

/-- The hop at a value that is not a table: there has to be a handler. -/
def handlerHop (m : Machine χ σ) (current : Value) (name : String) : Except Fault Hop :=
  match m.metafield current name with
  | .error e => .error e
  | .ok handler =>
    if handler.isNil then .error (.type (.notIndexable current.typeName)) else .ok (.ofHandler handler)

/-- The hop of a read: a table is read first, and one without a handler has nil. -/
def readHop (m : Machine χ σ) (current key : Value) : Except Fault Hop :=
  match current with
  | .table t =>
    match m.rawGet t key with
    | .error e => .error e
    | .ok found =>
      if found.isNil then
        match m.metafield current "__index" with
        | .error e => .error e
        | .ok handler => .ok (if handler.isNil then .stop .nil else .ofHandler handler)
      else .ok (.stop found)
  | _ => m.handlerHop current "__index"

/-- The hop of a write: it stops at a table that has the key already, or that has no handler. -/
def writeHop (m : Machine χ σ) (current key : Value) : Except Fault Hop :=
  match current with
  | .table t =>
    match m.rawGet t key with
    | .error e => .error e
    | .ok found =>
      if found.isNil then
        match m.metafield current "__newindex" with
        | .error e => .error e
        | .ok handler => .ok (if handler.isNil then .stop current else .ofHandler handler)
      else .ok (.stop current)
  | _ => m.handlerHop current "__newindex"

end Machine

namespace Action

/-- Follows the chain of a read through at most so many objects. A function is called with the object it was found at and the
key, and its first result is what was read. -/
def readAlong (call : Caller χ σ) (key : Value) : Nat → Value → Action χ σ Value
  | 0, _ => fail .overflow
  | hops + 1, current => do
    match ← query (fun m => m.readHop current key) with
    | .stop v => return v
    | .enter f => return (← call f [current, key]).headD .nil
    | .next v => readAlong call key hops v

/-- Follows the chain of a write through at most so many objects. A function is called with the object it was found at, the key
and the value, and its results are dropped. -/
def writeAlong (call : Caller χ σ) (key v : Value) : Nat → Value → Action χ σ Unit
  | 0, _ => fail .overflow
  | hops + 1, current => do
    match ← query (fun m => m.writeHop current key) with
    | .stop (.table t) => rawSet t key v
    | .stop _ => return ()
    | .enter f => discard (call f [current, key, v])
    | .next w => writeAlong call key v hops w

/-- What a value has under a key, metamethods included. -/
def index (call : Caller χ σ) (v key : Value) : Action χ σ Value := do
  let m ← look
  readAlong call key m.limits.maxIndexChain v

/-- Puts a value under a key of another value, metamethods included. -/
def setIndex (call : Caller χ σ) (target key v : Value) : Action χ σ Unit := do
  let m ← look
  writeAlong call key v m.limits.maxIndexChain target

/-- Calls what a value has under a name, with the value in front of the arguments. -/
def callMethod (call : Caller χ σ) (v : Value) (name : String) (args : List Value) : Action χ σ (List Value) := do
  let method ← index call v (.string name)
  if method.isNil then fail (.runtime ("method '" ++ name ++ "' is not defined")) else call method (v :: args)

end Action

end ScriptHost

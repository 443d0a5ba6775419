import ScriptHost.Binding.Registry
import ScriptHost.Metamethod

/-!
# Handles

A handle stands for a native object on the script side: a userdata with the address of the object, whose environment is a
table of its own, the shadow, for what scripts write on it. The pointer table lists the handle of each address and does not
keep it alive, so there is one handle for an address as long as anyone holds it. When the native object goes away its handle
stays, with the null address.

The class of a handle is its metatable, the class table, which says `true` under the name of the class.
-/

namespace ScriptHost

variable {χ σ : Type}

namespace Address

/-- The address of nothing. -/
def null : Address := 0

/-- The address, unless it is that of nothing. -/
def nonNull? (a : Address) : Option Address := if a = null then none else some a

/-- The full form of an address. -/
def fullText (a : Address) : String := "NativePtr(" ++ Address.text a ++ ")"

end Address

/-- A userdata that stands for nothing any more; only a handle is changed by that. -/
def Userdata.forgetAddress (u : Userdata) : Userdata :=
  match u.payload with
  | .handle _ => { u with payload := .handle Address.null }
  | _ => u

namespace Machine

/-- The address a handle stands for; no other userdata has one. -/
def address? (m : Machine χ σ) (r : Ref) : Option Address :=
  match m.heap.userdata r with
  | .ok ⟨.handle a, _, _, _⟩ => some a
  | _ => none

/-- The handle listed for an address. -/
def handleOf (m : Machine χ σ) (a : Address) : Except Fault (Option Ref) :=
  match Registry.find? m Registry.pointers with
  | none => .ok none
  | some pointers =>
    match m.rawGet pointers (.address a) with
    | .error e => .error e
    | .ok v => .ok v.userdata?

/-- The pointer table. -/
def pointerTable? (m : Machine χ σ) : Option Table :=
  (Registry.find? m Registry.pointers).bind (fun t => (m.heap.table t).toOption)

/-- How many addresses have a handle. -/
def handleCount (m : Machine χ σ) : Nat := (m.pointerTable?.map Table.size).getD 0

/-- The handle an entry of the pointer table lists. -/
def listedHandle? : Key × Value → Option (Address × Ref)
  | (.address a, .userdata r) => some (a, r)
  | _ => none

/-- Every address that has a handle, with it, in the order of the addresses. -/
def liveHandles (m : Machine χ σ) : List (Address × Ref) :=
  match m.pointerTable? with
  | none => []
  | some t => (t.entries.filterMap listedHandle?).mergeSort (fun x y => x.1 ≤ y.1)

/-! ## Classes of handles -/

/-- The address a value stands for, if it is a handle of any class. -/
def identity? (m : Machine χ σ) (v : Value) : Option Address := v.userdata?.bind m.address?

/-- The value is a userdata whose metatable says `true` under the name. -/
def isMarked (m : Machine χ σ) (v : Value) (name : String) : Bool :=
  match m.metatable v with
  | .ok (some mt) =>
    match m.rawField mt name with
    | .ok (.boolean b) => b
    | _ => false
  | _ => false

/-- The address of a handle whose class is exactly the one named. -/
def addressAs? (m : Machine χ σ) (v : Value) (name : String) : Option Address :=
  match m.identity? v with
  | some a => if m.isMarked v name then some a else none
  | none => none

/-- How a mismatch names what it found: a userdata by the name of its class, anything else by its type. -/
def describe (m : Machine χ σ) (v : Value) : String :=
  match v, m.metafield v "__name" with
  | .userdata _, .ok (.string name) => name
  | v, _ => v.typeName.text

/-- The address a handle of a class stands for, none once its native object is gone. -/
def unwrap (m : Machine χ σ) (v : Value) (name : String) : Except Fault (Option Address) :=
  match m.addressAs? v name with
  | some a => .ok (Address.nonNull? a)
  | none => .error (.mismatch name (m.describe v))

/-- The value is a handle of exactly the class. -/
def isOfClass (m : Machine χ σ) (v : Value) (name : String) : Bool := (m.addressAs? v name).isSome

end Machine

namespace Action

/-- The handle of an address, made with an empty shadow when none is listed. -/
def ensureHandle (a : Address) : Action χ σ Ref := do
  let pointers ← Registry.table Registry.pointers (some "v")
  match ← query (fun m => m.rawGet pointers (.address a)) with
  | .userdata r => return r
  | _ =>
    let handle ← newUserdata (.handle a)
    let shadow ← newTable
    setEnvironment handle (some shadow)
    rawSet pointers (.address a) (.userdata handle)
    return handle

/-- The native object at an address is gone: its handle gets the null address and is no longer listed. -/
def unregister (a : Address) : Action χ σ Unit := do
  let m ← look
  match Registry.find? m Registry.pointers with
  | none => return ()
  | some pointers =>
    match ← query (fun m => m.rawGet pointers (.address a)) with
    | .userdata handle =>
      onHeap (fun h => h.changeUserdata handle Userdata.forgetAddress)
      rawSet pointers (.address a) .nil
    | _ => return ()

/-- The handle of an address as an object of a class; nil for the null address. The class table is made empty if the class is
not installed yet, and is filled when it is. -/
def wrap (a : Address) (name : String) : Action χ σ Value := do
  if a = Address.null then return .nil
  else
    let handle ← ensureHandle a
    let (mt, _) ← metatableNamed name
    setMetatable (.userdata handle) (some mt)
    return .userdata handle

/-- The value is a handle of the class or of one derived from it: it has `true` under the name of the class, metamethods
included. -/
def isKindOf (call : Caller χ σ) (v : Value) (name : String) : Action χ σ Bool := do
  let m ← look
  if (m.identity? v).isNone then return false
  else
    let reader ← query (fun m => m.metafield v Registry.readName)
    if reader.isNil then return false
    else return (← index call v (.string name)) == .boolean true

end Action

end ScriptHost

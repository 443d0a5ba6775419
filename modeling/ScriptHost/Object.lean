import ScriptHost.Table

/-!
# Objects

The heap holds tables, userdata and native functions. What a function does is named by its code: the three metamethods every
class has, or a code of the host, whose meaning the host supplies (`Host`). The heap therefore holds data only.
-/

namespace ScriptHost

/-- What a userdata holds for the host: a scratch number or text, nothing, the address of a native object, or the texts of an
argument vector as bytes. -/
inductive Payload where
  | int32 (i : Int32)
  | int64 (i : Int64)
  | byte (b : UInt8)
  | text (s : String)
  | unit
  | handle (a : Address)
  | arguments (texts : List (List UInt8))
  deriving DecidableEq, Repr

/-- Two payloads are of one type. -/
def Payload.sameType : Payload → Payload → Bool
  | int32 _, int32 _ | int64 _, int64 _ | byte _, byte _ | text _, text _ | unit, unit => true
  | handle _, handle _ | arguments _, arguments _ => true
  | _, _ => false

/-- A userdata: a payload of the host, a metatable, an environment of its own, and whether the collector has already taken it
up for finalization. -/
structure Userdata where
  payload : Payload
  metatable : Option Ref
  environment : Option Ref
  finalized : Bool
  deriving DecidableEq, Repr

/-- A new userdata around a payload. -/
def Userdata.ofPayload (p : Payload) : Userdata := ⟨p, none, none, false⟩

/-- What a native function does: reads an attribute of a handle, writes one, finalizes a handle, or what the host says. -/
inductive Code (χ : Type) where
  | readAttribute
  | writeAttribute
  | finalizeHandle
  | host (code : χ)
  deriving DecidableEq, Repr

/-- A native function: a name, a code, and the values bound to it, which it keeps alive. -/
structure NativeFunction (χ : Type) where
  name : String
  code : Code χ
  upvalues : List Value
  deriving DecidableEq, Repr

/-- The kinds of object. -/
inductive Kind where
  | table | userdata | function
  deriving DecidableEq, Repr

/-- The word for a kind of object. -/
def Kind.text : Kind → String
  | .table => "table"
  | .userdata => "userdata"
  | .function => "function"

/-- An object of the heap. -/
inductive Object (χ : Type) where
  | table (t : Table)
  | userdata (u : Userdata)
  | function (f : NativeFunction χ)
  deriving DecidableEq, Repr

/-- The kind of an object. -/
def Object.kind {χ : Type} : Object χ → Kind
  | table _ => .table
  | userdata _ => .userdata
  | function _ => .function

/-! ## Full forms -/

/-- The full form of an optional reference. -/
def Ref.optionText : Option Ref → String
  | none => "None"
  | some r =>
    "Some(GcRef \x7b index: " ++ toString r.slot ++ ", generation: " ++ toString r.generation.toNat ++ " \x7d)"

/-- The full form of a userdata, which leaves its payload out. -/
def Userdata.fullText (u : Userdata) : String :=
  "Userdata \x7b metatable: " ++ Ref.optionText u.metatable ++ ", environment: " ++ Ref.optionText u.environment ++
    ", finalized: " ++ toString u.finalized ++ ", .. \x7d"

/-- The full form of a function: its name and how many values are bound to it. -/
def NativeFunction.fullText {χ : Type} (f : NativeFunction χ) : String :=
  "Function \x7b name: " ++ Quoted.quote f.name ++ ", upvalues: " ++ toString f.upvalues.length ++ " \x7d"

end ScriptHost

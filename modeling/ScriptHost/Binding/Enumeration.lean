import ScriptHost.Binding.Registry

/-!
# Enumerations

An enumeration is a table that maps names to integers and integers back to names. Where two names have one integer the later
name is the one the integer maps to, and where a name is given twice its later integer counts.
-/

namespace ScriptHost

variable {χ σ : Type}

/-- What an enumeration is made from: its name, and its members in the order of their declaration. -/
structure EnumDescriptor where
  name : String
  members : List (String × Int64)
  deriving DecidableEq, Repr

namespace EnumDescriptor

/-- Puts members into the table of an enumeration, both ways. -/
def fill (t : Ref) : List (String × Int64) → Action χ σ Unit
  | [] => pure ()
  | (name, i) :: rest => do
    Action.setField t name (.integer i)
    Action.setAt t i (.string name)
    fill t rest

/-- Makes an enumeration, in the place of the one that had its name. -/
def define (d : EnumDescriptor) : Action χ σ Unit := do
  let all ← Registry.table Registry.enumerations none
  let t ← Action.newTable
  fill t d.members
  Action.setField all d.name (.table t)

/-- Makes enumerations one after the other. -/
def defineAll : List EnumDescriptor → Action χ σ Unit
  | [] => pure ()
  | d :: rest => do
    d.define
    defineAll rest

end EnumDescriptor

namespace Machine

/-- The table of an enumeration. -/
def enumeration? (m : Machine χ σ) (name : String) : Option Ref :=
  match Registry.find? m Registry.enumerations with
  | none => none
  | some all =>
    match m.rawField all name with
    | .ok v => v.table?
    | .error _ => none

/-- The integer of a member. -/
def memberValue? (m : Machine χ σ) (name member : String) : Option Int64 :=
  match m.enumeration? name with
  | none => none
  | some t =>
    match m.rawField t member with
    | .ok (.integer i) => some i
    | _ => none

/-- The member an integer maps to. -/
def memberName? (m : Machine χ σ) (name : String) (i : Int64) : Option String :=
  match m.enumeration? name with
  | none => none
  | some t =>
    match m.rawIndex t i with
    | .ok (.string member) => some member
    | _ => none

/-- The value is the name of a member. -/
def isMember (m : Machine χ σ) (name : String) (v : Value) : Bool :=
  match v.string? with
  | some member => (m.memberValue? name member).isSome
  | none => false

/-- An integer as scripts see it: the name of its member, nil if there is none. -/
def enumValue (m : Machine χ σ) (name : String) (i : Int64) : Value :=
  match m.memberName? name i with
  | some member => .string member
  | none => .nil

/-- The integer a script means: that of the member it names, or the number it gives, which need not be one of a member, so
that members can be combined. -/
def ofEnumValue? (m : Machine χ σ) (v : Value) (name : String) : Option Int64 :=
  match v with
  | .string member => m.memberValue? name member
  | v => v.integer?

end Machine

end ScriptHost

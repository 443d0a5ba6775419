import ScriptHost.Access

/-!
# The tables of the binding layer

The binding layer keeps its tables in the registry, under names that no class may have. A table is made when it is first
needed.
-/

namespace ScriptHost.Registry

variable {χ σ : Type}

/-- Where the handle of each native address is listed, weakly. -/
def pointers : String := "tether.pointers"

/-- Where the enumerations are. -/
def enumerations : String := "tether.enums"

/-- Where the reference cells are listed, weakly. -/
def cells : String := "tether.refs"

/-- Where the number of the next reference cell is. -/
def nextCell : String := "tether.refs.next"

/-- The names that belong to the binding layer. -/
def reserved : List String := [pointers, enumerations, cells, nextCell]

/-- The metamethod of reading. -/
def readName : String := "__index"

/-- The metamethod of writing. -/
def writeName : String := "__newindex"

/-- The metamethod of finalization. -/
def finalizeName : String := "__gc"

/-- The field of a metatable that says what is held weakly. -/
def modeName : String := "__mode"

/-- What the name of a class of pointers ends in. -/
def pointerMarker : Char := '*'

/-- The table under a name of the registry, if there is one. -/
def find? (m : Machine χ σ) (name : String) : Option Ref :=
  match m.registryField name with
  | .ok v => v.table?
  | .error _ => none

/-- A new table that holds weakly what the mode says. -/
def newWeakTable (mode : String) : Action χ σ Ref := do
  let t ← Action.newTable
  let mt ← Action.newTable
  Action.setField mt modeName (.string mode)
  Action.setMetatable (.table t) (some mt)
  return t

/-- The table under a name of the registry. One that is not there yet is made, holding weakly what the mode says. -/
def table (name : String) (mode : Option String) : Action χ σ Ref := do
  match ← Action.query (fun m => m.registryField name) with
  | .table t => return t
  | _ =>
    let t ← (mode.map newWeakTable).getD Action.newTable
    Action.setRegistry name (.table t)
    return t

end ScriptHost.Registry

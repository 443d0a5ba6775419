import ScriptHost.Binding.Registry

/-!
# Reference cells

A reference cell is a userdata that holds scratch data of a native call: a number that the callee writes, or an argument
vector. Cells are listed in a table that holds them weakly, so a cell lives until the first collection after the last
reference to it is gone. The places in that table are counted up and never used twice.
-/

namespace ScriptHost

variable {χ σ : Type}

/-- The types of number a cell can be read as. -/
inductive CellType where
  | int32 | int64 | byte
  deriving DecidableEq, Repr

namespace CellType

/-- How a mismatch names the type of a cell. -/
def text : CellType → String
  | int32 => "i32"
  | int64 => "i64"
  | byte => "u8"

/-- The payload of the type that an integer goes to, modulo the width of the type. -/
def payload : CellType → Int → Payload
  | int32, i => .int32 (Int32.ofInt i)
  | int64, i => .int64 (Int64.ofInt i)
  | byte, i => .byte (UInt8.ofInt i)

/-- The integer a payload is, if it is of the type. -/
def read? : CellType → Payload → Option Int
  | int32, .int32 i => some i.toInt
  | int64, .int64 i => some i.toInt
  | byte, .byte b => some (b.toNat : Int)
  | _, _ => none

end CellType

namespace Machine

/-- The number in a cell, if it is of the type. -/
def cellNumber (m : Machine χ σ) (cell : Ref) (type : CellType) : Except Fault Int :=
  match m.heap.userdata cell with
  | .error e => .error e
  | .ok u =>
    match type.read? u.payload with
    | some i => .ok i
    | none => .error (.mismatch type.text "reference cell of another type")

/-- How many cells are alive. -/
def cellCount (m : Machine χ σ) : Nat :=
  match Registry.find? m Registry.cells with
  | none => 0
  | some cells =>
    match m.heap.table cells with
    | .ok t => t.size
    | .error _ => 0

end Machine

namespace Cell

/-- The place after a place. It is never below one, also where the count wraps. -/
def after (place : Int64) : Int64 :=
  let next := place + 1
  if next < 1 then 1 else next

/-- Takes the next place of the table of cells. -/
def nextPlace : Action χ σ Int64 := do
  let counter ← Action.query (fun m => m.registryField Registry.nextCell)
  let place := counter.integer?.getD 1
  Action.setRegistry Registry.nextCell (.integer (after place))
  return place

/-- Makes a cell that holds a payload. -/
def stage (p : Payload) : Action χ σ Ref := do
  let cells ← Registry.table Registry.cells (some "kv")
  let cell ← Action.newUserdata p
  let place ← nextPlace
  Action.setAt cells place (.userdata cell)
  return cell

end Cell

end ScriptHost

import ScriptHost.Binding.Cell
import ScriptHost.Text.Utf8

/-!
# Arguments

Tests on arguments, by which overloads are told apart, and argument vectors: lists of byte strings that end at their first NUL,
made from the texts and numbers at the front of a script table and turned back into a table of texts.
-/

namespace ScriptHost

variable {χ σ : Type}

/-! ## Tests -/

namespace Value

/-- The value is a number without a fraction, in the range of the integers. -/
def isInteger (v : Value) : Bool := v.integer?.isSome

/-- The value is a number. -/
def isNumber : Value → Bool
  | integer _ | number _ => true
  | _ => false

/-- The value is a text. -/
def isString : Value → Bool
  | string _ => true
  | _ => false

/-- The value is a boolean. -/
def isBoolean : Value → Bool
  | boolean _ => true
  | _ => false

end Value

/-- The places `start`, `start + 1`, … of some arguments, `count` of them, hold nothing but nil. Places count from one, so place
zero holds nothing, and a range that goes beyond the last 64-bit number is cut there. -/
def Arguments.isMissing (args : List Value) (start count : UInt64) : Bool :=
  let stop := min (start.toNat + count.toNat) (UInt64.size - 1)
  ((args.take (stop - 1)).drop (start.toNat - 1)).all Value.isNil

/-! ## Argument vectors -/

/-- The texts at the front of a table, numbers counting as texts: those at one, two, and so on up to the first other value. A
table has no more of them than entries. -/
def Table.leadingTexts (t : Table) : List String :=
  let text? (n : Nat) : Option String := (t.get (.integer (Int64.ofNat (n + 1)))).coerceText?
  (((List.range t.size).map text?).takeWhile Option.isSome).filterMap id

/-- The bytes of a text up to its first NUL. -/
def Arguments.cut (s : String) : List UInt8 := (Utf8.encode s).takeWhile (· != 0)

/-- An argument vector in a cell. -/
structure StagedArguments where
  cell : Ref
  texts : List (List UInt8)
  deriving DecidableEq, Repr

namespace StagedArguments

/-- How many arguments there are. -/
def count (s : StagedArguments) : Nat := s.texts.length

/-- How many arguments there are, as a 32-bit integer: no more than the largest. -/
def countInt32 (s : StagedArguments) : Int32 := Int32.ofNat (min s.count Int32.maxValue.toNatClampNeg)

end StagedArguments

/-- An integer in a cell, as it was at first. -/
structure StagedInteger where
  cell : Ref
  value : Int32
  deriving DecidableEq, Repr

namespace Arguments

/-- Stages the texts at the front of a table as an argument vector. -/
def ofValue (v : Value) : Action χ σ StagedArguments :=
  match v with
  | .table r => do
    let t ← Action.query (fun m => m.heap.table r)
    let texts := t.leadingTexts.map cut
    return ⟨← Cell.stage (.arguments texts), texts⟩
  | v => Action.fail (.mismatch "table" v.typeName.text)

/-- Puts texts into a table, at the places from one after a number on. -/
def fill (t : Ref) : Nat → List String → Action χ σ Unit
  | _, [] => pure ()
  | n, s :: rest => do
    Action.setAt t (Int64.ofNat (n + 1)) (.string s)
    fill t (n + 1) rest

/-- A new table that holds texts, from one on. -/
def toTable (texts : List String) : Action χ σ Ref := do
  let t ← Action.newTable
  fill t 0 texts
  return t

/-- A new table that holds the texts of an argument vector; where bytes are no UTF-8 the text has replacement characters. -/
def toTableOfBytes (texts : List (List UInt8)) : Action χ σ Ref := toTable (texts.map Utf8.decode)

/-- The 32-bit integer a number is staged as: without its fraction, and at the end of the range beyond it. What is no number
is staged as zero. -/
def initialInteger (v : Value) : Int32 := (v.number?.map Binary64.toInt32).getD 0

/-- Stages an integer that a native call may write. -/
def stageInteger (v : Value) : Action χ σ StagedInteger := do
  let value := initialInteger v
  return ⟨← Cell.stage (.int32 value), value⟩

end Arguments

end ScriptHost

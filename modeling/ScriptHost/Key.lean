import ScriptHost.Value

/-!
# Keys

A table is looked up by a key, the form of a value in which equal keys are equal data: a double that is an integer becomes
that integer, every other double is kept by its bits. Nil and the NaNs have no key.
-/

namespace ScriptHost

/-- A key of a table. -/
inductive Key where
  | boolean (b : Bool)
  | integer (i : Int64)
  | number (bits : UInt64)
  | string (s : String)
  | address (a : Address)
  | table (r : Ref)
  | userdata (r : Ref)
  | function (r : Ref)
  deriving DecidableEq, Repr

/-- A value that is no key. -/
inductive NoKey where
  | nil | nan
  deriving DecidableEq, Repr

/-- How a fault names a value that is no key. -/
def NoKey.text : NoKey → String
  | .nil => "nil"
  | .nan => "NaN"

namespace Key

/-- The key of a value. -/
def ofValue : Value → Except NoKey Key
  | .nil => .error .nil
  | .boolean b => .ok (.boolean b)
  | .integer i => .ok (.integer i)
  | .number x =>
    if x.isNaN then .error .nan
    else
      match x.toInt64? with
      | some i => .ok (.integer i)
      | none => .ok (.number x.bits)
  | .string s => .ok (.string s)
  | .address a => .ok (.address a)
  | .table r => .ok (.table r)
  | .userdata r => .ok (.userdata r)
  | .function r => .ok (.function r)

/-- The value a key stands for. -/
def toValue : Key → Value
  | boolean b => .boolean b
  | integer i => .integer i
  | number bits => .number ⟨bits⟩
  | string s => .string s
  | address a => .address a
  | table r => .table r
  | userdata r => .userdata r
  | function r => .function r

/-- The reference a key carries. -/
def ref? (k : Key) : Option Ref := k.toValue.ref?

end Key

end ScriptHost

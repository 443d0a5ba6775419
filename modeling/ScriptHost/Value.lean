import ScriptHost.Number.Decimal
import ScriptHost.Text.Quoted

/-!
# Values

A script value is nil, a boolean, a 64-bit integer, a double, a text, a raw address of the host, or a reference to an object
on the heap. A reference carries the kind of object it was made for; nothing forces it to be right, and every use of it looks
the object up.
-/

namespace ScriptHost

/-- A reference to an object: a slot of the heap and the generation of that slot the reference was made for. When the slot is
freed its generation moves on, and the reference is stale. The number of a slot is one of 32 bits; a heap has fewer than 2^32 slots,
so it is a natural number here that is never cut off. -/
structure Ref where
  slot : Nat
  generation : UInt32
  deriving DecidableEq, Repr

/-- The text of a reference: `#slot.generation`. -/
def Ref.text (r : Ref) : String := "#" ++ toString r.slot ++ "." ++ toString r.generation.toNat

/-- An address of the host's memory. It is compared and printed, never followed. -/
abbrev Address := UInt64

/-- The text of an address: hexadecimal, without padding. -/
def Address.text (a : Address) : String := "0x" ++ String.ofList (Nat.toDigits 16 a.toNat)

/-- A script value. -/
inductive Value where
  | nil
  | boolean (b : Bool)
  | integer (i : Int64)
  | number (x : Binary64)
  | string (s : String)
  | address (a : Address)
  | table (r : Ref)
  | userdata (r : Ref)
  | function (r : Ref)
  deriving DecidableEq, Repr

instance : Inhabited Value := ⟨.nil⟩

/-- The types scripts tell apart. Integers and doubles are both numbers. -/
inductive TypeName where
  | nil | boolean | number | string | lightuserdata | table | userdata | function
  deriving DecidableEq, Repr

/-- The word scripts know a type by. -/
def TypeName.text : TypeName → String
  | .nil => "nil"
  | .boolean => "boolean"
  | .number => "number"
  | .string => "string"
  | .lightuserdata => "lightuserdata"
  | .table => "table"
  | .userdata => "userdata"
  | .function => "function"

namespace Value

/-- The type of a value, as scripts see it. -/
def typeName : Value → TypeName
  | nil => .nil
  | boolean _ => .boolean
  | integer _ | number _ => .number
  | string _ => .string
  | address _ => .lightuserdata
  | table _ => .table
  | userdata _ => .userdata
  | function _ => .function

/-- The value is nil. -/
def isNil : Value → Bool
  | nil => true
  | _ => false

/-- Everything but nil and false counts as true. -/
def isTruthy : Value → Bool
  | nil | boolean false => false
  | _ => true

/-- The reference a value carries, whatever kind of object it says it refers to. -/
def ref? : Value → Option Ref
  | table r | userdata r | function r => some r
  | _ => none

/-- The boolean a value is. -/
def boolean? : Value → Option Bool
  | boolean b => some b
  | _ => none

/-- The integer a value is: an integer, or a double that is one in the 64-bit range. -/
def integer? : Value → Option Int64
  | integer i => some i
  | number x => x.toInt64?
  | _ => none

/-- The double a value is; an integer goes to the nearest one. -/
def number? : Value → Option Binary64
  | integer i => some (Binary64.ofInt i.toInt)
  | number x => some x
  | _ => none

/-- The text a value is. -/
def string? : Value → Option String
  | string s => some s
  | _ => none

/-- The reference of a value that says it is a table. -/
def table? : Value → Option Ref
  | table r => some r
  | _ => none

/-- The reference of a value that says it is a userdata. -/
def userdata? : Value → Option Ref
  | userdata r => some r
  | _ => none

/-- The value says it is a function. -/
def isFunction : Value → Bool
  | function _ => true
  | _ => false

/-- The text a value turns into where a text is wanted: texts and numbers do. -/
def coerceText? : Value → Option String
  | string s => some s
  | integer i => some (toString i.toInt)
  | number x => some x.scriptText
  | _ => none

/-- Primitive equality: numbers by value, whether integer or double, texts by content, objects by identity. -/
def rawEqual : Value → Value → Bool
  | nil, nil => true
  | boolean a, boolean b => a == b
  | integer a, integer b => a == b
  | number x, number y => x.equal y
  | integer i, number x | number x, integer i => x.toInt64? == some i
  | string s, string t => s == t
  | address a, address b => a == b
  | table r, table s | userdata r, userdata s | function r, function s => r == s
  | _, _ => false

/-- The short form of a value, as scripts print it. -/
def text : Value → String
  | nil => "nil"
  | boolean b => toString b
  | integer i => toString i.toInt
  | number x => x.scriptText
  | string s => s
  | address a => "userdata: " ++ a.text
  | table r => "table: " ++ r.text
  | userdata r => "userdata: " ++ r.text
  | function r => "function: " ++ r.text

/-- The full form of a value, which says its kind. -/
def fullText : Value → String
  | nil => "nil"
  | boolean b => "boolean(" ++ toString b ++ ")"
  | integer i => "integer(" ++ toString i.toInt ++ ")"
  | number x => "number(" ++ x.text ++ ")"
  | string s => "string(" ++ Quoted.quote s ++ ")"
  | address a => "lightuserdata(" ++ a.text ++ ")"
  | table r => "table(" ++ r.text ++ ")"
  | userdata r => "userdata(" ++ r.text ++ ")"
  | function r => "function(" ++ r.text ++ ")"

end Value

end ScriptHost

import ScriptHost.Object

/-!
# Faults

Everything an operation can fail with, and the text of each. Faults of the binding layer (`mismatch`, `configuration`) become
runtime faults when they leave a native function (`Fault.inScript`).
-/

namespace ScriptHost

/-- What was wrong with the type of a value or object. -/
inductive TypeCause where
  | kind (expected found : Kind)
  | noMetatable (type : TypeName)
  | notIndexable (type : TypeName)
  | notCallable (type : TypeName)
  | raised (text : String)
  deriving DecidableEq, Repr

/-- The words for what was wrong with a type. -/
def TypeCause.text : TypeCause → String
  | kind expected found => "expected " ++ expected.text ++ ", found " ++ found.text
  | noMetatable type => "cannot set the metatable of a " ++ type.text ++ " value"
  | notIndexable type => "attempt to index a " ++ type.text ++ " value"
  | notCallable type => "attempt to call a " ++ type.text ++ " value"
  | raised text => text

/-- Why a class cannot be installed. -/
inductive ClassCause where
  | emptyName
  | reservedName
  | listedTwice
  | alreadyInstalled
  | ownBase
  | missingBase (base : String)
  deriving DecidableEq, Repr

/-- The words for why a class cannot be installed. -/
def ClassCause.text : ClassCause → String
  | emptyName => "class name is empty"
  | reservedName => "name is a reserved registry key"
  | listedTwice => "listed more than once"
  | alreadyInstalled => "already installed"
  | ownBase => "class inherits from itself"
  | missingBase base => "base class '" ++ base ++ "' is not installed"

/-- What an operation can fail with. -/
inductive Fault where
  | type (cause : TypeCause)
  | runtime (text : String)
  | key (cause : NoKey)
  | stale
  | overflow
  | finalizer (text : String)
  | mismatch (expected found : String)
  | configuration (name : String) (cause : ClassCause)
  deriving DecidableEq, Repr

namespace Fault

/-- The text of a fault. -/
def text : Fault → String
  | type cause => "Type error: " ++ cause.text
  | runtime text => "Runtime error: " ++ text
  | key cause => "Invalid table key: " ++ cause.text
  | stale => "Stale reference to a collected object"
  | overflow => "Stack overflow"
  | finalizer text => "Error in finalizer: " ++ text
  | mismatch expected found => "Type mismatch: expected " ++ expected ++ ", got " ++ found
  | configuration name cause => "Configuration error in class '" ++ name ++ "': " ++ cause.text

/-- A fault as it leaves a native function: scripts know the faults of the heap only, so a fault of the binding layer becomes
a runtime fault with its text. -/
def inScript : Fault → Fault
  | mismatch expected found => runtime (mismatch expected found).text
  | configuration name cause => runtime (configuration name cause).text
  | fault => fault

/-- What a collection reports of a finalizer that failed: the bare text of a runtime fault, the whole text of any other. -/
def report : Fault → String
  | runtime text => text
  | fault => fault.text

end Fault

end ScriptHost

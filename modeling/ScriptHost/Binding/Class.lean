import ScriptHost.Binding.Attribute

/-!
# Classes

A class is a table in the registry, under the name of the class. It holds the methods of the class, `true` under the name of
the class, and the metamethods that read, write and finalize, and it is its own metatable, so that looking something up on
the class looks at its bases too. The methods alone are also in a table among the globals, the namespace of the class.

A list of classes is checked as a whole before the first of them is installed.
-/

namespace ScriptHost

variable {χ σ : Type}

/-- Methods by name, in the order in which the names were first given. -/
structure MethodTable (χ : Type) where
  entries : List (String × χ)
  deriving DecidableEq, Repr

namespace MethodTable

/-- No methods. -/
def empty : MethodTable χ := ⟨[]⟩

/-- Gives a method: in the place of the one that had the name, or at the end. -/
def insert (t : MethodTable χ) (name : String) (code : χ) : MethodTable χ :=
  if t.entries.any (fun e => e.1 == name) then
    ⟨t.entries.map (fun e => if e.1 == name then (name, code) else e)⟩
  else ⟨t.entries ++ [(name, code)]⟩

/-- The methods of a list, the last of each name. -/
def ofList (methods : List (String × χ)) : MethodTable χ := methods.foldl (fun t e => t.insert e.1 e.2) empty

/-- How many methods there are. -/
def size (t : MethodTable χ) : Nat := t.entries.length

/-- There are no methods. -/
def isEmpty (t : MethodTable χ) : Bool := t.entries.isEmpty

/-- The names of the methods. -/
def names (t : MethodTable χ) : List String := t.entries.map (·.1)

/-- The full form of a method table: the list of its names. -/
def fullText (t : MethodTable χ) : String := "[" ++ ", ".intercalate (t.names.map Quoted.quote) ++ "]"

end MethodTable

/-- What a class is made from: its name, its methods, and the names of its direct bases in the order of lookup. -/
structure ClassDescriptor (χ : Type) where
  name : String
  methods : MethodTable χ
  bases : List String
  deriving DecidableEq, Repr

namespace Machine

/-- The table of an installed class: what the registry has under its name, if that says `true` under the name. -/
def classTable? (m : Machine χ σ) (name : String) : Option Ref :=
  match Registry.find? m name with
  | none => none
  | some t =>
    match m.rawField t name with
    | .ok (.boolean true) => some t
    | _ => none

/-- The class is installed. -/
def isInstalled (m : Machine χ σ) (name : String) : Bool := (m.classTable? name).isSome

/-- Checks the bases of a class, in order: each is installed or among the names listed before, and none is the class itself. -/
def checkBases (m : Machine χ σ) (listed : List String) (name : String) : List String → Except ClassCause Unit
  | [] => .ok ()
  | base :: bases =>
    if base = name then .error .ownBase
    else if listed.contains base || m.isInstalled base then m.checkBases listed name bases
    else .error (.missingBase base)

/-- Checks a class that comes after classes with the names listed. -/
def checkClass (m : Machine χ σ) (listed : List String) (d : ClassDescriptor χ) : Except ClassCause Unit :=
  if d.name = "" then .error .emptyName
  else if Registry.reserved.contains d.name then .error .reservedName
  else if listed.contains d.name then .error .listedTwice
  else if m.isInstalled d.name then .error .alreadyInstalled
  else m.checkBases listed d.name d.bases

/-- Checks a list of classes that comes after classes with the names listed. -/
def checkClasses (m : Machine χ σ) : List String → List (ClassDescriptor χ) → Except Fault Unit
  | _, [] => .ok ()
  | listed, d :: rest =>
    match m.checkClass listed d with
    | .error cause => .error (.configuration d.name cause)
    | .ok () => m.checkClasses (d.name :: listed) rest

/-- The tables of bases, or the first base without one. -/
def baseTables (m : Machine χ σ) : List String → Except ClassCause (List Ref)
  | [] => .ok []
  | base :: bases =>
    match m.classTable? base with
    | none => .error (.missingBase base)
    | some t =>
      match m.baseTables bases with
      | .error cause => .error cause
      | .ok ts => .ok (t :: ts)

end Machine

namespace ClassDescriptor

/-- The name of the namespace of a class: its own name, without the marker of a class of pointers at the end. -/
def namespaceName (name : String) : String :=
  if name.toList.getLast? = some Registry.pointerMarker then String.ofList name.toList.dropLast else name

/-- Makes a function for each method and puts it into the class table. -/
def installMethods (cls : Ref) (name : String) : List (String × χ) → Action χ σ (List (String × Ref))
  | [] => pure []
  | (method, code) :: rest => do
    let f ← Action.newFunction (name ++ "." ++ method) (.host code) []
    Action.setField cls method (.function f)
    return (method, f) :: (← installMethods cls name rest)

/-- Puts functions into a table by their names. -/
def publish (t : Ref) : List (String × Ref) → Action χ σ Unit
  | [] => pure ()
  | (name, f) :: rest => do
    Action.setField t name (.function f)
    publish t rest

/-- Installs one class. A class table that was made before, empty, is filled. -/
def install (d : ClassDescriptor χ) : Action χ σ Unit := do
  let (cls, _) ← Action.metatableNamed d.name
  let methods ← installMethods cls d.name d.methods.entries
  Action.setField cls d.name (.boolean true)
  let bases ← Action.query (fun m => (m.baseTables d.bases).mapError (.configuration d.name))
  let reader ← Attribute.newReader d.name cls bases
  let writer ← Action.newFunction (d.name ++ "." ++ Registry.writeName) .writeAttribute []
  let finalizer ← Action.newFunction (d.name ++ "." ++ Registry.finalizeName) .finalizeHandle []
  Action.setField cls Registry.readName (.function reader)
  Action.setField cls Registry.writeName (.function writer)
  Action.setField cls Registry.finalizeName (.function finalizer)
  Action.setMetatable (.table cls) (some cls)
  let space ← Action.newTable
  publish space methods
  Action.setGlobal (namespaceName d.name) (.table space)

/-- Installs classes one after the other. -/
def installEach : List (ClassDescriptor χ) → Action χ σ Unit
  | [] => pure ()
  | d :: rest => do
    d.install
    installEach rest

/-- Installs a list of classes after checking all of it. A base has to be installed already or to come earlier in the list. -/
def installAll (classes : List (ClassDescriptor χ)) : Action χ σ Unit := do
  Action.query (fun m => m.checkClasses [] classes)
  installEach classes

end ClassDescriptor

end ScriptHost

import ScriptHost.Machine

/-!
# Marking

Which objects does a set of references keep alive? An object holds on to others through its strong edges: a table to its
metatable, its keys and its values, unless its metatable says that it holds the keys or the values weakly; a userdata to its
metatable and its environment; a function to its bound values. Marking starts from some references and follows strong edges in
rounds. Each round that goes on has marked a slot that was not marked before, so there are at most as many of them as slots.
-/

namespace ScriptHost

variable {χ σ : Type}

/-! ## Marks -/

/-- A mark for each slot of a heap. -/
structure Marks where
  marked : Array Bool
  deriving DecidableEq, Repr

namespace Marks

/-- No mark on any of the slots. -/
def none (slots : Nat) : Marks := ⟨Array.replicate slots false⟩

/-- The slot is marked. -/
def has (s : Marks) (slot : Nat) : Bool := (s.marked[slot]?).getD false

/-- Marks a slot. -/
def mark (s : Marks) (slot : Nat) : Marks := ⟨s.marked.setIfInBounds slot true⟩

/-- Takes the mark of a slot away. -/
def unmark (s : Marks) (slot : Nat) : Marks := ⟨s.marked.setIfInBounds slot false⟩

end Marks

/-! ## Strong edges -/

/-- Which halves of its entries a table holds weakly. -/
structure WeakMode where
  keys : Bool
  values : Bool
  deriving DecidableEq, Repr

namespace WeakMode

/-- Keys and values are both held. -/
def strong : WeakMode := ⟨false, false⟩

/-- The mode a text says: `k` for weak keys, `v` for weak values, anywhere in it. -/
def ofText (mode : String) : WeakMode := ⟨mode.toList.contains 'k', mode.toList.contains 'v'⟩

/-- Something is held weakly. -/
def isWeak (w : WeakMode) : Bool := w.keys || w.values

end WeakMode

namespace Heap

/-- The weak mode of a table: what the text under `__mode` in its metatable says. -/
def weakMode (h : Heap χ) (t : Table) : WeakMode :=
  match t.metatable with
  | none => .strong
  | some mt =>
    match h.table mt with
    | .ok named =>
      match named.field "__mode" with
      | .string mode => .ofText mode
      | _ => .strong
    | .error _ => .strong

/-- The references of an entry that a table of the mode holds on to. -/
def strongEntry (w : WeakMode) (entry : Key × Value) : List Ref :=
  (if w.keys then [] else entry.1.ref?.toList) ++ (if w.values then [] else entry.2.ref?.toList)

/-- The references an object holds on to. -/
def strongEdges (h : Heap χ) : Object χ → List Ref
  | .table t => t.metatable.toList ++ t.entries.flatMap (strongEntry (h.weakMode t))
  | .userdata u => u.metatable.toList ++ u.environment.toList
  | .function f => f.upvalues.filterMap Value.ref?

/-- The references that the object of a reference holds on to; a stale reference finds no object. -/
def strong (h : Heap χ) (r : Ref) : List Ref := ((h.object? r).map h.strongEdges).getD []

/-! ## Rounds -/

/-- Marks the slots of the references that find an object, and lists those among them that were not marked before. -/
def markAll (h : Heap χ) : List Ref → Marks → List Ref × Marks
  | [], marks => ([], marks)
  | r :: rest, marks =>
    if h.contains r && !marks.has r.slot then
      let (fresh, marks) := h.markAll rest (marks.mark r.slot)
      (r :: fresh, marks)
    else h.markAll rest marks

/-- Marks from some references on, in at most so many rounds: each round marks what the objects that the one before it marked
hold on to. -/
def markRounds (h : Heap χ) : Nat → List Ref → Marks → Marks
  | 0, _, marks => marks
  | rounds + 1, refs, marks =>
    match h.markAll refs marks with
    | ([], marks) => marks
    | (fresh, marks) => h.markRounds rounds (fresh.flatMap h.strong) marks

/-- The marks, with those of everything that the references keep alive added. -/
def markFrom (h : Heap χ) (refs : List Ref) (marks : Marks) : Marks := h.markRounds (h.capacity + 1) refs marks

end Heap

end ScriptHost

import ScriptHost.Key

/-!
# Tables

A table is a finite map from keys to values other than nil, and may have a metatable. Its entries are kept in a list without a
key twice; the order of the list means nothing.
-/

namespace ScriptHost

/-- A script table. -/
structure Table where
  entries : List (Key × Value)
  metatable : Option Ref
  deriving DecidableEq, Repr

namespace Table

/-- The table without entries and without a metatable. -/
def empty : Table := ⟨[], none⟩

/-- The value stored under a key, if there is one. -/
def find? (t : Table) (k : Key) : Option Value := t.entries.lookup k

/-- The value under a key, nil if there is none. -/
def get (t : Table) (k : Key) : Value := (t.find? k).getD .nil

/-- The value under a text. -/
def field (t : Table) (name : String) : Value := t.get (.string name)

/-- The table without the entry of a key. -/
def erase (t : Table) (k : Key) : Table := { t with entries := t.entries.filter (fun e => e.1 != k) }

/-- The table with a value under a key; a nil under a key is no entry. -/
def set (t : Table) (k : Key) (v : Value) : Table :=
  if v.isNil then t.erase k else { t with entries := (k, v) :: (t.erase k).entries }

/-- The number of entries. -/
def size (t : Table) : Nat := t.entries.length

/-- The table has an entry under the integer. -/
def hasIndex (t : Table) (n : Nat) : Bool := (t.find? (.integer (Int64.ofNat n))).isSome

/-- The border: the largest number such that one and every integer up to it is a key. A table of `n` entries lacks one of the
first `n + 1` positive integers, so the search does not go further. -/
def border (t : Table) : Nat :=
  ((List.range (t.size + 1)).find? (fun n => !t.hasIndex (n + 1))).getD t.size

end Table

end ScriptHost

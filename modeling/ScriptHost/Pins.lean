import ScriptHost.Value

/-!
# Pins

The host keeps a value alive by pinning it. A pin is known by a number, and the number of a pin that was taken out is used
again, last taken out first.
-/

namespace ScriptHost

/-- The number of a pin, which is that of its place. It is one of 32 bits; there are fewer than 2^32 places, so it is a natural number
here that is never cut off. -/
structure Pin where
  index : Nat
  deriving DecidableEq, Repr

/-- The text of a pin. -/
def Pin.text (p : Pin) : String := "RootId(" ++ toString p.index ++ ")"

/-- The pinned values: a place for each pin, empty when the pin was taken out, and the empty places with the one to be reused
next in front. -/
structure Pins where
  places : Array (Option Value)
  free : List Nat
  deriving DecidableEq

namespace Pins

/-- No pins. -/
def empty : Pins := ⟨#[], []⟩

/-- Pins a value. -/
def pin (s : Pins) (v : Value) : Pin × Pins :=
  match s.free with
  | i :: rest => (⟨i⟩, ⟨s.places.setIfInBounds i (some v), rest⟩)
  | [] => (⟨s.places.size⟩, ⟨s.places.push (some v), []⟩)

/-- The value under a pin. -/
def get? (s : Pins) (p : Pin) : Option Value := (s.places[p.index]?).join

/-- Takes a pin out and gives the value it held; a pin that is not there changes nothing. -/
def unpin (s : Pins) (p : Pin) : Option Value × Pins :=
  match s.get? p with
  | some v => (some v, ⟨s.places.setIfInBounds p.index none, p.index :: s.free⟩)
  | none => (none, s)

/-- The pinned values, in the order of their places. -/
def values (s : Pins) : List Value := s.places.toList.filterMap id

/-- How many values are pinned. -/
def size (s : Pins) : Nat := s.places.size - s.free.length

/-- Nothing is pinned. -/
def isEmpty (s : Pins) : Bool := s.size == 0

end Pins

end ScriptHost

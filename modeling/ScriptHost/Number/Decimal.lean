import ScriptHost.Number.Binary64

/-!
# Number texts: the fewest digits that read back

A double is written with the fewest decimal digits that no other double is nearer to, and of those with the digits nearest to
it; of two equally near the larger magnitude is taken. The digits are laid out positionally, never with an exponent.

Every finite double is a whole number of units of 10^-1074, so the search over ever finer grids of powers of ten ends: on the
finest grid the double itself is a point. Since the coarsest grid with a hit is taken, the digits never end in a zero.
-/

namespace ScriptHost

/-- The reals that are nearer to one double than to any other, in units of a quarter of 10^-1074. The ends are midpoints
between neighbours; they belong to the double whose significand is even. -/
structure RoundingInterval where
  low : Nat
  value : Nat
  high : Nat
  closed : Bool

/-- The rounding interval of a finite double. The neighbour below a power of two is half as far away as the one above. -/
def Binary64.interval (x : Binary64) : RoundingInterval :=
  let step := max x.exponent 1
  let value := x.significand * Nat.pow 2 (step + 1) * Nat.pow 5 1074
  let above := Nat.pow 2 step * Nat.pow 5 1074
  let below := if x.fraction = 0 ∧ 1 < x.exponent then above / 2 else above
  ⟨value - below, value, value + above, x.significand % 2 = 0⟩

namespace RoundingInterval

/-- The point lies in the interval. -/
def holds (i : RoundingInterval) (n : Nat) : Bool :=
  (decide (i.low < n) && decide (n < i.high)) || (i.closed && (n == i.low || n == i.high))

/-- The point of the grid of 10^t (in units of 10^-1074) that is written for the interval, if one of the two neighbours of
the value lies in it: the nearer of the two, the upper one if they are equally near. -/
def pick? (i : RoundingInterval) (t : Nat) : Option Nat :=
  let step := 4 * Nat.pow 10 t
  let lower := i.value / step
  match i.holds (lower * step), i.holds ((lower + 1) * step) with
  | true, true => some (if 2 * i.value < (2 * lower + 1) * step then lower else lower + 1)
  | true, false => some lower
  | false, true => some (lower + 1)
  | false, false => none

/-- Digits and scale of the shortest decimal in the interval, from the grid of 10^t downward. -/
def shortestFrom (i : RoundingInterval) : Nat → Nat × Nat
  | 0 => (i.value / 4, 0)
  | t + 1 =>
    match i.pick? (t + 1) with
    | some digits => (digits, t + 1)
    | none => i.shortestFrom t

/-- Digits and scale of the shortest decimal in the interval. A grid coarser than the upper end has no hit, so the search
starts at a power of ten that is surely above it: the decimal logarithm of two is less than 0.30103. -/
def shortest (i : RoundingInterval) : Nat × Nat :=
  i.shortestFrom ((i.high.log2 + 1) * 30103 / 100000 + 1)

end RoundingInterval

/-- The positional text of `digits` times 10^(scale - 1074). -/
def positionalText (digits scale : Nat) : String :=
  let written := (toString digits).toList
  if 1074 ≤ scale then String.ofList (written ++ List.replicate (scale - 1074) '0')
  else
    let places := 1074 - scale
    let padded := List.replicate (places + 1 - written.length) '0' ++ written
    let whole := padded.length - places
    String.ofList (padded.take whole ++ '.' :: padded.drop whole)

namespace Binary64

/-- The text of a double: `NaN`, `inf`, or its sign and its shortest digits. -/
def text (x : Binary64) : String :=
  let sign := if x.isNegative then "-" else ""
  if x.isNaN then "NaN"
  else if x.isInfinite then sign ++ "inf"
  else if x.significand = 0 then sign ++ "0"
  else
    let (digits, scale) := x.interval.shortest
    sign ++ positionalText digits scale

/-- The text of a number in scripts: an integer of magnitude below 10^15 is written as that integer, so that both zeros are
`0`; every other double has its own text. -/
def scriptText (x : Binary64) : String :=
  match x.toInt64? with
  | some i => if i.toInt.natAbs < Nat.pow 10 15 then toString i.toInt else x.text
  | none => x.text

end Binary64

end ScriptHost

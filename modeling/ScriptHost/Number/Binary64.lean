/-!
# Doubles: the exact value of a 64-bit word

A script number is a double, kept as its 64 bits. What the library asks of a double is decided exactly on natural numbers,
without a rounding operation: whether it is an integer and which one, whether it equals another, what it is when cut to 32
bits. The only rounding is `Binary64.ofInt`, to the nearest double, a tie to the even significand.

Every finite double is a whole number of halves of the smallest positive one, that is of units of 2^-1075; its magnitude is
that number (`Binary64.magnitude`).
-/

namespace ScriptHost

/-- A double, as its bits: a sign, eleven bits of exponent, fifty-two bits of fraction. -/
structure Binary64 where
  bits : UInt64
  deriving DecidableEq, Repr

namespace Binary64

/-- The sign bit is set. Zero and the infinities have a sign too. -/
def isNegative (x : Binary64) : Bool := decide (Nat.pow 2 63 ≤ x.bits.toNat)

/-- The exponent field: zero for zero and the subnormal doubles, all ones for the infinities and the NaNs. -/
def exponent (x : Binary64) : Nat := x.bits.toNat / Nat.pow 2 52 % Nat.pow 2 11

/-- The fraction field. -/
def fraction (x : Binary64) : Nat := x.bits.toNat % Nat.pow 2 52

/-- Not a number: an exponent of all ones with a fraction. -/
def isNaN (x : Binary64) : Bool := x.exponent = 2047 && x.fraction ≠ 0

/-- An exponent of all ones without a fraction. -/
def isInfinite (x : Binary64) : Bool := x.exponent = 2047 && x.fraction = 0

/-- The fraction with its leading bit, which a subnormal double lacks. -/
def significand (x : Binary64) : Nat := if x.exponent = 0 then x.fraction else Nat.pow 2 52 + x.fraction

/-- The magnitude of a double in units of 2^-1075. An infinity has the magnitude of the power of two after the largest finite
double, so that it lies beyond every finite bound. -/
def magnitude (x : Binary64) : Nat := x.significand * Nat.pow 2 (max x.exponent 1)

/-- The magnitude of the number one. -/
def one : Nat := Nat.pow 2 1075

/-- The integer a double is, if it is a finite one without a fractional part; both zeros are the integer zero. -/
def toInt? (x : Binary64) : Option Int :=
  if x.exponent = 2047 then none
  else if x.magnitude % one = 0 then
    some (if x.isNegative then -((x.magnitude / one : Nat) : Int) else ((x.magnitude / one : Nat) : Int))
  else none

/-- The 64-bit integer a double is, if it is an integer in the range from -2^63 to 2^63 - 1. -/
def toInt64? (x : Binary64) : Option Int64 :=
  match x.toInt? with
  | some i => if Int64.minValue.toInt ≤ i ∧ i ≤ Int64.maxValue.toInt then some (Int64.ofInt i) else none
  | none => none

/-- Equality of doubles as numbers: a NaN equals nothing, the two zeros are equal. -/
def equal (x y : Binary64) : Bool :=
  !x.isNaN && !y.isNaN && (x.bits == y.bits || (x.magnitude == 0 && y.magnitude == 0))

/-- An integer brought into a closed range. -/
def clamp (lo hi i : Int) : Int := if i < lo then lo else if hi < i then hi else i

/-- A double cut to a 32-bit integer: the fractional part is dropped, what lies outside the range goes to its nearer end, and
a NaN is zero. -/
def toInt32 (x : Binary64) : Int32 :=
  if x.isNaN then 0
  else
    let whole : Int := (x.magnitude / one : Nat)
    Int32.ofInt (clamp Int32.minValue.toInt Int32.maxValue.toInt (if x.isNegative then -whole else whole))

/-- The bits of the double nearest to a natural number below 2^1023, a tie to the even significand. With the leading bit at
place `top`, a number of at most fifty-three bits is its own significand; a longer one is cut to fifty-three and the rest
decides. A significand that rounds up to 2^53 carries into the exponent field, which is the next double. -/
def bitsOfNat (n : Nat) : Nat :=
  if n = 0 then 0
  else
    let top := n.log2
    let significand :=
      if top ≤ 52 then n * Nat.pow 2 (52 - top)
      else
        let unit := Nat.pow 2 (top - 52)
        let quotient := n / unit
        let rest := n % unit
        if unit < 2 * rest ∨ (2 * rest = unit ∧ quotient % 2 = 1) then quotient + 1 else quotient
    (top + 1022) * Nat.pow 2 52 + significand

/-- The double nearest to an integer. -/
def ofInt (i : Int) : Binary64 :=
  ⟨UInt64.ofNat (if i < 0 then Nat.pow 2 63 + bitsOfNat i.natAbs else bitsOfNat i.natAbs)⟩

end Binary64

end ScriptHost

/-!
Binary numbers of 64 bits: one sign bit, eleven of exponent, 52 of fraction. Less its sign a number
is its magnitude, and magnitudes are ordered as the natural numbers that their bits spell. A finite
magnitude is a whole number of units, one unit being 2 ^ -1074.
-/

namespace FuncScript

structure Binary64 where
  bits : UInt64
  deriving DecidableEq, Repr

namespace Binary64

/-- How far apart the magnitudes of neighbouring powers of two are. -/
def binade : Nat := Nat.pow 2 52

def infiniteMagnitude : Nat := 2047 * binade

def signBit : Nat := Nat.pow 2 63

def one : Nat := Nat.pow 2 1074

def negative (x : Binary64) : Bool := decide (signBit ≤ x.bits.toNat)

def magnitude (x : Binary64) : Nat := x.bits.toNat % signBit

def ofMagnitude (negative : Bool) (magnitude : Nat) : Binary64 :=
  ⟨(magnitude + if negative then signBit else 0).toUInt64⟩

def isFinite (x : Binary64) : Bool := decide (x.magnitude < infiniteMagnitude)

def isNaN (x : Binary64) : Bool := decide (infiniteMagnitude < x.magnitude)

def isZero (x : Binary64) : Bool := decide (x.magnitude = 0)

/-- Equality of the numbers: both zeros are equal, and no NaN is equal to anything. -/
def sameNumber (x y : Binary64) : Bool :=
  !x.isNaN && !y.isNaN && (decide (x = y) || (x.isZero && y.isZero))

def units (magnitude : Nat) : Nat :=
  if magnitude < binade then magnitude
  else (binade + magnitude % binade) * Nat.pow 2 (magnitude / binade - 1)

def roundHalfEven (num den : Nat) : Nat :=
  let q := num / den
  let r := num % den
  if 2 * r < den then q else if den < 2 * r then q + 1 else q + q % 2

/-- The magnitude nearest to `num / den`. Of the quotient in units all but the leading 53 bits are
rounded off; a carry out of them moves on to the next exponent by itself. -/
def nearestMagnitude (num den : Nat) : Nat :=
  let scaled := num * one
  let dropped := (scaled / den).log2 - 52
  min infiniteMagnitude (dropped * binade + roundHalfEven scaled (den * Nat.pow 2 dropped))

def ofNumeral (negative : Bool) (whole fraction : List Char) : Binary64 :=
  ofMagnitude negative
    (nearestMagnitude (Nat.ofDigitChars 10 (whole ++ fraction) 0) (Nat.pow 10 fraction.length))

end Binary64

end FuncScript

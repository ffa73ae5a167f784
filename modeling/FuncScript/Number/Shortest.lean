import FuncScript.Number.Binary64

/-!
The shortest decimal that reads back as a given number. On the grid of 1, 2, … 17 significant
digits the two neighbours of the number are tried; the first grid with a hit wins, and of two hits
the nearer. The number's own decimal expansion stands in should no grid have one.
-/

namespace FuncScript

structure Decimal where
  coefficient : Nat
  exponent : Int
  deriving DecidableEq, Repr

inductive Tie where
  | up
  | toEven
  deriving DecidableEq, Repr

namespace Decimal

def numerator (d : Decimal) : Nat := d.coefficient * Nat.pow 10 d.exponent.toNat

def denominator (d : Decimal) : Nat := Nat.pow 10 (-d.exponent).toNat

def readsAs (d : Decimal) (magnitude : Nat) : Bool :=
  decide (Binary64.nearestMagnitude d.numerator d.denominator = magnitude)

def digits (d : Decimal) : List Char := Nat.toDigits 10 d.coefficient

def stripped : Nat → Decimal → Decimal
  | 0, d => d
  | bound + 1, d =>
    if d.coefficient ≠ 0 ∧ d.coefficient % 10 = 0 then
      stripped bound ⟨d.coefficient / 10, d.exponent + 1⟩
    else d

/-- How many places the leading digit stands before the point; not positive below one. -/
def leadingPlaces (magnitude : Nat) : Int :=
  ((Nat.toDigits 10 (Binary64.units magnitude * Nat.pow 10 324 / Binary64.one)).length : Int) - 324

def below (magnitude : Nat) (exponent : Int) : Decimal :=
  ⟨Binary64.units magnitude * Nat.pow 10 (-exponent).toNat /
    (Binary64.one * Nat.pow 10 exponent.toNat), exponent⟩

def above (d : Decimal) : Decimal := { d with coefficient := d.coefficient + 1 }

/-- The magnitude lies nearer to the upper neighbour of `d` than to `d`, or half way with a tie
that goes up. -/
def upperIsNearer (tie : Tie) (magnitude : Nat) (d : Decimal) : Bool :=
  let twice := 2 * Binary64.units magnitude * Nat.pow 10 (-d.exponent).toNat
  let middle := (2 * d.coefficient + 1) * Nat.pow 10 d.exponent.toNat * Binary64.one
  decide (middle < twice) ||
    (decide (middle = twice) && (tie == .up || d.coefficient % 2 == 1))

def onGrid (tie : Tie) (magnitude : Nat) (exponent : Int) : Option Decimal :=
  let d := below magnitude exponent
  if d.readsAs magnitude then
    if d.above.readsAs magnitude && upperIsNearer tie magnitude d then some d.above else some d
  else if d.above.readsAs magnitude then some d.above
  else none

def exact (magnitude : Nat) : Decimal :=
  stripped 2000 ⟨Binary64.units magnitude * Nat.pow 5 1074, -1074⟩

def shortest (tie : Tie) (magnitude : Nat) : Decimal :=
  let places := leadingPlaces magnitude
  let onGrids := fun (n : Nat) => onGrid tie magnitude (places - (n + 1 : Nat))
  (((List.range 17).findSome? onGrids).map (stripped 20)).getD (exact magnitude)

end Decimal

end FuncScript

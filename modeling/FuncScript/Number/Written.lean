import FuncScript.Number.Shortest

/-!
Numbers as text, in two forms. Scripts write all numbers positionally; JSON text keeps a point in
every number and turns to an exponent for the very large and the very small.
-/

namespace FuncScript

structure NumberForm where
  tie : Tie
  /-- A number whose leading digit stands `p` places before the point is written positionally if
  `fewest < p ≤ most`. -/
  positional : Option (Int × Int)
  keepPoint : Bool
  notANumber : List Char
  infinity : Bool → List Char

namespace NumberForm

def script : NumberForm where
  tie := .up
  positional := none
  keepPoint := false
  notANumber := "NaN".toList
  infinity negative := if negative then "-inf".toList else "inf".toList

def json : NumberForm where
  tie := .toEven
  positional := some (-5, 16)
  keepPoint := true
  notANumber := "null".toList
  infinity _ := "null".toList

def isPositional (form : NumberForm) (places : Int) : Bool :=
  match form.positional with
  | none => true
  | some (fewest, most) => decide (fewest < places) && decide (places ≤ most)

end NumberForm

namespace Decimal

def zeros (n : Nat) : List Char := List.replicate n '0'

/-- Where the point stands: that many digits before it, or so many zeros behind it. -/
def places (d : Decimal) : Int := d.digits.length + d.exponent

def positionalText (keepPoint : Bool) (d : Decimal) : List Char :=
  let ds := d.digits
  let before := d.places
  if 0 ≤ d.exponent then
    ds ++ zeros d.exponent.toNat ++ (if keepPoint then ['.', '0'] else [])
  else if 0 < before then ds.take before.toNat ++ '.' :: ds.drop before.toNat
  else '0' :: '.' :: (zeros (-before).toNat ++ ds)

def exponentText (d : Decimal) : List Char :=
  let e := d.places - 1
  let mantissa :=
    match d.digits with
    | [] => []
    | [c] => [c]
    | c :: rest => c :: '.' :: rest
  mantissa ++ 'e' :: (if 0 ≤ e then '+' else '-') :: Nat.toDigits 10 e.natAbs

end Decimal

namespace Binary64

def magnitudeText (form : NumberForm) (magnitude : Nat) : List Char :=
  if magnitude = 0 then (if form.keepPoint then ['0', '.', '0'] else ['0'])
  else
    let d := Decimal.shortest form.tie magnitude
    if form.isPositional d.places then d.positionalText form.keepPoint else d.exponentText

def text (form : NumberForm) (x : Binary64) : List Char :=
  if x.isNaN then form.notANumber
  else if x.isFinite then
    (if x.negative then ['-'] else []) ++ magnitudeText form x.magnitude
  else form.infinity x.negative

end Binary64

end FuncScript

/-!
Sets of characters, named by their parts. The grammar matches its text one character at a time,
each against one of these classes.
-/

namespace FuncScript

inductive ClassPart where
  | single (c : Char)
  | range (lo hi : Char)
  deriving DecidableEq, Repr

def ClassPart.contains : ClassPart → Char → Bool
  | .single x, c => c == x
  | .range lo hi, c => decide (lo ≤ c) && decide (c ≤ hi)

structure CharClass where
  parts : List ClassPart
  inverted : Bool := false
  deriving DecidableEq, Repr

namespace CharClass

def contains (k : CharClass) (c : Char) : Bool :=
  k.parts.any (·.contains c) != k.inverted

def nameStart : CharClass := ⟨[.range 'a' 'z', .range 'A' 'Z', .single '_'], false⟩

def nameContinue : CharClass :=
  ⟨[.range 'a' 'z', .range 'A' 'Z', .single '_', .range '0' '9'], false⟩

def digit : CharClass := ⟨[.range '0' '9'], false⟩

def nonzeroDigit : CharClass := ⟨[.range '1' '9'], false⟩

def hexDigit : CharClass := ⟨[.range '0' '9', .range 'a' 'f', .range 'A' 'F'], false⟩

def simpleEscape : CharClass :=
  ⟨[.single '"', .single '\\', .single '/', .single 'b', .single 'f', .single 'n', .single 'r',
    .single 't'], false⟩

/-- Printable ASCII less the quote, the backslash and the square brackets. -/
def printable : CharClass :=
  ⟨[.single ' ', .single '!', .range '#' 'Z', .range '^' '~'], false⟩

def whitespace : CharClass :=
  ⟨[.single ' ', .single '\t', .single '\r', .single '\n'], false⟩

def letter (upper : Char) : CharClass := ⟨[.single upper, .single upper.toLower], false⟩

end CharClass

end FuncScript

import FuncScript.Rule.Scalar
import FuncScript.Value

/-!
Values: objects and arrays around numbers, strings and truth values. The rules for a container take
the rule for the values inside it; `value` closes the circle, level by level of nesting.
-/

namespace FuncScript.Rule

variable {α : Type}

def comma : Rule Unit := do
  blanks
  let _ ← literal ','
  blanks

def enclosed (opening closing : Char) (item : Rule α) : Rule (List α) := nested <| attempt do
  blanks
  let _ ← literal opening
  blanks
  let items ← separated comma item
  blanks
  let _ ← literal closing
  return items

def pair (value : Rule α) : Rule (String × α) := attempt do
  blanks
  let key ← name
  blanks
  let _ ← literal '='
  blanks
  let v ← value
  return (key, v)

def object (value : Rule α) : Rule (Entries α) := do
  let pairs ← enclosed '(' ')' (pair value)
  return Entries.ofList pairs

def array (value : Rule α) : Rule (List α) := enclosed '[' ']' value

def alternatives (inner : Rule Value) : List (Rule Value) :=
  [do return .object (← object inner),
    do return .array (← array inner),
    do return .number (← number),
    do return .string (← string),
    do return .boolean (← boolean)]

/-- A value in which containers are nested no deeper than `levels`. Where no level is left, the
guard of the containers refuses them before they look at what is inside. -/
def valueWithin : Nat → Rule Value
  | 0 => fun s => choice (alternatives never) s
  | levels + 1 => fun s => choice (alternatives (valueWithin levels)) s

def value : Rule Value := fun s => valueWithin (s.limit - s.depth) s

end FuncScript.Rule

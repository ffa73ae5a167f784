import FuncScript.Keyword
import FuncScript.Rule.Basic

/-!
Rules that match characters directly. All but blanks note what they expected when they fail.
-/

namespace FuncScript.Rule

def terminal (accepts : Char → Bool) (e : Expectation) : Rule Char := fun s =>
  match s.peek with
  | some c => if accepts c then (some c, s.advance) else (none, s.expecting e)
  | none => (none, s.expecting e)

def literal (c : Char) : Rule Char := terminal (· == c) (.literal (String.ofList [c]))

def oneOf (k : CharClass) : Rule Char := terminal k.contains (.oneOf k)

def anyChar : Rule Char := terminal (fun _ => true) .anyChar

def skipBlanks : Nat → State → State
  | 0, s => s
  | bound + 1, s =>
    match s.peek with
    | some c => if CharClass.whitespace.contains c then skipBlanks bound s.advance else s
    | none => s

/-- Blanks, as many as there are. They may always be missing, so nothing is expected. -/
def blanks : Rule Unit := fun s => (some (), skipBlanks s.left s)

def letters : List Char → Rule Unit
  | [] => succeed ()
  | c :: rest => do
    let _ ← oneOf (CharClass.letter c)
    letters rest

def keyword (k : Keyword) : Rule Unit := attempt (letters k.letters)

def name : Rule String := do
  let first ← oneOf .nameStart
  let rest ← many (oneOf .nameContinue)
  return String.ofList (first :: rest)

end FuncScript.Rule

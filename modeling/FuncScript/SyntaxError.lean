import FuncScript.Expectation
import FuncScript.Position

/-!
A script that could not be read: what was expected, what was found, and where. The message lists
the expectations by their descriptions, each once, in the order of their characters.
-/

namespace FuncScript

structure SyntaxError where
  message : String
  expected : List Expectation
  /-- `none` stands for the end of the input. -/
  found : Option Char
  location : Location
  deriving DecidableEq, Repr

namespace SyntaxError

def descriptions (expected : List Expectation) : List String :=
  ((expected.map Expectation.describe).mergeSort fun a b => decide (a ≤ b)).eraseReps

/-- Alternatives in words: `a`, `a or b`, `a, b, or c`. -/
def alternatives : List String → String
  | [] => "nothing"
  | [a] => a
  | [a, b] => a ++ " or " ++ b
  | a :: b :: c :: rest => a ++ series b (c :: rest)
where
  series (a : String) : List String → String
    | [] => ", or " ++ a
    | b :: rest => ", " ++ a ++ series b rest

def foundText : Option Char → String
  | some c => String.ofList (Describe.quoted [c])
  | none => "end of input"

def buildMessage (expected : List Expectation) (found : Option Char) : String :=
  "Expected " ++ alternatives (descriptions expected) ++ " but " ++ foundText found ++ " found."

def unique : List Expectation → List Expectation
  | [] => []
  | e :: rest => e :: (unique rest).filter (· ≠ e)

def of (expected : List Expectation) (found : Option Char) (location : Location) : SyntaxError :=
  let expected := unique expected
  ⟨buildMessage expected found, expected, found, location⟩

def expects (e : SyntaxError) (x : Expectation) : Bool := e.expected.contains x

theorem mem_unique {x : Expectation} {xs : List Expectation} : x ∈ unique xs ↔ x ∈ xs := by
  induction xs with
  | nil => simp [unique]
  | cons y ys ih =>
    simp only [unique, List.mem_cons, List.mem_filter, ih, decide_eq_true_eq]
    by_cases h : x = y <;> simp [h]

theorem nodup_unique (xs : List Expectation) : (unique xs).Nodup := by
  induction xs with
  | nil => simp [unique]
  | cons y ys ih =>
    simp only [unique, List.nodup_cons, List.mem_filter, decide_eq_true_eq]
    exact ⟨fun h => h.2 rfl, ih.filter _⟩

end SyntaxError

end FuncScript

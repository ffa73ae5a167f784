import FuncScript.FailureLog

/-!
Rules of a grammar without a lexer. A rule looks at the text from the cursor on, gives a result or
none, and moves the cursor; on the way it notes in a log what each failed match expected. Rules are
tried in order, and one that fails goes back to where it began.
-/

namespace FuncScript

structure State where
  text : Array Char
  cursor : Nat := 0
  depth : Nat := 0
  limit : Nat
  failures : FailureLog := {}

namespace State

def peek (s : State) : Option Char := s.text[s.cursor]?

def advance (s : State) : State := { s with cursor := s.cursor + 1 }

def left (s : State) : Nat := s.text.size - s.cursor

def expecting (s : State) (e : Expectation) : State :=
  { s with failures := s.failures.record s.cursor e }

end State

def Rule (α : Type) : Type := State → Option α × State

namespace Rule

variable {α β : Type}

def succeed (a : α) : Rule α := fun s => (some a, s)

def andThen (r : Rule α) (f : α → Rule β) : Rule β := fun s =>
  match r s with
  | (some a, s') => f a s'
  | (none, s') => (none, s')

instance : Monad Rule where
  pure := succeed
  bind := andThen

def fail (e : Expectation) : Rule α := fun s => (none, s.expecting e)

def never : Rule α := fun s => (none, s)

def cursor : Rule Nat := fun s => (some s.cursor, s)

def attempt (r : Rule α) : Rule α := fun s =>
  match r s with
  | (some a, s') => (some a, s')
  | (none, s') => (none, { s' with cursor := s.cursor })

/-- Succeeds, without moving on, where the rule fails. What it meets on the way is not noted. -/
def notAhead (r : Rule α) : Rule Unit := fun s =>
  let (previous, quiet) := s.failures.suppress
  match r { s with failures := quiet } with
  | (found, s') =>
    (if found.isSome then none else some (),
      { s' with cursor := s.cursor, failures := s'.failures.restore previous })

def tooDeep (limit : Nat) : Expectation :=
  .other ("nesting depth of at most " ++ toString limit)

def nested (r : Rule α) : Rule α := fun s =>
  if s.limit ≤ s.depth then fail (tooDeep s.limit) s
  else
    match r { s with depth := s.depth + 1 } with
    | (found, s') => (found, { s' with depth := s'.depth - 1 })

def orElse (r r' : Rule α) : Rule α := fun s =>
  match r s with
  | (some a, s') => (some a, s')
  | (none, s') => r' s'

def choice : List (Rule α) → Rule α
  | [] => never
  | r :: rest => orElse r (choice rest)

def optional (r : Rule α) : Rule (Option α) := fun s =>
  match r s with
  | (found, s') => (some found, s')

/-- The results of a rule run until it fails, but no more than `bound` times and once, put behind
those in `acc`, which stand in reverse. -/
def repeatedly (r : Rule α) : Nat → List α → State → List α × State
  | bound, acc, s =>
    match r s with
    | (none, s') => (acc.reverse, s')
    | (some a, s') =>
      match bound with
      | 0 => ((a :: acc).reverse, s')
      | bound + 1 => repeatedly r bound (a :: acc) s'

/-- The results of a rule run until it fails. A rule that moves on when it succeeds can do so once
for each character that is left. -/
def many (r : Rule α) : Rule (List α) := fun s =>
  match repeatedly r s.left [] s with
  | (found, s') => (some found, s')

def separated (separator : Rule Unit) (item : Rule α) : Rule (List α) := do
  match ← optional item with
  | none => return []
  | some first =>
    let rest ← many (attempt do separator; item)
    return first :: rest

end Rule

end FuncScript

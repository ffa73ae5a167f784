import FuncScript.Rule.Terminal

/-!
Blocks: all that stands between BEGIN and the END that closes it. Blocks inside are skipped whole.
Keywords are not bounded by blanks, so the letters of one count inside longer words as well.
-/

namespace FuncScript

/-- A stretch of the text, the character at `stop` not included. -/
structure Span where
  start : Nat
  stop : Nat
  deriving DecidableEq, Repr

namespace Rule

def bodyChar : Rule Char := attempt do
  notAhead (keyword .blockBegin)
  notAhead (keyword .blockEnd)
  anyChar

def blockAround (inner : Rule Span) : Rule Span := nested <| attempt do
  keyword .blockBegin
  let start ← cursor
  let _ ← many (orElse (do let _ ← inner) (do let _ ← bodyChar))
  let stop ← cursor
  keyword .blockEnd
  return ⟨start, stop⟩

def blockWithin : Nat → Rule Span
  | 0 => fun s => blockAround never s
  | levels + 1 => fun s => blockAround (blockWithin levels) s

def block : Rule Span := fun s => blockWithin (s.limit - s.depth) s

end Rule

end FuncScript

/-!
The text of a block as a definition keeps it: one separator is taken off at each end, and line
breaks inside are dropped. A carriage return counts only as part of a line break.
-/

namespace FuncScript.Body

def dropLeading : List Char → List Char
  | ' ' :: rest => rest
  | '\t' :: rest => rest
  | '\r' :: '\n' :: rest => rest
  | '\n' :: rest => rest
  | text => text

/-- The same at the end of a text that is given in reverse. -/
def dropTrailingReversed : List Char → List Char
  | ' ' :: rest => rest
  | '\t' :: rest => rest
  | '\n' :: '\r' :: rest => rest
  | '\n' :: rest => rest
  | text => text

def dropTrailing (text : List Char) : List Char := (dropTrailingReversed text.reverse).reverse

def joinLinesOnto (acc : List Char) : List Char → List Char
  | [] => acc.reverse
  | '\r' :: '\n' :: rest => joinLinesOnto acc rest
  | '\n' :: rest => joinLinesOnto acc rest
  | c :: rest => joinLinesOnto (c :: acc) rest

def joinLines (text : List Char) : List Char := joinLinesOnto [] text

def tidy (raw : List Char) : List Char := joinLines (dropTrailing (dropLeading raw))

end FuncScript.Body

import FuncScript.Text.CharClass
import FuncScript.Text.Hex
import FuncScript.Text.Units

/-!
String literals of a script. Inside the quotes stand printable characters and square brackets;
all else is escaped, by a letter where there is one and by its 16-bit units otherwise.
-/

namespace FuncScript.Quoted

def escapeUnit (u : UInt16) : List Char := '\\' :: 'u' :: Hex.four Hex.upper u.toNat

def escape (c : Char) : List Char :=
  if c = '"' then ['\\', '"']
  else if c = '\\' then ['\\', '\\']
  else if c = '\n' then ['\\', 'n']
  else if c = '\r' then ['\\', 'r']
  else if c = '\t' then ['\\', 't']
  else if c = '\x08' then ['\\', 'b']
  else if c = '\x0c' then ['\\', 'f']
  else if c = '[' ∨ c = ']' then [c]
  else if CharClass.printable.contains c then [c]
  else (Units.ofChar c).flatMap escapeUnit

def quote (text : List Char) : List Char := '"' :: (text.flatMap escape ++ ['"'])

def unescape (c : Char) : Char :=
  if c = 'b' then '\x08'
  else if c = 'f' then '\x0c'
  else if c = 'n' then '\n'
  else if c = 'r' then '\r'
  else if c = 't' then '\t'
  else c

end FuncScript.Quoted

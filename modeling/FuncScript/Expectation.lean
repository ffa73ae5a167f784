import FuncScript.Text.CharClass
import FuncScript.Text.Hex

/-!
What a script could have gone on with at some place, and the words for it.
-/

namespace FuncScript

inductive Expectation where
  | literal (text : String)
  | oneOf (cls : CharClass)
  | anyChar
  | endOfInput
  | other (description : String)
  deriving DecidableEq, Repr

namespace Describe

def control? (c : Char) : Option (List Char) :=
  if c = '\x00' then some ['\\', '0']
  else if c = '\t' then some ['\\', 't']
  else if c = '\n' then some ['\\', 'n']
  else if c = '\r' then some ['\\', 'r']
  else if c.toNat < 0x20 ∨ (0x7F ≤ c.toNat ∧ c.toNat ≤ 0x9F) then
    some ['\\', 'x', Hex.upper (c.toNat / 16), Hex.upper (c.toNat % 16)]
  else none

def inLiteral (c : Char) : List Char :=
  if c = '\\' then ['\\', '\\']
  else if c = '"' then ['\\', '"']
  else (control? c).getD [c]

def inClass (c : Char) : List Char :=
  if c = '\\' then ['\\', '\\']
  else if c = ']' then ['\\', ']']
  else if c = '^' then ['\\', '^']
  else if c = '-' then ['\\', '-']
  else (control? c).getD [c]

def quoted (text : List Char) : List Char := '"' :: (text.flatMap inLiteral ++ ['"'])

def part : ClassPart → List Char
  | .single c => inClass c
  | .range lo hi => inClass lo ++ '-' :: inClass hi

def bracketed (k : CharClass) : List Char :=
  '[' :: ((if k.inverted then ['^'] else []) ++ k.parts.flatMap part ++ [']'])

end Describe

def Expectation.describe : Expectation → String
  | .literal text => String.ofList (Describe.quoted text.toList)
  | .oneOf cls => String.ofList (Describe.bracketed cls)
  | .anyChar => "any character"
  | .endOfInput => "end of input"
  | .other description => description

end FuncScript

import FuncScript.Number.Written
import FuncScript.Text.Hex

namespace FuncScript

inductive Json where
  | null
  | boolean (value : Bool)
  | natural (value : Nat)
  | number (value : Binary64)
  | string (text : String)
  | array (items : List Json)
  | object (fields : List (String × Json))

namespace Json

def escape (c : Char) : List Char :=
  if c = '"' then ['\\', '"']
  else if c = '\\' then ['\\', '\\']
  else if c = '\n' then ['\\', 'n']
  else if c = '\r' then ['\\', 'r']
  else if c = '\t' then ['\\', 't']
  else if c = '\x08' then ['\\', 'b']
  else if c = '\x0c' then ['\\', 'f']
  else if c.toNat < 0x20 then '\\' :: 'u' :: Hex.four Hex.lower c.toNat
  else [c]

def stringText (text : String) : List Char := '"' :: (text.toList.flatMap escape ++ ['"'])

mutual

def text : Json → List Char
  | .null => "null".toList
  | .boolean true => "true".toList
  | .boolean false => "false".toList
  | .natural value => Nat.toDigits 10 value
  | .number value => value.text .json
  | .string text => stringText text
  | .array [] => ['[', ']']
  | .array (value :: rest) => '[' :: (value.text ++ (moreItems rest ++ [']']))
  | .object [] => ['\x7b', '\x7d']
  | .object ((key, value) :: rest) =>
    '\x7b' :: (stringText key ++ ':' :: (value.text ++ (moreFields rest ++ ['\x7d'])))

def moreItems : List Json → List Char
  | [] => []
  | value :: rest => ',' :: (value.text ++ moreItems rest)

def moreFields : List (String × Json) → List Char
  | [] => []
  | (key, value) :: rest => ',' :: (stringText key ++ ':' :: (value.text ++ moreFields rest))

end

def line (level : Nat) : List Char := '\n' :: List.replicate (2 * level) ' '

mutual

def indentedText (level : Nat) : Json → List Char
  | .null => "null".toList
  | .boolean true => "true".toList
  | .boolean false => "false".toList
  | .natural value => Nat.toDigits 10 value
  | .number value => value.text .json
  | .string text => stringText text
  | .array [] => ['[', ']']
  | .array (value :: rest) =>
    '[' :: (line (level + 1) ++ (value.indentedText (level + 1) ++
      (moreIndentedItems (level + 1) rest ++ (line level ++ [']']))))
  | .object [] => ['\x7b', '\x7d']
  | .object ((key, value) :: rest) =>
    '\x7b' :: (line (level + 1) ++ (stringText key ++ ':' :: ' ' ::
      (value.indentedText (level + 1) ++
        (moreIndentedFields (level + 1) rest ++ (line level ++ ['\x7d'])))))

def moreIndentedItems (level : Nat) : List Json → List Char
  | [] => []
  | value :: rest =>
    ',' :: (line level ++ (value.indentedText level ++ moreIndentedItems level rest))

def moreIndentedFields (level : Nat) : List (String × Json) → List Char
  | [] => []
  | (key, value) :: rest =>
    ',' :: (line level ++ (stringText key ++ ':' :: ' ' ::
      (value.indentedText level ++ moreIndentedFields level rest)))

end

def compact (j : Json) : String := String.ofList j.text

def pretty (j : Json) : String := String.ofList (j.indentedText 0)

end Json

end FuncScript

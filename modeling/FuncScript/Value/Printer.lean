import FuncScript.Number.Written
import FuncScript.Text.Quoted
import FuncScript.Value

namespace FuncScript.Value

mutual

def text : Value → List Char
  | .object [] => ['(', ')']
  | .object ((key, value) :: rest) =>
    '(' :: (key.toList ++ '=' :: (value.text ++ (moreFields rest ++ [')'])))
  | .array [] => ['[', ']']
  | .array (value :: rest) => '[' :: (value.text ++ (moreItems rest ++ [']']))
  | .string text => Quoted.quote text.toList
  | .number value => value.text .script
  | .boolean true => "true".toList
  | .boolean false => "false".toList

def moreFields : List (String × Value) → List Char
  | [] => []
  | (key, value) :: rest =>
    ',' :: ' ' :: (key.toList ++ '=' :: (value.text ++ moreFields rest))

def moreItems : List Value → List Char
  | [] => []
  | value :: rest => ',' :: ' ' :: (value.text ++ moreItems rest)

end

def display (v : Value) : String := String.ofList v.text

end FuncScript.Value

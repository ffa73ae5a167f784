import FuncScript.Json
import FuncScript.Script

namespace FuncScript

mutual

def Value.toJson : Value → Json
  | .object fields => .object (Value.fieldsToJson fields)
  | .array items => .array (Value.itemsToJson items)
  | .string text => .string text
  | .number value => .number value
  | .boolean value => .boolean value

def Value.fieldsToJson : List (String × Value) → List (String × Json)
  | [] => []
  | (key, value) :: rest => (key, value.toJson) :: Value.fieldsToJson rest

def Value.itemsToJson : List Value → List Json
  | [] => []
  | value :: rest => value.toJson :: Value.itemsToJson rest

end

def Definition.toJson (d : Definition) : Json :=
  .object [
    ("functionName", .string d.name),
    ("configuration", .object (Value.fieldsToJson d.configuration)),
    ("definition", .string d.body),
    ("annotations", .object (d.annotations.map fun e => (e.1, .string e.2)))]

def charJson (c : Char) : Json := .string (String.ofList [c])

def ClassPart.toJson : ClassPart → Json
  | .single c => charJson c
  | .range lo hi => .array [charJson lo, charJson hi]

def Expectation.toJson : Expectation → Json
  | .literal text => .object [("type", .string "literal"), ("text", .string text)]
  | .oneOf cls =>
    .object [("type", .string "class"), ("parts", .array (cls.parts.map ClassPart.toJson)),
      ("inverted", .boolean cls.inverted)]
  | .anyChar => .object [("type", .string "any")]
  | .endOfInput => .object [("type", .string "end")]
  | .other description =>
    .object [("type", .string "other"), ("description", .string description)]

def Position.toJson (p : Position) : Json :=
  .object [("offset", .natural p.offset), ("line", .natural p.line.toNat),
    ("column", .natural p.column.toNat)]

def Location.toJson (l : Location) : Json :=
  .object [("start", l.start.toJson), ("end", l.stop.toJson)]

def SyntaxError.fields (e : SyntaxError) : List (String × Json) :=
  [("message", .string e.message),
    ("expected", .array (e.expected.map Expectation.toJson)),
    ("found", (e.found.map charJson).getD .null),
    ("location", e.location.toJson)]

def SyntaxError.toJson (e : SyntaxError) : Json := .object e.fields

def ScriptError.toJson : ScriptError → Json
  | .malformed e => .object (("kind", .string "syntax") :: e.fields)
  | .invalidStartRule rule =>
    .object [("kind", .string "invalid_start_rule"), ("rule", .string rule)]

end FuncScript

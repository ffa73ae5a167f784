import FuncScript.Rule.Script
import FuncScript.SyntaxError

/-!
Reading a script. The whole text has to be one definition; if it is not, the error tells what was
expected at the furthest place that any rule reached.
-/

namespace FuncScript

inductive ScriptError where
  | malformed (e : SyntaxError)
  | invalidStartRule (rule : String)
  deriving DecidableEq, Repr

def ScriptError.message : ScriptError → String
  | .malformed e => e.message
  | .invalidStartRule rule => "Can't start parsing from rule \"" ++ rule ++ "\"."

namespace Script

def startRule : String := "FuncDefinition"

def defaultMaxDepth : Nat := 128

structure Options where
  startRule : Option String := none
  maxDepth : Nat := defaultMaxDepth

def syntaxError (text : Array Char) (failures : FailureLog) : SyntaxError :=
  let offset := failures.furthest
  let found := text[offset]?
  let stop := if found.isSome then offset + 1 else offset
  let (location, _) := (PositionCache.ofLength text.size).location text offset stop
  SyntaxError.of failures.expected found location

def read (maxDepth : Nat) (text : Array Char) : Except SyntaxError Definition :=
  match Rule.definition { text, limit := maxDepth } with
  | (some definition, s) =>
    if text.size ≤ s.cursor then .ok definition
    else .error (syntaxError text (s.failures.force s.cursor .endOfInput))
  | (none, s) => .error (syntaxError text s.failures)

def parse (options : Options) (text : String) : Except ScriptError Definition :=
  match options.startRule with
  | some rule =>
    if rule = startRule then (read options.maxDepth text.toList.toArray).mapError .malformed
    else .error (.invalidStartRule rule)
  | none => (read options.maxDepth text.toList.toArray).mapError .malformed

end Script

end FuncScript

import FuncScript.Body
import FuncScript.Definition
import FuncScript.Rule.Block
import FuncScript.Rule.Configuration

/-!
A whole script: the word FUNC, a name, a configuration, a block, and at least one pair of metadata.
-/

namespace FuncScript.Rule

def metadata : Rule (String × String) := attempt do
  blanks
  let _ ← literal '@'
  let key ← name
  blanks
  let _ ← literal '='
  let text ← string
  return (key, text)

def annotations : Rule (Entries String) := attempt do
  let first ← metadata
  let rest ← many (attempt do
    blanks
    let _ ← literal ','
    metadata)
  blanks
  let _ ← literal ';'
  return Entries.ofList (first :: rest)

def slice (span : Span) : Rule (List Char) := fun s =>
  (some (s.text.extract span.start span.stop).toList, s)

def definition : Rule Definition := attempt do
  blanks
  keyword .func
  blanks
  let functionName ← name
  blanks
  let configuration ← object value
  blanks
  let raw ← slice (← block)
  let tags ← annotations
  return ⟨functionName, configuration, String.ofList (Body.tidy raw), tags⟩

end FuncScript.Rule

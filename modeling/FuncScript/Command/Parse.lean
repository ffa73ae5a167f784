import FuncScript.Command.Environment
import FuncScript.Command.Outcome
import FuncScript.Summary
import FuncScript.Json.Encoding
import FuncScript.Text.Blank

namespace FuncScript.Command

def isDash (path : String) : Bool :=
  match path.splitOn "/" with
  | "-" :: rest => rest.all fun part => part == "" || part == "."
  | _ => false

def ParseFlags.path? (flags : ParseFlags) : Option String :=
  flags.file.filter fun path => !isDash path

inductive ReadFault where
  | refused (e : SystemError)
  | notUtf8
  deriving DecidableEq, Repr

def ReadFault.message : ReadFault → String
  | .refused e => e.message
  | .notUtf8 => "stream did not contain valid UTF-8"

def textOf (bytes : ByteArray) : Except ReadFault String :=
  match String.fromUTF8? bytes with
  | some text => .ok text
  | none => .error .notUtf8

def originText : Option String → String
  | some path => path
  | none => "<stdin>"

def readFailure (path : Option String) (fault : ReadFault) : String :=
  match path with
  | some path => "error reading '" ++ path ++ "': " ++ fault.message
  | none => "error reading stdin: " ++ fault.message

def readSource (env : Environment) : Option String → Except ReadFault String
  | some path =>
    match env.file path with
    | .ok bytes => textOf bytes
    | .error e => .error (.refused e)
  | none => textOf env.input

/-- In JSON the error is told even to a caller who asked for silence. -/
def syntaxReport (shared : Shared) (path : Option String) (e : SyntaxError) : List Report :=
  match shared.format with
  | .json => [.printed (e.toJson.pretty ++ "\n")]
  | .text =>
    if shared.quiet then []
    else
      [.printed (originText path ++ ":" ++ toString e.location.start.line.toNat ++ ":" ++
        toString e.location.start.column.toNat ++ ": " ++ e.message ++ "\n")]

def scriptReport (shared : Shared) (path : Option String) : ScriptError → List Report
  | .malformed e => syntaxReport shared path e
  | e => Report.failure shared.format shared.quiet e.message

def definitionText : OutputFormat → Definition → String
  | .text, d => d.summary
  | .json, d => d.toJson.pretty ++ "\n"

def parseEvent (message : String) (field : String × String) : Report :=
  .event ⟨.debug, "funcdef::commands::parse", message, [field]⟩

def parseText (shared : Shared) (flags : ParseFlags) (text : String) : Outcome :=
  match Script.parse { startRule := flags.startRule }
      (String.ofList (Blank.trimEnd text.toList)) with
  | .ok d =>
    { exit := 0
      output := if shared.quiet then "" else definitionText shared.format d
      reports := [parseEvent "parsed definition" ("name", d.name)] }
  | .error e => { exit := 1, reports := scriptReport shared flags.path? e }

def parse (env : Environment) (shared : Shared) (flags : ParseFlags) : Outcome :=
  match readSource env flags.path? with
  | .ok text => parseText shared flags text
  | .error fault =>
    let message := readFailure flags.path? fault
    { exit := 1
      reports := parseEvent "could not read input" ("msg", message) ::
        Report.failure shared.format shared.quiet message }

end FuncScript.Command

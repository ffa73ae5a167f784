namespace FuncScript.Command

inductive Level where
  | error
  | warn
  | info
  | debug
  | trace
  deriving DecidableEq, Repr

namespace Level

def rank : Level → Nat
  | .error => 1
  | .warn => 2
  | .info => 3
  | .debug => 4
  | .trace => 5

def text : Level → String
  | .error => "ERROR"
  | .warn => "WARN"
  | .info => "INFO"
  | .debug => "DEBUG"
  | .trace => "TRACE"

def threshold? (word : String) : Option Nat :=
  match word.toLower with
  | "off" | "0" => some 0
  | "error" | "1" => some 1
  | "warn" | "2" => some 2
  | "info" | "3" => some 3
  | "debug" | "4" => some 4
  | "trace" | "5" => some 5
  | _ => none

end Level

structure LogEvent where
  level : Level
  target : String
  message : String
  fields : List (String × String) := []
  deriving DecidableEq, Repr

def LogEvent.line (e : LogEvent) : String :=
  e.level.text ++ " " ++ e.target ++ ": " ++ e.message ++
    String.join (e.fields.map fun f => " " ++ f.1 ++ "=" ++ f.2)

structure Directive where
  target : String
  threshold : Nat
  deriving DecidableEq, Repr

abbrev LogFilter := List Directive

namespace LogFilter

def ofLevel (level : Level) : LogFilter := [⟨"", level.rank⟩]

def isTargetChar (c : Char) : Bool := c.isAlphanum || c == '_' || c == ':' || c == '-'

def directive? (word : String) : Option Directive :=
  match word.splitOn "=" with
  | [single] =>
    match Level.threshold? single with
    | some threshold => some ⟨"", threshold⟩
    | none => if single.toList.all isTargetChar then some ⟨single, Level.trace.rank⟩ else none
  | [target, level] =>
    if target.toList.all isTargetChar then (Level.threshold? level).map (⟨target, ·⟩) else none
  | _ => none

def ofString? (s : String) : Option LogFilter := do
  let directives ← ((s.splitOn ",").filter (· ≠ "")).mapM directive?
  return if directives.isEmpty then ofLevel .error else directives

/-- The directive in force for a target; of equally long ones the last. -/
def directiveFor (filter : LogFilter) (target : String) : Option Directive :=
  filter.foldl
    (fun best d =>
      if d.target.toList.isPrefixOf target.toList then
        match best with
        | some b => if b.target.length ≤ d.target.length then some d else best
        | none => some d
      else best)
    none

def shows (filter : LogFilter) (e : LogEvent) : Bool :=
  match filter.directiveFor e.target with
  | some d => decide (e.level.rank ≤ d.threshold)
  | none => false

end LogFilter

end FuncScript.Command

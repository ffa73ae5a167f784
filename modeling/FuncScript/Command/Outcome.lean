import FuncScript.Command.Arguments
import FuncScript.Command.Log
import FuncScript.Json

namespace FuncScript.Command

inductive Report where
  | event (e : LogEvent)
  | printed (text : String)
  deriving DecidableEq, Repr

structure Outcome where
  exit : Nat
  output : String := ""
  reports : List Report := []
  deriving DecidableEq, Repr

namespace Report

def failure (format : OutputFormat) (quiet : Bool) (message : String) : List Report :=
  if quiet then []
  else
    match format with
    | .text => [.printed (message ++ "\n")]
    | .json => [.printed ((Json.object [("error", .string message)]).compact ++ "\n")]

def isShown (filter : LogFilter) : Report → Bool
  | .event e => filter.shows e
  | .printed _ => true

def text : Report → String
  | .event e => e.line ++ "\n"
  | .printed text => text

end Report

namespace Outcome

def shown (filter : LogFilter) (o : Outcome) : Outcome :=
  { o with reports := o.reports.filter (·.isShown filter) }

def errorText (o : Outcome) : String := String.join (o.reports.map Report.text)

end Outcome

def Shared.format (shared : Shared) : OutputFormat := shared.output.getD .text

end FuncScript.Command

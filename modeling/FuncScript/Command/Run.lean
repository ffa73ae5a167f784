import FuncScript.Command.Parse
import FuncScript.Command.Serve

namespace FuncScript.Command

def versionText : String := "funcdef " ++ Service.version ++ "\n"

def usage : String :=
  "Usage: funcdef [--output <text|json>] [--quiet] <command>\n" ++
  "\n" ++
  "  parse [file] [--start-rule <rule>]\n" ++
  "      Parse a FUNC definition and print the result; without a file, or for -, from stdin\n" ++
  "  serve [--port <n>] [--max-source-size <octets>] [--timeout-ms <n>]\n" ++
  "      Start the HTTP parsing service\n"

def defaultLevel : Invocation → Level
  | .serve _ _ => .info
  | _ => .warn

def logFilter (env : Environment) (invocation : Invocation) : LogFilter :=
  ((env.lookup "RUST_LOG").bind LogFilter.ofString?).getD
    (LogFilter.ofLevel (defaultLevel invocation))

def outcome (env : Environment) : Invocation → Outcome
  | .parse shared flags => parse env shared flags
  | .serve shared flags => serve env shared flags
  | .version => { exit := 0, output := versionText }
  | .help => { exit := 0, output := usage }
  | .usageError => { exit := 2, reports := [.printed usage] }

def run (env : Environment) (words : List String) : Outcome :=
  let invocation := Invocation.ofWords words
  (outcome env invocation).shown (logFilter env invocation)

end FuncScript.Command

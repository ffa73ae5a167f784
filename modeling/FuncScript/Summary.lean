import FuncScript.Definition
import FuncScript.Value.Printer

namespace FuncScript.Definition

def summaryText (d : Definition) : List Char :=
  "Function: ".toList ++ d.name.toList ++ '\n' ::
    ("Configuration: ".toList ++ (Value.object d.configuration).text ++ '\n' ::
      ((if d.annotations.isEmpty then [] else "Annotations:\n".toList) ++
        d.annotations.flatMap (fun e =>
          "  @".toList ++ e.1.toList ++ " = ".toList ++ Quoted.quote e.2.toList ++ ['\n']) ++
        "Definition: ".toList ++ d.body.toList ++ ['\n']))

def summary (d : Definition) : String := String.ofList d.summaryText

end FuncScript.Definition

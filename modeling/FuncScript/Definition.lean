import FuncScript.Value

namespace FuncScript

structure Definition where
  name : String
  configuration : Entries Value
  /-- The text of the block, on one line. -/
  body : String
  annotations : Entries String
  deriving DecidableEq, Repr

end FuncScript

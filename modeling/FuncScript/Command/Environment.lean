namespace FuncScript.Command

structure SystemError where
  text : String
  number : Nat
  deriving DecidableEq, Repr

namespace SystemError

def message (e : SystemError) : String := e.text ++ " (os error " ++ toString e.number ++ ")"

def noEntry : SystemError := ⟨"No such file or directory", 2⟩

def accessDenied : SystemError := ⟨"Permission denied", 13⟩

def notDirectory : SystemError := ⟨"Not a directory", 20⟩

def isDirectory : SystemError := ⟨"Is a directory", 21⟩

def addressInUse : SystemError := ⟨"Address already in use", 98⟩

end SystemError

structure Environment where
  input : ByteArray
  file : String → Except SystemError ByteArray
  lookup : String → Option String
  /-- Why a port cannot be listened on, if it cannot. -/
  refusal : Nat → Option SystemError

end FuncScript.Command

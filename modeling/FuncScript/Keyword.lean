import FuncScript.Text.CharClass

/-!
The words of the grammar. Their letters are matched one by one, in either case.
-/

namespace FuncScript

inductive Keyword where
  | func
  | blockBegin
  | blockEnd
  | yes
  | no
  deriving DecidableEq, Repr

namespace Keyword

def spelling : Keyword → String
  | .func => "FUNC"
  | .blockBegin => "BEGIN"
  | .blockEnd => "END"
  | .yes => "TRUE"
  | .no => "FALSE"

def letters (k : Keyword) : List Char := k.spelling.toList

def all : List Keyword := [.func, .blockBegin, .blockEnd, .yes, .no]

/-- The keyword, in some letter case, stands at the start of the text. -/
def startsAt (k : Keyword) (text : List Char) : Bool :=
  go k.letters text
where
  go : List Char → List Char → Bool
    | [], _ => true
    | _ :: _, [] => false
    | u :: us, c :: cs => (CharClass.letter u).contains c && go us cs

end Keyword

end FuncScript

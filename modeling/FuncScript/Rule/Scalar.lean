import FuncScript.Number.Binary64
import FuncScript.Rule.Terminal
import FuncScript.Text.Quoted

namespace FuncScript.Rule

def wholeDigits : Rule (List Char) := do
  match ← optional (literal '0') with
  | some c => return [c]
  | none =>
    let first ← oneOf .nonzeroDigit
    let rest ← many (oneOf .digit)
    return first :: rest

def fractionDigits : Rule (List Char) := attempt do
  let _ ← literal '.'
  let first ← oneOf .digit
  let rest ← many (oneOf .digit)
  return first :: rest

def number : Rule Binary64 := attempt do
  let sign ← optional (literal '-')
  let whole ← wholeDigits
  let fraction ← optional fractionDigits
  let x := Binary64.ofNumeral sign.isSome whole (fraction.getD [])
  if x.isFinite then return x else fail (.other "finite number")

def escape : Rule UInt16 := attempt do
  let _ ← literal '\\'
  match ← optional (oneOf .simpleEscape) with
  | some c => return (Quoted.unescape c).toNat.toUInt16
  | none =>
    let _ ← literal 'u'
    let a ← oneOf .hexDigit
    let b ← oneOf .hexDigit
    let c ← oneOf .hexDigit
    let d ← oneOf .hexDigit
    return (Hex.read [a, b, c, d]).toUInt16

def plain : Rule Char := choice [oneOf .printable, literal '[', literal ']']

def fragment : Rule (List UInt16) :=
  orElse (do return [← escape]) (do return Units.ofChar (← plain))

/-- Units of neighbouring fragments may pair, so the whole literal is decoded at once. -/
def string : Rule String := attempt do
  blanks
  let _ ← literal '"'
  let units ← many fragment
  let _ ← literal '"'
  return String.ofList (Units.decode units.flatten)

def boolean : Rule Bool :=
  orElse (do keyword .yes; return true) (do keyword .no; return false)

end FuncScript.Rule

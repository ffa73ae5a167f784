import FuncScript.Definition
import FuncScript.Keyword
import FuncScript.Proofs.Denotation
import FuncScript.Proofs.Magnitude
import FuncScript.Proofs.Phrase
import Mathlib.Data.Nat.Digits.Defs

/-!
The grammar of scripts. Containers and blocks are counted in levels: a phrase of `n` levels has
none that is nested more than `n` deep. A word of the grammar denotes a definition; keys that are
given again keep their first place and their last value.
-/

namespace FuncScript.Grammar

open Phrase

variable {α : Type}

def letters : List Char → Phrase Unit
  | [] => pure ()
  | c :: rest => do
    let _ ← oneOf (.letter c)
    letters rest

def word (k : Keyword) : Phrase Unit := letters k.letters

def name : Phrase String := do
  let first ← oneOf .nameStart
  let rest ← star (oneOf .nameContinue)
  return String.ofList (first :: rest)

def whole : Phrase (List Char) :=
  either (do let c ← symbol '0'; return [c]) do
    let first ← oneOf .nonzeroDigit
    let rest ← star (oneOf .digit)
    return first :: rest

def fraction : Phrase (List Char) := do
  let _ ← symbol '.'
  let first ← oneOf .digit
  let rest ← star (oneOf .digit)
  return first :: rest

structure Numeral where
  sign : Option Char
  whole : List Char
  fraction : Option (List Char)

def decimal (digits : List Char) : Nat :=
  Nat.ofDigits 10 (digits.reverse.map ("0123456789".toList.idxOf ·))

def Numeral.ratio (n : Numeral) : ℚ :=
  decimal n.whole + decimal (n.fraction.getD []) / 10 ^ (n.fraction.getD []).length

/-- A numeral stands for the finite number nearest to it, and for none if that is infinity. -/
structure Numeral.Denotes (n : Numeral) (x : Binary64) : Prop where
  negative : x.negative = n.sign.isSome
  nearest : Binary64.Nearest n.ratio x.magnitude
  finite : x.isFinite = true

def numeral : Phrase Numeral := do
  let sign ← optional (symbol '-')
  let digits ← whole
  let behind ← optional fraction
  return ⟨sign, digits, behind⟩

def number : Phrase Binary64 := fun w x => ∃ n, numeral w n ∧ n.Denotes x

def hexDigit : Phrase Nat := fun w n => ∃ c, w = [c] ∧ ∃ digits ∈ Quoted.hexDigits, digits[n]? = some c

def unit : Phrase UInt16 := do
  let _ ← symbol 'u'
  let a ← hexDigit
  let b ← hexDigit
  let c ← hexDigit
  let d ← hexDigit
  return (4096 * a + 256 * b + 16 * c + d).toUInt16

def letter : Phrase Char := fun w d => ∃ c, w = [c] ∧ (c, d) ∈ Quoted.letters

def escape : Phrase UInt16 := do
  let _ ← symbol '\\'
  either (do let d ← letter; return d.toNat.toUInt16) unit

def plain : Phrase Char := either (oneOf .printable) (either (symbol '[') (symbol ']'))

def fragment : Phrase (List UInt16) :=
  either (do return [← escape]) (do let c ← plain; return [c.toNat.toUInt16])

def decoded (units : List UInt16) : Phrase String :=
  fun w text => w = [] ∧ Units.Decodes units text.toList

def string : Phrase String := do
  let _ ← symbol '"'
  let units ← star fragment
  let _ ← symbol '"'
  decoded units.flatten

def boolean : Phrase Bool :=
  either (do word .yes; return true) (do word .no; return false)

structure Merges (pairs : List (String × α)) (entries : Entries α) : Prop where
  keys : entries.keys = (pairs.map Prod.fst).eraseDups
  last : ∀ key, entries.get? key = pairs.reverse.lookup key

def merged (pairs : List (String × α)) : Phrase (Entries α) :=
  fun w entries => w = [] ∧ Merges pairs entries

def comma : Phrase Unit := do
  blanks
  let _ ← symbol ','
  blanks

def enclosed (opening closing : Char) (item : Phrase α) : Phrase (List α) := do
  let _ ← symbol opening
  blanks
  let items ← separated comma item
  blanks
  let _ ← symbol closing
  return items

def pair (value : Phrase α) : Phrase (String × α) := do
  let key ← name
  blanks
  let _ ← symbol '='
  blanks
  let v ← value
  return (key, v)

def object (value : Phrase α) : Phrase (Entries α) := do
  let pairs ← enclosed '(' ')' (pair value)
  merged pairs

def array (value : Phrase α) : Phrase (List α) := enclosed '[' ']' value

def scalar : Phrase Value :=
  either (do return .number (← number)) <|
    either (do return .string (← string)) (do return .boolean (← boolean))

def value : Nat → Phrase Value
  | 0 => scalar
  | n + 1 =>
    either (do return .object (← object (value n))) <|
      either (do return .array (← array (value n))) scalar

def configuration : Nat → Phrase (Entries Value)
  | 0 => fun _ _ => False
  | n + 1 => object (value n)

/-- What stands inside a block: blocks, and characters at which neither keyword starts. No keyword
that starts inside reaches past the END that closes the block. -/
inductive Contents (inner : List Char → Prop) (closing : List Char) : List Char → Prop
  | nil : Contents inner closing []
  | block {u v : List Char} (h : inner u) (hc : Contents inner closing v) :
      Contents inner closing (u ++ v)
  | char {c : Char} {v : List Char}
      (hb : Keyword.blockBegin.startsAt (c :: (v ++ closing)) = false)
      (he : Keyword.blockEnd.startsAt (c :: (v ++ closing)) = false)
      (hc : Contents inner closing v) : Contents inner closing (c :: v)

def block : Nat → Phrase (List Char)
  | 0 => fun _ _ => False
  | n + 1 => fun w raw => ∃ opening closing, w = opening ++ (raw ++ closing) ∧
      word .blockBegin opening () ∧ word .blockEnd closing () ∧
        Contents (fun u => ∃ r, block n u r) closing raw

def metadata : Phrase (String × String) := do
  let _ ← symbol '@'
  let key ← name
  blanks
  let _ ← symbol '='
  blanks
  let text ← string
  return (key, text)

def annotations : Phrase (Entries String) := do
  let first ← metadata
  let rest ← star do comma; metadata
  blanks
  let _ ← symbol ';'
  merged (first :: rest)

def tidied (raw : List Char) : Phrase String := fun w body => w = [] ∧ Body.Tidies raw body.toList

def script (levels : Nat) : Phrase Definition := do
  blanks
  word .func
  blanks
  let functionName ← name
  blanks
  let fields ← configuration levels
  blanks
  let raw ← block levels
  let body ← tidied raw
  blanks
  let tags ← annotations
  return ⟨functionName, fields, body, tags⟩

end FuncScript.Grammar

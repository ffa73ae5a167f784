import FuncScript.Text.Hex

/-!
Internet addresses of both families, read from their text forms and written in the canonical one:
small hexadecimal digits, no leading zeros, the first longest run of zero groups shortened.
-/

namespace FuncScript

inductive Address where
  | v4 (bits : BitVec 32)
  | v6 (bits : BitVec 128)
  deriving DecidableEq, Repr

namespace Address

def spelled (base : Nat) (digits : List Nat) : Nat :=
  digits.foldl (fun n d => base * n + d) 0

def decimalOctet? (text : String) : Option Nat :=
  let cs := text.toList
  let n := Nat.ofDigitChars 10 cs 0
  if cs.isEmpty || !cs.all Char.isDigit || cs.length > 3 || n > 255 then none
  else if cs.length > 1 && cs.head? == some '0' then none
  else some n

def octets? (text : String) : Option (List Nat) :=
  let parts := text.splitOn "."
  if parts.length = 4 then parts.mapM decimalOctet? else none

def isHexDigit (c : Char) : Bool :=
  c.isDigit || (decide ('a' ≤ c) && decide (c ≤ 'f')) || (decide ('A' ≤ c) && decide (c ≤ 'F'))

def group? (text : String) : Option Nat :=
  let cs := text.toList
  if cs.isEmpty || cs.length > 4 || !cs.all isHexDigit then none else some (Hex.read cs)

def groups? (allowOctets : Bool) (text : String) : Option (List Nat) :=
  if text.isEmpty then some [] else go (text.splitOn ":")
where
  go : List String → Option (List Nat)
    | [] => some []
    | [last] =>
      match group? last with
      | some g => some [g]
      | none =>
        if allowOctets then
          match octets? last with
          | some [a, b, c, d] => some [256 * a + b, 256 * c + d]
          | _ => none
        else none
    | part :: rest => do return (← group? part) :: (← go rest)

def eightGroups? (text : String) : Option (List Nat) :=
  match text.splitOn "::" with
  | [whole] => do
    let groups ← groups? true whole
    if groups.length = 8 then some groups else none
  | [before, after] => do
    let front ← groups? false before
    let back ← groups? true after
    if front.length + back.length ≤ 7 then
      some (front ++ List.replicate (8 - front.length - back.length) 0 ++ back)
    else none
  | _ => none

def ofString? (text : String) : Option Address :=
  match octets? text with
  | some octets => some (.v4 (BitVec.ofNat 32 (spelled 256 octets)))
  | none => (eightGroups? text).map fun groups => .v6 (BitVec.ofNat 128 (spelled 65536 groups))

def octetsText (n : Nat) : String :=
  ".".intercalate ([24, 16, 8, 0].map fun shift => toString (n / Nat.pow 2 shift % 256))

def hexText (n : Nat) : String := String.ofList (Nat.toDigits 16 n)

def zeroRun (groups : List Nat) : Nat := (groups.takeWhile (· == 0)).length

def longestRun (groups : List Nat) : Nat × Nat :=
  (List.range groups.length).foldl
    (fun best start =>
      let run := zeroRun (groups.drop start)
      if best.2 < run then (start, run) else best)
    (0, 0)

def groupsText (groups : List Nat) : String := ":".intercalate (groups.map hexText)

def groups (n : Nat) : List Nat :=
  [112, 96, 80, 64, 48, 32, 16, 0].map fun shift => n / Nat.pow 2 shift % 65536

def text : Address → String
  | .v4 bits => octetsText bits.toNat
  | .v6 bits =>
    let groups := groups bits.toNat
    if groups.take 6 = [0, 0, 0, 0, 0, 0xFFFF] then
      "::ffff:" ++ octetsText (bits.toNat % 0x100000000)
    else
      let (start, run) := longestRun groups
      if run > 1 then
        groupsText (groups.take start) ++ "::" ++ groupsText (groups.drop (start + run))
      else groupsText groups

end Address

end FuncScript

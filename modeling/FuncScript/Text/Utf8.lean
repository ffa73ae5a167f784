/-!
Where a sequence of octets stops being UTF-8. Between two characters any lead octet may follow;
inside one, a number of octets is owed, and the next of them lies in a range that the lead octet
decides. `fault?` gives the first place where the text cannot go on.
-/

namespace FuncScript.Utf8

/-- What is owed inside a character: how many octets, and the range of the next one. -/
structure Owed where
  count : Nat
  lo : Nat
  hi : Nat
  deriving DecidableEq, Repr

def lead (b : UInt8) : Option Owed :=
  let n := b.toNat
  if n < 0x80 then some ⟨0, 0x80, 0xBF⟩
  else if n < 0xC2 then none
  else if n < 0xE0 then some ⟨1, 0x80, 0xBF⟩
  else if n = 0xE0 then some ⟨2, 0xA0, 0xBF⟩
  else if n = 0xED then some ⟨2, 0x80, 0x9F⟩
  else if n < 0xF0 then some ⟨2, 0x80, 0xBF⟩
  else if n = 0xF0 then some ⟨3, 0x90, 0xBF⟩
  else if n < 0xF4 then some ⟨3, 0x80, 0xBF⟩
  else if n = 0xF4 then some ⟨3, 0x80, 0x8F⟩
  else none

inductive Fault where
  | incomplete (start : Nat)
  | invalid (start length : Nat)
  deriving DecidableEq, Repr

/-- Reads on after `start + length` octets, of which the last `length` belong to a character that
still owes `owed`. -/
def faultAfter (start length : Nat) (owed : Owed) : List UInt8 → Option Fault
  | [] => if length = 0 then none else some (.incomplete start)
  | b :: rest =>
    if length = 0 then
      match lead b with
      | none => some (.invalid start 1)
      | some next =>
        if next.count = 0 then faultAfter (start + 1) 0 next rest
        else faultAfter start 1 next rest
    else if owed.lo ≤ b.toNat ∧ b.toNat ≤ owed.hi then
      if owed.count = 1 then faultAfter (start + length + 1) 0 owed rest
      else faultAfter start (length + 1) ⟨owed.count - 1, 0x80, 0xBF⟩ rest
    else some (.invalid start length)

def fault? (bytes : List UInt8) : Option Fault := faultAfter 0 0 ⟨0, 0x80, 0xBF⟩ bytes

def Fault.message : Fault → String
  | .incomplete start => "incomplete utf-8 byte sequence from index " ++ toString start
  | .invalid start length =>
    "invalid utf-8 sequence of " ++ toString length ++ " bytes from index " ++ toString start

def decode (bytes : ByteArray) : Except Fault String :=
  match String.fromUTF8? bytes with
  | some text => .ok text
  | none => .error ((fault? bytes.toList).getD (.incomplete bytes.size))

end FuncScript.Utf8

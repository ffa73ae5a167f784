/-!
Text as 16-bit units: a character outside the basic plane is a pair of surrogates, and a
surrogate that stands in no pair reads as the replacement character.
-/

namespace FuncScript.Units

def isHigh (u : UInt16) : Bool := decide (0xD800 ≤ u.toNat) && decide (u.toNat < 0xDC00)

def isLow (u : UInt16) : Bool := decide (0xDC00 ≤ u.toNat) && decide (u.toNat < 0xE000)

def ofChar (c : Char) : List UInt16 :=
  if c.toNat < 0x10000 then [c.toNat.toUInt16]
  else
    [(0xD800 + (c.toNat - 0x10000) / 0x400).toUInt16,
      (0xDC00 + (c.toNat - 0x10000) % 0x400).toUInt16]

def replacement : Char := '\uFFFD'

def lone (u : UInt16) : Char :=
  if isHigh u || isLow u then replacement else Char.ofNat u.toNat

def pair (high low : UInt16) : Char :=
  Char.ofNat (0x10000 + (high.toNat - 0xD800) * 0x400 + (low.toNat - 0xDC00))

def decodeOnto (acc : List Char) : List UInt16 → List Char
  | [] => acc.reverse
  | [u] => (lone u :: acc).reverse
  | u :: v :: rest =>
    if isHigh u && isLow v then decodeOnto (pair u v :: acc) rest
    else decodeOnto (lone u :: acc) (v :: rest)

def decode (units : List UInt16) : List Char := decodeOnto [] units

theorem decodeOnto_eq : ∀ (acc : List Char) (units : List UInt16),
    decodeOnto acc units = acc.reverse ++ decode units
  | acc, [] => by simp [decode, decodeOnto]
  | acc, [u] => by simp [decode, decodeOnto]
  | acc, u :: v :: rest => by
    simp only [decode, decodeOnto]
    split
    · rw [decodeOnto_eq (pair u v :: acc) rest, decodeOnto_eq [pair u v] rest]
      simp
    · rw [decodeOnto_eq (lone u :: acc) (v :: rest), decodeOnto_eq [lone u] (v :: rest)]
      simp

theorem decode_nil : decode [] = [] := rfl

theorem decode_single (u : UInt16) : decode [u] = [lone u] := rfl

theorem decode_pair {u v : UInt16} (rest : List UInt16) (h : (isHigh u && isLow v) = true) :
    decode (u :: v :: rest) = pair u v :: decode rest := by
  simp only [decode, decodeOnto, h, if_true]
  exact decodeOnto_eq [pair u v] rest

theorem decode_lone {u v : UInt16} (rest : List UInt16) (h : (isHigh u && isLow v) = false) :
    decode (u :: v :: rest) = lone u :: decode (v :: rest) := by
  simp only [decode, decodeOnto, h]
  exact decodeOnto_eq [lone u] (v :: rest)

end FuncScript.Units

import FuncScript.Entries
import FuncScript.Number.Binary64

namespace FuncScript

inductive Value where
  | object (fields : List (String × Value))
  | array (items : List Value)
  | string (text : String)
  | number (value : Binary64)
  | boolean (value : Bool)
  deriving Repr

namespace Value

mutual

def decEq : (v w : Value) → Decidable (v = w)
  | .object fields, .object others =>
    have := decEqFields fields others
    decidable_of_iff (fields = others) (by simp)
  | .array items, .array others =>
    have := decEqItems items others
    decidable_of_iff (items = others) (by simp)
  | .string text, .string other => decidable_of_iff (text = other) (by simp)
  | .number value, .number other => decidable_of_iff (value = other) (by simp)
  | .boolean value, .boolean other => decidable_of_iff (value = other) (by simp)
  | .object _, .array _ | .object _, .string _ | .object _, .number _ | .object _, .boolean _
  | .array _, .object _ | .array _, .string _ | .array _, .number _ | .array _, .boolean _
  | .string _, .object _ | .string _, .array _ | .string _, .number _ | .string _, .boolean _
  | .number _, .object _ | .number _, .array _ | .number _, .string _ | .number _, .boolean _
  | .boolean _, .object _ | .boolean _, .array _ | .boolean _, .string _ | .boolean _, .number _ =>
    isFalse nofun

def decEqFields : (fields others : List (String × Value)) → Decidable (fields = others)
  | [], [] => isTrue rfl
  | [], _ :: _ | _ :: _, [] => isFalse nofun
  | (key, value) :: rest, (key', value') :: rest' =>
    have := value.decEq value'
    have := decEqFields rest rest'
    decidable_of_iff (key = key' ∧ value = value' ∧ rest = rest') (by simp [and_assoc])

def decEqItems : (items others : List Value) → Decidable (items = others)
  | [], [] => isTrue rfl
  | [], _ :: _ | _ :: _, [] => isFalse nofun
  | value :: rest, value' :: rest' =>
    have := value.decEq value'
    have := decEqItems rest rest'
    decidable_of_iff (value = value' ∧ rest = rest') (by simp)

end

instance : DecidableEq Value := decEq

def asString? : Value → Option String
  | .string text => some text
  | _ => none

def asNumber? : Value → Option Binary64
  | .number value => some value
  | _ => none

def asBoolean? : Value → Option Bool
  | .boolean value => some value
  | _ => none

def asArray? : Value → Option (List Value)
  | .array items => some items
  | _ => none

def asObject? : Value → Option (Entries Value)
  | .object fields => some fields
  | _ => none

def get? (v : Value) (key : String) : Option Value :=
  v.asObject?.bind (Entries.get? · key)

def item? (v : Value) (index : Nat) : Option Value :=
  v.asArray?.bind (·[index]?)

mutual

/-- Equality of what two values hold: the order of keys does not count, and numbers are compared as
numbers. -/
def sameAs : Value → Value → Bool
  | .object fields, .object others =>
    fields.length == others.length && sameFields fields others
  | .array items, .array others => sameItems items others
  | .string text, .string other => text == other
  | .number value, .number other => value.sameNumber other
  | .boolean value, .boolean other => value == other
  | _, _ => false

def sameFields : List (String × Value) → List (String × Value) → Bool
  | [], _ => true
  | (key, value) :: rest, others =>
    (match others.lookup key with
      | some other => value.sameAs other
      | none => false) && sameFields rest others

def sameItems : List Value → List Value → Bool
  | [], [] => true
  | value :: rest, other :: others => value.sameAs other && sameItems rest others
  | _, _ => false

end

mutual

def nesting : Value → Nat
  | .object fields => 1 + fieldsNesting fields
  | .array items => 1 + itemsNesting items
  | _ => 0

def fieldsNesting : List (String × Value) → Nat
  | [] => 0
  | (_, value) :: rest => max value.nesting (fieldsNesting rest)

def itemsNesting : List Value → Nat
  | [] => 0
  | value :: rest => max value.nesting (itemsNesting rest)

end

end Value

end FuncScript

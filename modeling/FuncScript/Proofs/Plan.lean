import FuncScript.Proofs.Reading.Number
import FuncScript.Rule.Script

/-!
How a rule is put together, as data. Each rule of the grammar is what its plan says, so a property
of all rules is proved by one induction over plans.
-/

namespace FuncScript

inductive Plan : Type → Type 1
  | pure {α : Type} (a : α) : Plan α
  | bind {α β : Type} (p : Plan α) (f : α → Plan β) : Plan β
  | fail {α : Type} (e : Expectation) : Plan α
  | never {α : Type} : Plan α
  | terminal (accepts : Char → Bool) (e : Expectation) : Plan Char
  | blanks : Plan Unit
  | cursor : Plan Nat
  | slice (span : Span) : Plan (List Char)
  | attempt {α : Type} (p : Plan α) : Plan α
  | notAhead {α : Type} (p : Plan α) : Plan Unit
  | nested {α : Type} (p : Plan α) : Plan α
  | orElse {α : Type} (p q : Plan α) : Plan α
  | optional {α : Type} (p : Plan α) : Plan (Option α)
  | many {α : Type} (p : Plan α) : Plan (List α)
  | levels {α : Type} (f : Nat → Plan α) : Plan α

namespace Plan

variable {α β : Type}

@[simp]
def rule : {α : Type} → Plan α → Rule α
  | _, .pure a => Pure.pure a
  | _, .bind p f => p.rule >>= fun a => (f a).rule
  | _, .fail e => .fail e
  | _, .never => .never
  | _, .terminal accepts e => .terminal accepts e
  | _, .blanks => .blanks
  | _, .cursor => .cursor
  | _, .slice span => .slice span
  | _, .attempt p => .attempt p.rule
  | _, .notAhead p => .notAhead p.rule
  | _, .nested p => .nested p.rule
  | _, .orElse p q => .orElse p.rule q.rule
  | _, .optional p => .optional p.rule
  | _, .many p => .many p.rule
  | _, .levels f => fun s => (f (s.limit - s.depth)).rule s

def map (g : α → β) (p : Plan α) : Plan β := .bind p fun a => .pure (g a)

def before (p : Plan α) (q : Plan β) : Plan β := .bind p fun _ => q

def literal (c : Char) : Plan Char := .terminal (· == c) (.literal (String.ofList [c]))

def oneOf (k : CharClass) : Plan Char := .terminal k.contains (.oneOf k)

def anyChar : Plan Char := .terminal (fun _ => true) .anyChar

def letters : List Char → Plan Unit
  | [] => .pure ()
  | c :: rest => (oneOf (.letter c)).before (letters rest)

def keyword (k : Keyword) : Plan Unit := .attempt (letters k.letters)

def run {β : Type} (k k' : CharClass) (f : Char → List Char → β) : Plan β :=
  .bind (oneOf k) fun first => map (f first) (.many (oneOf k'))

def name : Plan String := run .nameStart .nameContinue fun first rest => String.ofList (first :: rest)

def wholeDigits : Plan (List Char) :=
  .orElse (map (fun c => [c]) (literal '0')) (run .nonzeroDigit .digit List.cons)

def fractionDigits : Plan (List Char) := .attempt ((literal '.').before (run .digit .digit List.cons))

def numeral : Plan Grammar.Numeral :=
  .bind (.optional (literal '-')) fun sign => .bind wholeDigits fun whole =>
    map (fun fraction => ⟨sign, whole, fraction⟩) (.optional fractionDigits)

def finite (n : Grammar.Numeral) : Plan Binary64 :=
  if n.value.isFinite then .pure n.value else .fail (.other "finite number")

def number : Plan Binary64 := .attempt (.bind numeral finite)

def simpleEscape : Plan UInt16 :=
  map (fun c => (Quoted.unescape c).toNat.toUInt16) (oneOf .simpleEscape)

def unit : Plan UInt16 :=
  (literal 'u').before <| .bind (oneOf .hexDigit) fun a => .bind (oneOf .hexDigit) fun b =>
    .bind (oneOf .hexDigit) fun c => map (fun d => (Hex.read [a, b, c, d]).toUInt16) (oneOf .hexDigit)

def escape : Plan UInt16 := .attempt <| (literal '\\').before <| .orElse simpleEscape unit

def choice : List (Plan α) → Plan α
  | [] => .never
  | p :: rest => .orElse p (choice rest)

def plain : Plan Char := choice [oneOf .printable, literal '[', literal ']']

def fragment : Plan (List UInt16) := .orElse (map (fun u => [u]) escape) (map Units.ofChar plain)

def string : Plan String :=
  .attempt <| before .blanks <| (literal '"').before <| .bind (.many fragment) fun units =>
    map (fun _ => String.ofList (Units.decode units.flatten)) (literal '"')

def boolean : Plan Bool :=
  .orElse (map (fun _ => true) (keyword .yes)) (map (fun _ => false) (keyword .no))

def comma : Plan Unit := before .blanks <| (literal ',').before .blanks

def separated (separator : Plan Unit) (item : Plan α) : Plan (List α) := .bind (.optional item) fun
  | none => .pure []
  | some first => map (first :: ·) (.many (.attempt (separator.before item)))

def enclosed (opening closing : Char) (item : Plan α) : Plan (List α) :=
  .nested <| .attempt <| before .blanks <| (literal opening).before <| before .blanks <|
    .bind (separated comma item) fun items => before .blanks <| map (fun _ => items) (literal closing)

def pair (value : Plan α) : Plan (String × α) :=
  .attempt <| before .blanks <| .bind name fun key => before .blanks <| (literal '=').before <|
    before .blanks <| map (fun v => (key, v)) value

def object (value : Plan α) : Plan (Entries α) := map Entries.ofList (enclosed '(' ')' (pair value))

def array (value : Plan α) : Plan (List α) := enclosed '[' ']' value

def alternatives (inner : Plan Value) : List (Plan Value) :=
  [map .object (object inner), map .array (array inner), map .number number, map .string string,
    map .boolean boolean]

def valueWithin : Nat → Plan Value
  | 0 => choice (alternatives .never)
  | n + 1 => choice (alternatives (valueWithin n))

def value : Plan Value := .levels valueWithin

def bodyChar : Plan Char :=
  .attempt <| before (.notAhead (keyword .blockBegin)) <| before (.notAhead (keyword .blockEnd)) anyChar

def blockAround (inner : Plan Span) : Plan Span :=
  .nested <| .attempt <| (keyword .blockBegin).before <| .bind .cursor fun start =>
    before (.many (.orElse (map (fun _ => ()) inner) (map (fun _ => ()) bodyChar))) <|
      .bind .cursor fun stop => map (fun _ => ⟨start, stop⟩) (keyword .blockEnd)

def blockWithin : Nat → Plan Span
  | 0 => blockAround .never
  | n + 1 => blockAround (blockWithin n)

def block : Plan Span := .levels blockWithin

def metadata : Plan (String × String) :=
  .attempt <| before .blanks <| (literal '@').before <| .bind name fun key => before .blanks <|
    (literal '=').before <| map (fun text => (key, text)) string

def annotations : Plan (Entries String) :=
  .attempt <| .bind metadata fun first =>
    .bind (.many (.attempt (before .blanks <| (literal ',').before metadata))) fun rest =>
      before .blanks <| map (fun _ => Entries.ofList (first :: rest)) (literal ';')

def definition : Plan Definition :=
  .attempt <| before .blanks <| (keyword .func).before <| before .blanks <|
    .bind name fun functionName => before .blanks <| .bind (object value) fun configuration =>
      before .blanks <| .bind block fun span => .bind (.slice span) fun raw =>
        map (fun tags => ⟨functionName, configuration, String.ofList (Body.tidy raw), tags⟩) annotations

theorem rule_attempt (p : Plan α) : (attempt p).rule = Rule.attempt p.rule := rfl

theorem rule_bind (p : Plan α) (f : α → Plan β) :
    (bind p f).rule = p.rule >>= fun a => (f a).rule := rfl

theorem rule_letters : ∀ cs, (letters cs).rule = Rule.letters cs
  | [] => rfl
  | c :: cs => by
    change (oneOf (.letter c)).rule >>= (fun _ => (letters cs).rule) = _
    rw [rule_letters cs]
    rfl

theorem rule_keyword (k : Keyword) : (keyword k).rule = Rule.keyword k :=
  congrArg Rule.attempt (rule_letters k.letters)

theorem rule_name : name.rule = Rule.name := rfl

theorem rule_wholeDigits : wholeDigits.rule = Rule.wholeDigits := by
  unfold Rule.wholeDigits
  rw [Rule.optional_bind_eq (f := fun c => [c]) fun _ => rfl]
  rfl

theorem rule_finite (n : Grammar.Numeral) : (finite n).rule = Rule.finite n := by
  by_cases h : n.value.isFinite = true
  · rw [finite, Rule.finite, if_pos h, if_pos h]
    rfl
  · rw [finite, Rule.finite, if_neg h, if_neg h]
    rfl

theorem rule_numeral : numeral.rule = Rule.numeral := by
  unfold numeral Rule.numeral
  simp only [rule, map, rule_wholeDigits]
  rfl

theorem rule_number : number.rule = Rule.number := by
  rw [number, rule_attempt, rule_bind, Rule.number_eq, rule_numeral, funext rule_finite]

theorem rule_escape : escape.rule = Rule.escape := by
  unfold Rule.escape
  refine congrArg Rule.attempt (congrArg (Rule.literal '\\' >>= ·) (funext fun _ => ?_))
  rw [Rule.optional_bind_eq (f := fun c => (Quoted.unescape c).toNat.toUInt16) fun _ => rfl]
  rfl

theorem rule_fragment : fragment.rule = Rule.fragment := by
  unfold fragment Rule.fragment
  simp only [rule, map, rule_escape]
  rfl

theorem rule_string : string.rule = Rule.string := by
  unfold string Rule.string
  simp only [rule, before, map, rule_fragment]
  rfl

theorem rule_boolean : boolean.rule = Rule.boolean := by
  unfold boolean Rule.boolean
  simp only [rule, map, rule_keyword]

theorem rule_separated {separator : Plan Unit} {item : Plan α} :
    (separated separator item).rule = Rule.separated separator.rule item.rule := by
  unfold separated Rule.separated
  simp only [rule]
  congr 1
  funext found
  cases found <;> rfl

theorem rule_enclosed {opening closing : Char} {item : Plan α} :
    (enclosed opening closing item).rule = Rule.enclosed opening closing item.rule := by
  unfold enclosed Rule.enclosed
  simp only [rule, before, map, rule_separated]
  rfl

theorem rule_choice_alternatives {inner : Plan Value} :
    (choice (alternatives inner)).rule = Rule.choice (Rule.alternatives inner.rule) := by
  simp only [choice, alternatives, rule, map, object, array, rule_enclosed, rule_number, rule_string,
    rule_boolean]
  rfl

theorem rule_valueWithin : ∀ n, (valueWithin n).rule = Rule.valueWithin n
  | 0 => rule_choice_alternatives
  | n + 1 => by
    change (choice (alternatives (valueWithin n))).rule = Rule.choice (Rule.alternatives (Rule.valueWithin n))
    rw [rule_choice_alternatives, rule_valueWithin n]

theorem rule_value : value.rule = Rule.value := by
  funext s
  change (valueWithin _).rule s = _
  rw [rule_valueWithin]
  rfl

theorem rule_bodyChar : bodyChar.rule = Rule.bodyChar := by
  unfold bodyChar Rule.bodyChar
  simp only [rule, before, rule_keyword]
  rfl

theorem rule_blockAround {inner : Plan Span} :
    (blockAround inner).rule = Rule.blockAround inner.rule := by
  unfold blockAround Rule.blockAround
  simp only [rule, before, map, rule_keyword, rule_bodyChar]

theorem rule_blockWithin : ∀ n, (blockWithin n).rule = Rule.blockWithin n
  | 0 => rule_blockAround
  | n + 1 => by
    change (blockAround (blockWithin n)).rule = Rule.blockAround (Rule.blockWithin n)
    rw [rule_blockAround, rule_blockWithin n]

theorem rule_block : block.rule = Rule.block := by
  funext s
  change (blockWithin _).rule s = _
  rw [rule_blockWithin]
  rfl

theorem rule_metadata : metadata.rule = Rule.metadata := by
  unfold metadata Rule.metadata
  simp only [rule, before, map, rule_string]
  rfl

theorem rule_annotations : annotations.rule = Rule.annotations := by
  unfold annotations Rule.annotations
  simp only [rule, before, map, rule_metadata]
  rfl

theorem rule_pair {value : Plan α} : (pair value).rule = Rule.pair value.rule := rfl

theorem rule_object {value : Plan α} : (object value).rule = Rule.object value.rule := by
  unfold object Rule.object
  simp only [map, rule, rule_enclosed]
  rfl

theorem rule_definition : definition.rule = Rule.definition := by
  unfold definition Rule.definition
  simp only [rule, before, map, rule_keyword, rule_object, rule_value, rule_block, rule_annotations]
  rfl

end Plan

end FuncScript

import FuncScript.Proofs.Alternatives.Agreement
import FuncScript.Proofs.Reading.Configuration

/-!
The kinds of value may be tried in any order. Which kind stands at a place is told from the first
character there that is not blank, so no more than one of them succeeds, and those that fail leave
the cursor where it was.
-/

namespace FuncScript

open Phrase (IsBlank)

def State.ahead (s : State) : Option Char :=
  (s.rest.dropWhile CharClass.whitespace.contains).head?

namespace Rule

variable {α β : Type} {s : State} {r r' : Rule α} {inner inner' : Rule Value}

inductive Kind where
  | object
  | array
  | number
  | string
  | boolean
  deriving DecidableEq

namespace Kind

def all : List Kind := [.object, .array, .number, .string, .boolean]

def rule (inner : Rule Value) : Kind → Rule Value
  | .object => do return .object (← Rule.object inner)
  | .array => do return .array (← Rule.array inner)
  | .number => do return .number (← Rule.number)
  | .string => do return .string (← Rule.string)
  | .boolean => do return .boolean (← Rule.boolean)

def begunBy (c : Char) : Option Kind :=
  if c = '(' then some .object
  else if c = '[' then some .array
  else if c = '"' then some .string
  else if c = '-' ∨ IsDigit c then some .number
  else if c ∈ ['T', 't', 'F', 'f'] then some .boolean
  else none

end Kind

/-- `valueWithin` with the kinds of value tried in another order, chosen at each place anew. -/
def orderedWithin (order : State → List Kind) : Nat → Rule Value
  | 0 => fun s => choice ((order s).map (Kind.rule never)) s
  | levels + 1 => fun s => choice ((order s).map (Kind.rule (orderedWithin order levels))) s

def ordered (order : State → List Kind) : Rule Value :=
  fun s => orderedWithin order (s.limit - s.depth) s

theorem orderedWithin_all : ∀ n, orderedWithin (fun _ => Kind.all) n = valueWithin n
  | 0 => rfl
  | n + 1 => by
    unfold orderedWithin valueWithin
    rw [orderedWithin_all n]
    rfl

theorem found_bind_left {f : α → Rule β} (h : ((r >>= f) s).1.isSome = true) :
    (r s).1.isSome = true := by
  rcases hr : r s with ⟨_ | a, s'⟩
  · rw [bind_of_none hr] at h
    exact h
  · rfl

theorem found_attempt_left (h : ((attempt r) s).1.isSome = true) : (r s).1.isSome = true := by
  rcases hr : r s with ⟨_ | a, s'⟩
  · rw [attempt_of_none hr] at h
    exact h
  · rfl

theorem found_nested_left (h : ((nested r) s).1.isSome = true) :
    (r s.deeper).1.isSome = true := by
  rcases Nat.lt_or_ge s.depth s.limit with hd | hd
  · rw [nested_of_lt hd] at h
    exact h
  · rw [nested_of_le hd] at h
    exact absurd h Bool.false_ne_true

theorem ahead_of_rest {c : Char} {t : List Char} (h : s.rest = c :: t) (hc : ¬ IsBlank c) :
    s.ahead = some c := by
  rw [State.ahead, h, List.dropWhile_cons_of_neg hc, List.head?_cons]

theorem ahead_of_literal {c : Char} {f : Char → Rule α}
    (h : ((blanks >>= fun _ => literal c >>= f) s).1.isSome = true) : s.ahead = some c := by
  have hahead : s.ahead = State.peek { s with
      cursor := s.cursor + (s.rest.takeWhile CharClass.whitespace.contains).length } := by
    rw [State.ahead, ← State.head?_rest]
    exact congrArg List.head?
      (State.rest_moved_of_append List.takeWhile_append_dropWhile.symm).symm
  rw [bind_of_some (gives_blanks s s.failures)] at h
  have hfound := found_bind_left h
  rw [hahead]
  rcases terminal_cases (· == c) (.literal (String.ofList [c])) _ with ⟨d, hd, hdc, -⟩ | ⟨-, hno⟩
  · rwa [eq_of_beq hdc] at hd
  · have hmissing := congrArg (fun run => run.1.isSome) hno
    exact absurd (hmissing.symm.trans hfound) Bool.false_ne_true

theorem ahead_of_word {P : Prop} {K S : Char → Prop} {L : Phrase α} (hr : r.Tries P K L s)
    (hL : L.Begins S) (hS : ∀ c, S c → ¬ IsBlank c) (h : (r s).1.isSome = true) :
    ∃ c, s.ahead = some c ∧ S c := by
  obtain ⟨a, ha⟩ := Option.isSome_iff_exists.mp h
  obtain ⟨w, y, hrest, hw, -⟩ := hr.word_of_run (Prod.ext ha rfl)
  obtain ⟨c, t, rfl, hc⟩ := hL w a hw
  exact ⟨c, ahead_of_rest hrest (hS c hc), hc⟩

theorem Kind.begunBy_of_numeric {c : Char} (h : c = '-' ∨ IsDigit c) :
    begunBy c = some .number := by
  have hne : ∀ d : Char, ¬ (d = '-' ∨ IsDigit d) → c ≠ d := fun d hd he => hd (he ▸ h)
  unfold begunBy
  rw [if_neg (hne '(' (by decide)), if_neg (hne '[' (by decide)), if_neg (hne '"' (by decide)),
    if_pos h]

theorem Kind.begunBy_of_letter {c : Char} (h : c ∈ ['T', 't', 'F', 'f']) :
    begunBy c = some .boolean := by
  simp only [List.mem_cons, List.not_mem_nil, or_false] at h
  rcases h with rfl | rfl | rfl | rfl <;> rfl

theorem begun_of_found (k : Kind) (h : (k.rule inner s).1.isSome = true) :
    s.ahead.bind Kind.begunBy = some k := by
  have hscalar : ∀ c, Grammar.StartsScalar c → ¬ IsBlank c :=
    fun c hc => Grammar.not_blank_of_startsValue (.inr (.inr hc))
  cases k with
  | object =>
    have hopen : s.ahead = some '(' := ahead_of_literal (s := s.deeper)
      (found_attempt_left (found_nested_left (found_bind_left (found_bind_left h))))
    rw [hopen]
    rfl
  | array =>
    have hopen : s.ahead = some '[' := ahead_of_literal (s := s.deeper)
      (found_attempt_left (found_nested_left (found_bind_left h)))
    rw [hopen]
    rfl
  | number =>
    obtain ⟨c, hahead, hc⟩ := ahead_of_word (reads_number False.elim).tries Grammar.begins_number
      (fun c hc => hscalar c (.inl hc)) (found_bind_left h)
    rw [hahead]
    exact Kind.begunBy_of_numeric hc
  | string =>
    have hquote : s.ahead = some '"' := ahead_of_literal (found_attempt_left (found_bind_left h))
    rw [hquote]
    rfl
  | boolean =>
    obtain ⟨c, hahead, hc⟩ := ahead_of_word (P := False) reads_boolean.tries begins_boolean
      (fun c hc => hscalar c (.inr (.inr hc))) (found_bind_left h)
    rw [hahead]
    exact Kind.begunBy_of_letter hc

theorem Agrees.separated {separator : Rule Unit} (h : r.Agrees r')
    (hs : separator.Agrees separator) : (separated separator r).Agrees (separated separator r') := by
  apply h.optional.bind
  rintro (_ | first)
  · exact agrees_pure []
  · exact (hs.bind fun _ => h).attempt.agrees.many.bind fun rest => agrees_pure (first :: rest)

theorem Agrees.enclosed (h : r.Agrees r') (opening closing : Char) :
    (enclosed opening closing r).StandsFor (enclosed opening closing r') := by
  have hblanks : blanks.Agrees blanks := Plan.blanks.agrees
  have hliteral (c : Char) : (literal c).Agrees (literal c) := (Plan.literal c).agrees
  have hcomma : comma.Agrees comma := Plan.comma.agrees
  apply StandsFor.nested
  apply Agrees.attempt
  exact hblanks.bind fun _ => (hliteral opening).bind fun _ => hblanks.bind fun _ =>
    (h.separated hcomma).bind fun items => hblanks.bind fun _ => (hliteral closing).map fun _ => items

theorem Agrees.pair {r r' : Rule α} (h : r.Agrees r') : (pair r).Agrees (pair r') := by
  have hblanks : blanks.Agrees blanks := Plan.blanks.agrees
  have hname : name.Agrees name := Plan.name.agrees
  have hliteral : (literal '=').Agrees (literal '=') := (Plan.literal '=').agrees
  apply StandsFor.agrees
  apply Agrees.attempt
  exact hblanks.bind fun _ => hname.bind fun key => hblanks.bind fun _ => hliteral.bind fun _ =>
    hblanks.bind fun _ => h.map fun v => (key, v)

theorem Agrees.kind (h : inner.Agrees inner') (k : Kind) :
    (k.rule inner).StandsFor (k.rule inner') := by
  cases k with
  | object => exact ((h.pair.enclosed '(' ')').map Entries.ofList).map Value.object
  | array => exact (h.enclosed '[' ']').map Value.array
  | number =>
    have hnumber : Rule.number.StandsFor Rule.number := by
      rw [← Plan.rule_number]
      exact Plan.standsFor (Plan.restores_attempt _)
    exact hnumber.map Value.number
  | string =>
    have hstring : Rule.string.StandsFor Rule.string := by
      rw [← Plan.rule_string]
      exact Plan.standsFor (Plan.restores_attempt _)
    exact hstring.map Value.string
  | boolean =>
    have hboolean : Rule.boolean.StandsFor Rule.boolean := by
      rw [← Plan.rule_boolean]
      exact Plan.standsFor Plan.restores_boolean
    exact hboolean.map Value.boolean

variable {R : Kind → Rule Value} {ks : List Kind} {k₀ : Kind} {v : Value} {j : Nat}

theorem Ends.choice_none (h : ∀ k, (R k).Ends s none s.cursor) (ks : List Kind) :
    (choice (ks.map R)).Ends s none s.cursor := by
  induction ks with
  | nil => exact (gives_never s).ends
  | cons k ks ih => exact (h k).orElse_none ih

theorem Ends.choice_some (h₀ : (R k₀).Ends s (some v) j)
    (h : ∀ k, k ≠ k₀ → (R k).Ends s none s.cursor) (hk : k₀ ∈ ks) :
    (choice (ks.map R)).Ends s (some v) j := by
  induction ks with
  | nil => exact absurd hk List.not_mem_nil
  | cons k ks ih =>
    by_cases hat : k = k₀
    · subst hat
      exact h₀.orElse_some
    · exact (h k hat).orElse_none (ih ((List.mem_cons.mp hk).resolve_left (Ne.symm hat)))

theorem Ends.run {found : Option α} (h : r.Ends s found j) : (r s).1 = found := by
  obtain ⟨new, hr⟩ := h s.failures
  exact congrArg Prod.fst hr

theorem Agrees.choice (h : inner.Agrees inner') {order : State → List Kind}
    (horder : ∀ s k, k ∈ order s) :
    (Rule.choice (Kind.all.map (Kind.rule inner))).Agrees
      fun s => Rule.choice ((order s).map (Kind.rule inner')) s := by
  have hall : ∀ k, k ∈ Kind.all := fun k => by cases k <;> decide
  intro s
  by_cases hfound : ∃ k : Kind, (k.rule inner s).1.isSome = true
  · obtain ⟨k₀, h₀⟩ := hfound
    obtain ⟨found, j, hr, hr', -⟩ := h.kind k₀ s
    obtain ⟨v, rfl⟩ := Option.isSome_iff_exists.mp (hr.run ▸ h₀)
    have hmiss : ∀ k, k ≠ k₀ →
        (k.rule inner).Ends s none s.cursor ∧ (k.rule inner').Ends s none s.cursor := by
      intro k hk
      obtain ⟨_ | v', i, hs, hs', hback⟩ := h.kind k s
      · exact hback rfl ▸ ⟨hs, hs'⟩
      · have hbegun := begun_of_found k (by rw [hs.run]; rfl)
        rw [begun_of_found k₀ h₀] at hbegun
        exact absurd (Option.some.inj hbegun).symm hk
    exact ⟨some v, j, hr.choice_some (fun k hk => (hmiss k hk).1) (hall k₀), fun log =>
      hr'.choice_some (fun k hk => (hmiss k hk).2) (horder _ k₀) log⟩
  · have hmiss : ∀ k : Kind,
        (k.rule inner).Ends s none s.cursor ∧ (k.rule inner').Ends s none s.cursor := by
      intro k
      obtain ⟨_ | v', i, hs, hs', hback⟩ := h.kind k s
      · exact hback rfl ▸ ⟨hs, hs'⟩
      · exact absurd ⟨k, by rw [hs.run]; rfl⟩ hfound
    exact ⟨none, s.cursor, Ends.choice_none (fun k => (hmiss k).1) Kind.all, fun log =>
      Ends.choice_none (fun k => (hmiss k).2) _ log⟩

theorem agrees_orderedWithin {order : State → List Kind} (h : ∀ s k, k ∈ order s) :
    ∀ n, (valueWithin n).Agrees (orderedWithin order n)
  | 0 => Agrees.choice Plan.never.agrees h
  | n + 1 => (agrees_orderedWithin h n).choice h

theorem agrees_ordered {order : State → List Kind} (h : ∀ s k, k ∈ order s) :
    value.Agrees (ordered order) :=
  Agrees.by_place (agrees_orderedWithin h) _ fun _ _ => rfl

theorem value_in_any_order {order : State → List Kind} (h : ∀ s, (order s).Perm Kind.all)
    (s : State) :
    (∀ (inner inner' : Rule Value) (k k' : Kind), (k.rule inner s).1.isSome = true →
        (k'.rule inner' s).1.isSome = true → k = k') ∧
      (ordered order s).1 = (value s).1 ∧ (ordered order s).2.cursor = (value s).2.cursor := by
  have horder : ∀ s k, k ∈ order s := fun s k =>
    (h s).symm.subset (by cases k <;> decide)
  obtain ⟨hfound, hcursor⟩ := (agrees_ordered horder).same s
  refine ⟨?_, hfound.symm, hcursor.symm⟩
  intro inner inner' k k' hk hk'
  have hbegun := begun_of_found k hk
  rw [begun_of_found k' hk'] at hbegun
  exact (Option.some.inj hbegun).symm

theorem value_in_any_order_reversed :
    Kind.all.reverse.Perm Kind.all ∧
      (ordered (fun _ => Kind.all.reverse)
        { text := #[' ', '[', 't', 'r', 'u', 'e', ',', '(', ')', ']'], limit := 2 }).1 =
          (value { text := #[' ', '[', 't', 'r', 'u', 'e', ',', '(', ')', ']'], limit := 2 }).1 ∧
      (ordered (fun _ => Kind.all.reverse)
        { text := #[' ', '[', 't', 'r', 'u', 'e', ',', '(', ')', ']'], limit := 2 }).2.cursor = 10 := by
  have hperm : Kind.all.reverse.Perm Kind.all := List.reverse_perm Kind.all
  obtain ⟨-, hfound, hcursor⟩ := value_in_any_order (fun _ => hperm)
    { text := #[' ', '[', 't', 'r', 'u', 'e', ',', '(', ')', ']'], limit := 2 }
  exact ⟨hperm, hfound, hcursor.trans (by decide +kernel)⟩

end Rule

end FuncScript

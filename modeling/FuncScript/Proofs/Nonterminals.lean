import FuncScript.Proofs.Moments

/-!
The rules that the grammar names, in whatever state they are run: what they leave as it was, where
they stop, and which parts of the text they take.
-/

namespace FuncScript

variable {α β γ : Type} {s s' t : State}

inductive Nonterminal : Type → Type
  | keyword (k : Keyword) : Nonterminal Unit
  | name : Nonterminal String
  | number : Nonterminal Binary64
  | string : Nonterminal String
  | escape : Nonterminal UInt16
  | boolean : Nonterminal Bool
  | value : Nonterminal Value
  | pair : Nonterminal (String × Value)
  | object : Nonterminal (Entries Value)
  | array : Nonterminal (List Value)
  | block : Nonterminal Span
  | bodyChar : Nonterminal Char
  | metadata : Nonterminal (String × String)
  | annotations : Nonterminal (Entries String)
  | definition : Nonterminal Definition

namespace Nonterminal

def rule : {α : Type} → Nonterminal α → Rule α
  | _, keyword k => Rule.keyword k
  | _, name => Rule.name
  | _, number => Rule.number
  | _, string => Rule.string
  | _, escape => Rule.escape
  | _, boolean => Rule.boolean
  | _, value => Rule.value
  | _, pair => Rule.pair Rule.value
  | _, object => Rule.object Rule.value
  | _, array => Rule.array Rule.value
  | _, block => Rule.block
  | _, bodyChar => Rule.bodyChar
  | _, metadata => Rule.metadata
  | _, annotations => Rule.annotations
  | _, definition => Rule.definition

def plan : {α : Type} → Nonterminal α → Plan α
  | _, keyword k => .keyword k
  | _, name => .name
  | _, number => .number
  | _, string => .string
  | _, escape => .escape
  | _, boolean => .boolean
  | _, value => .value
  | _, pair => .pair .value
  | _, object => .object .value
  | _, array => .array .value
  | _, block => .block
  | _, bodyChar => .bodyChar
  | _, metadata => .metadata
  | _, annotations => .annotations
  | _, definition => .definition

theorem rule_plan (g : Nonterminal α) : g.plan.rule = g.rule := by
  cases g with
  | keyword k => exact Plan.rule_keyword k
  | name => exact Plan.rule_name
  | number => exact Plan.rule_number
  | string => exact Plan.rule_string
  | escape => exact Plan.rule_escape
  | boolean => exact Plan.rule_boolean
  | value => exact Plan.rule_value
  | pair => exact Plan.rule_pair.trans (congrArg Rule.pair Plan.rule_value)
  | object => exact Plan.rule_object.trans (congrArg Rule.object Plan.rule_value)
  | array => exact Plan.rule_enclosed.trans (congrArg Rule.array Plan.rule_value)
  | block => exact Plan.rule_block
  | bodyChar => exact Plan.rule_bodyChar
  | metadata => exact Plan.rule_metadata
  | annotations => exact Plan.rule_annotations
  | definition => exact Plan.rule_definition

theorem restores (g : Nonterminal α) : g.plan.Restores := by
  cases g with
  | name => exact Plan.restores_name
  | boolean => exact Plan.restores_boolean
  | value => exact Plan.restores_value
  | object => exact Plan.restores_object
  | array => exact Plan.restores_enclosed
  | block => exact Plan.restores_block
  | keyword | number | string | escape | pair | bodyChar | metadata | annotations | definition =>
    exact Plan.restores_attempt _

theorem moves (g : Nonterminal α) : g.plan.Moves := by
  cases g with
  | keyword k => exact Plan.moves_keyword k
  | name => exact Plan.moves_run _ _ _
  | number => exact Plan.moves_number
  | string => exact Plan.moves_string
  | escape => exact Plan.moves_escape
  | boolean => exact Plan.moves_boolean
  | value => exact Plan.moves_value
  | pair => exact Plan.moves_pair
  | object => exact Plan.moves_object
  | array => exact Plan.moves_enclosed
  | block => exact Plan.moves_block
  | bodyChar => exact Plan.moves_bodyChar
  | metadata => exact Plan.moves_metadata
  | annotations => exact Plan.moves_annotations
  | definition => exact Plan.moves_definition

theorem slices (g : Nonterminal α) (hs : s.cursor ≤ s.text.size) {span : Span}
    (h : g.plan.Enters s (.slice span) t) : span.start ≤ span.stop ∧ span.stop ≤ t.text.size := by
  have hB := List.nil_subset Plan.breaks
  have hQ := Plan.compositional_avoids (C := fun _ => False) hB
  have hvalue := Plan.avoids_value (C := fun _ => False) hB
  cases g with
  | definition => exact Plan.slice_of_definition hs h
  | keyword k => exact (h.no_slice (hQ.keyword k)).elim
  | name => exact (h.no_slice hQ.name).elim
  | number => exact (h.no_slice hQ.number).elim
  | string => exact (h.no_slice hQ.string).elim
  | escape => exact (h.no_slice hQ.escape).elim
  | boolean => exact (h.no_slice hQ.boolean).elim
  | value => exact (h.no_slice hvalue).elim
  | pair => exact (h.no_slice (hQ.pair hvalue)).elim
  | object => exact (h.no_slice (Plan.avoids_object hB)).elim
  | array => exact (h.no_slice (hQ.array id hvalue)).elim
  | block => exact (h.no_slice Plan.avoids_block).elim
  | bodyChar => exact (h.no_slice Plan.avoids_bodyChar).elim
  | metadata => exact (h.no_slice hQ.metadata).elim
  | annotations => exact (h.no_slice hQ.annotations).elim

/-- What a run of the rule does to the state, and what it comes through on the way. -/
structure Disciplined (g : Nonterminal α) (s : State) : Prop where
  intact : s.Intact (g.rule s).2
  restored : (g.rule s).1 = none → (g.rule s).2.cursor = s.cursor
  moved : ∀ a, (g.rule s).1 = some a → s.cursor < (g.rule s).2.cursor
  ahead : (Rule.notAhead g.rule s).2 = s
  planned : g.plan.rule = g.rule
  moments : ∀ {γ : Type} (q : Plan γ) (t : State), g.plan.Enters s q t →
    t.text = s.text ∧ t.limit = s.limit ∧ t.Sound ∧ (q.rule t).2.Sound
  slices : ∀ (span : Span) (t : State), g.plan.Enters s (.slice span) t →
    span.start ≤ span.stop ∧ span.stop ≤ t.text.size

theorem disciplined (g : Nonterminal α) (hs : s.Sound) : g.Disciplined s where
  intact := by
    rw [← g.rule_plan]
    exact g.plan.intact s hs.within
  restored := by
    rw [← g.rule_plan]
    exact g.plan.cursor_of_restores g.restores s
  moved a := by
    rw [← g.rule_plan]
    exact g.plan.lt_of_moves g.moves s a hs.within
  ahead := by
    rw [← g.rule_plan]
    exact g.plan.notAhead_eq hs.within
  planned := g.rule_plan
  moments q t h := by
    obtain ⟨htext, hlimit⟩ := h.same hs.within
    exact ⟨htext, hlimit, h.sound hs, (h.sound hs).step (p := q) rfl⟩
  slices _ _ h := g.slices hs.within h

end Nonterminal

namespace Rule

theorem fragment_of_no_escape (h : (escape s).1 = none) :
    fragment s = (do return Units.ofChar (← plain)) (escape s).2 := by
  have hmap : (do return [← escape] : Rule (List UInt16)) s = (none, (escape s).2) :=
    bind_of_none (Prod.ext h rfl)
  exact orElse_of_none hmap

theorem repeatedly_of_no_escape (h : (escape s).1 = none) (bound : Nat)
    (units : List (List UInt16)) :
    repeatedly fragment (bound + 1) units s =
      match plain (escape s).2 with
      | (some c, s') => repeatedly fragment bound (Units.ofChar c :: units) s'
      | (none, s') => (units.reverse, s') := by
  rcases hplain : plain (escape s).2 with ⟨_ | c, s'⟩
  · exact repeatedly_of_none ((fragment_of_no_escape h).trans (bind_of_none hplain))
  · exact repeatedly_succ_of_some ((fragment_of_no_escape h).trans (bind_of_some hplain))

theorem Tries.taken {P : Prop} {K : Char → Prop} {r : Rule α} {L : Phrase α} {a : α}
    (h : r.Tries P K L s) (hr : r s = (some a, s')) :
    L (s.text.extract s.cursor s'.cursor).toList a := by
  obtain ⟨w, y, he, hw, hstop⟩ := h.word_of_run hr
  rwa [extract_rest he hstop]

end Rule

def Grammar.Numeral.written (n : Grammar.Numeral) : List Char :=
  n.sign.toList ++ (n.whole ++ (n.fraction.map ('.' :: ·)).getD [])

theorem Grammar.eq_of_name {w : List Char} {n : String} (h : Grammar.name w n) : w = n.toList := by
  obtain ⟨c, t, rfl, -, ht⟩ := Phrase.one_bind_iff.mp h
  obtain ⟨rest, hrest, rfl⟩ := Phrase.bind_pure_iff.mp ht
  rw [(Phrase.star_one_iff.mp hrest).1]
  simp

theorem Grammar.eq_of_numeral {w : List Char} {n : Grammar.Numeral} (h : Grammar.numeral w n) :
    w = n.written := by
  obtain ⟨sign, behind, rfl, hsign, -, hbehind⟩ := Grammar.numeral_iff.mp h
  have hminus : sign = n.sign.toList := by
    cases hn : n.sign with
    | none =>
      rw [hn] at hsign
      exact hsign
    | some c =>
      rw [hn] at hsign
      exact hsign.1
  rw [hminus, (Grammar.optional_fraction_iff.mp hbehind).1, Grammar.Numeral.written]

theorem Rule.span_of_run {p : Plan α} {a : Option α} (hp : p.rule s = (a, s')) (hs : s.Sound) :
    s.cursor ≤ s'.cursor ∧ s'.cursor ≤ s.text.size := by
  have hi := Plan.intact_of_run hp hs.within
  exact ⟨hi.advanced, hi.text ▸ hi.within⟩

theorem Nonterminal.all_disciplined (s : State) (hs : s.Sound) :
    (∀ {α : Type} (g : Nonterminal α), g.Disciplined s) ∧
    ((Rule.escape s).1 = none → ∀ (bound : Nat) (units : List (List UInt16)),
      Rule.repeatedly Rule.fragment (bound + 1) units s =
        match Rule.plain (Rule.escape s).2 with
        | (some c, s') => Rule.repeatedly Rule.fragment bound (Units.ofChar c :: units) s'
        | (none, s') => (units.reverse, s')) ∧
    (∀ (n : String) (s' : State), Rule.name s = (some n, s') →
      (s.cursor ≤ s'.cursor ∧ s'.cursor ≤ s.text.size) ∧
        (s.text.extract s.cursor s'.cursor).toList = n.toList) ∧
    (Rule.number = Rule.attempt (Rule.numeral >>= Rule.finite) ∧
      ∀ (n : Grammar.Numeral) (s' : State), Rule.numeral s = (some n, s') →
        (s.cursor ≤ s'.cursor ∧ s'.cursor ≤ s.text.size) ∧
          (s.text.extract s.cursor s'.cursor).toList = n.written) ∧
    (∀ (maxDepth : Nat) (x : List Char) {γ : Type} (q : Plan γ) (t : State),
      Plan.definition.Enters (Script.start maxDepth x) q t →
        t.depth ≤ maxDepth ∧ t.cursor ≤ x.length) := by
  refine ⟨fun g => g.disciplined hs, Rule.repeatedly_of_no_escape, ?_, ⟨Rule.number_eq, ?_⟩, ?_⟩
  · intro n s' h
    exact ⟨Rule.span_of_run (p := .name) h hs,
      Grammar.eq_of_name (Rule.tries_name.taken (P := True) h)⟩
  · intro n s' h
    rw [← Plan.rule_numeral] at h
    refine ⟨Rule.span_of_run h hs, ?_⟩
    rw [Plan.rule_numeral] at h
    exact Grammar.eq_of_numeral (Rule.tries_numeral.taken (P := True) h)
  · intro maxDepth x γ q t h
    have hstart : (Script.start maxDepth x).Sound := ⟨Nat.zero_le _, Nat.zero_le _⟩
    obtain ⟨htext, hlimit⟩ := h.same hstart.within
    have ht := h.sound hstart
    exact ⟨by simpa [hlimit, Script.start] using ht.shallow,
      by simpa [htext, Script.start] using ht.within⟩

theorem Nonterminal.all_disciplined_inside :
    let s : State := { text := "(a=[1])".toList.toArray, cursor := 3, depth := 1, limit := 2 }
    s.Sound ∧ (∀ {α : Type} (g : Nonterminal α), g.Disciplined s) := by
  intro s
  have hs : s.Sound := ⟨by decide, by decide⟩
  exact ⟨hs, (Nonterminal.all_disciplined s hs).1⟩

end FuncScript

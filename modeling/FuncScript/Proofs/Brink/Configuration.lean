import FuncScript.Proofs.Brink.Grammar
import FuncScript.Proofs.Brink.Rule
import FuncScript.Proofs.Nesting.Value

/-!
The rules for values miss a level only where a container could stand that is one level too deep.
-/

namespace FuncScript.Rule

open Phrase (IsBlank)

variable {α : Type} {B : Phrase Unit} {I : Phrase α} {r : Rule α} {s : State} {d n : Nat}

theorem mild_literal (c : Char) : (literal c).Mild :=
  (Plan.literal c).mild fun _ => Expectation.noConfusion

theorem mild_name : name.Mild := by
  rw [← Plan.rule_name]
  exact Plan.name.mild Plan.compositional_mild.name

theorem mild_scalar : (orElse (do return .number (← number)) <|
    orElse (do return .string (← string)) <|
      orElse (do return .boolean (← boolean)) never : Rule Value).Mild := by
  have hnumber : number.Mild := Plan.rule_number ▸ Plan.number.mild Plan.compositional_mild.number
  have hstring : string.Mild := Plan.rule_string ▸ Plan.string.mild Plan.compositional_mild.string
  have hboolean : boolean.Mild := Plan.rule_boolean ▸ Plan.boolean.mild Plan.compositional_mild.boolean
  exact mild_orElse (mild_map hnumber) (mild_orElse (mild_map hstring)
    (mild_orElse (mild_map hboolean) (Plan.never.mild trivial)))

section Lists

variable {opening closing : Char}
  (hr : ∀ k, 0 < k → Solid (s.moved k).rest → r.Reads False GoesOnNumber I (s.moved k))
  (hw : ∀ k, 0 < k → Solid (s.moved k).rest → r.Wants B (s.moved k))
  (hv : I.Viable []) (hS : I.Begins fun c => ¬ IsBlank c)

include hr hw hv hS

theorem wants_next {k : Nat} (hk : 0 < k) :
    (attempt do comma; r).Wants (Grammar.comma >>= fun _ => B) (s.moved k) ∧
      (attempt do comma; r).Tries False GoesOnNumber (Grammar.comma >>= fun _ => I)
        (s.moved k) := by
  rw [comma_bind_eq, Grammar.comma_bind_eq, Grammar.comma_bind_eq]
  constructor
  · refine (Wants.blanks_bind fun i _ => ?_).attempt
    refine (mild_literal ',').bind (reads_literal (P := False) ',').tries fun w y _ _ _ => ?_
    refine Wants.blanks_bind fun j hsolid => ?_
    rw [State.moved_moved, State.moved_moved, State.moved_moved] at hsolid ⊢
    exact hw _ (by omega) hsolid
  · refine (Tries.blanks_bind ?_ ?_ fun i _ => ?_).attempt.tries
    · apply (Grammar.begins_next I).mono
      rintro c rfl
      decide
    · exact Phrase.viable_nil_bind (Phrase.viable_nil_symbol ',') fun _ =>
        Phrase.viable_nil_bind Phrase.viable_nil_blanks fun _ => hv
    · rw [State.moved_moved]
      exact tries_next hr (by omega) hv hS

theorem wants_separated {k : Nat} (hk : 0 < k) (hs : Solid (s.moved k).rest) :
    (separated comma r).Wants (Phrase.either B (do
      let _ ← I
      let _ ← Phrase.star do Grammar.comma; I
      Grammar.comma
      B)) (s.moved k) := by
  refine (hw k hk hs).optional_bind (hr k hk hs).tries (mild_pure []) fun w y first _ _ => ?_
  have hnext (j : Nat) := wants_next hr hw hv hS (k := k + (w.length + j)) (by omega)
  simp only [← State.moved_moved] at hnext
  have hmore := Wants.many (fun j => (hnext j).1) fun j => (hnext j).2
  exact hmore.bind_mild fun rest => mild_pure (first :: rest)

end Lists

theorem wants_enclosed {opening closing : Char} (hd : s.depth < s.limit) (hs : Solid s.rest)
    (hr : ∀ k, 0 < k → Solid (s.deeper.moved k).rest →
      r.Reads False GoesOnNumber I (s.deeper.moved k))
    (hw : ∀ k, 0 < k → Solid (s.deeper.moved k).rest → r.Wants B (s.deeper.moved k))
    (hv : I.Viable []) (hS : I.Begins fun c => ¬ IsBlank c) :
    (enclosed opening closing r).Wants (Grammar.enclosedBrink opening I B) s := by
  refine Wants.nested hd (Wants.attempt (Wants.of_solid (s := s.deeper) hs ?_))
  refine (mild_literal opening).bind (reads_literal (P := False) opening).tries fun w y _ _ hc => ?_
  refine Wants.blanks_bind fun k hsolid => ?_
  rw [State.moved_moved] at hsolid ⊢
  have hpos : 0 < w.length + k := by
    rw [hc.1, List.length_singleton]
    omega
  refine (wants_separated hr hw hv hS hpos hsolid).bind_mild fun items => ?_
  exact mild_bind mild_blanks fun _ => mild_map (mild_literal closing)

theorem wants_pair (hs : Solid s.rest)
    (hw : ∀ k, Solid (s.moved k).rest → r.Wants B (s.moved k)) :
    (pair r).Wants (Grammar.pairBrink B) s := by
  refine Wants.attempt (Wants.of_solid hs ?_)
  refine mild_name.bind (tries_name (P := False)) fun w y key _ _ => ?_
  refine Wants.blanks_bind fun i _ => ?_
  refine (mild_literal '=').bind (reads_literal (P := False) '=').tries fun w y _ _ _ => ?_
  refine Wants.blanks_bind fun j hsolid => ?_
  rw [State.moved_moved, State.moved_moved, State.moved_moved] at hsolid ⊢
  exact (hw _ hsolid).bind_mild fun v => mild_pure (key, v)

theorem wants_object {v : Rule Value} (hs : s.Room d (n + 1)) (hsolid : Solid s.rest)
    (hr : ∀ k, Solid (s.deeper.moved k).rest →
      v.Reads False GoesOnNumber (Grammar.value n) (s.deeper.moved k))
    (hw : ∀ k, Solid (s.deeper.moved k).rest →
      v.Wants (Grammar.valueBrink n) (s.deeper.moved k)) :
    (object v).Wants (Grammar.enclosedBrink '(' (Grammar.pair (Grammar.value n))
      (Grammar.pairBrink (Grammar.valueBrink n))) s := by
  have hV := Grammar.viable_value n
  refine (wants_enclosed hs.lt hsolid (fun k _ hk => ?_) (fun k _ hk => ?_) ?_ ?_).bind_mild
    fun pairs => mild_pure (Entries.ofList pairs)
  · refine reads_pair hk (fun j hj => ?_) (Grammar.begins_value n) hV
    rw [State.moved_moved] at hj ⊢
    exact hr _ hj
  · refine wants_pair hk fun j hj => ?_
    rw [State.moved_moved] at hj ⊢
    exact hw _ hj
  · exact Phrase.viable_nil_bind viable_name fun _ => Grammar.viable_assigned hV _
  · apply (Grammar.begins_pair (Grammar.value n)).mono
    intro c hc
    exact Phrase.not_blank_of (S := (CharClass.nameStart.contains · = true)) (by decide) hc

theorem wants_valueWithin : ∀ (n : Nat) {d : Nat} {s : State}, s.Room d n → Solid s.rest →
    (valueWithin n).Wants (Grammar.valueBrink n) s
  | 0, d, s, hs, _ => by
    have hle : s.limit ≤ s.depth := by
      rw [hs.limit, hs.depth]
      exact Nat.le_refl d
    have hrefused : ∀ {o e : Char} {α : Type} {r : Rule α},
        (enclosed o e r).Wants (pure ()) s := wants_nested hle
    change (choice (alternatives never)).Wants (pure ()) s
    refine Wants.orElse ((hrefused.bind_mild fun _ => mild_pure _).bind_mild fun _ => mild_pure _)
      (gives_refused hle).bind_none.bind_none (fun _ => rfl) ?_
    exact (hrefused.bind_mild fun _ => mild_pure _).orElse_mild mild_scalar
  | n + 1, d, s, hs, hsolid => by
    have hr : ∀ k, Solid (s.deeper.moved k).rest →
        (valueWithin n).Reads False GoesOnNumber (Grammar.value n) (s.deeper.moved k) :=
      fun k hk => Nesting.reads_value (hs.deeper.moved k) hk
    have hw : ∀ k, Solid (s.deeper.moved k).rest →
        (valueWithin n).Wants (Grammar.valueBrink n) (s.deeper.moved k) :=
      fun k hk => wants_valueWithin n (hs.deeper.moved k) hk
    obtain ⟨o, hg, hback, -⟩ := reads_object (P := False) hs.lt hsolid (fun _ k _ => hr k)
      (Grammar.begins_value n) (Grammar.viable_value n) False.elim
    change (choice (alternatives (valueWithin n))).Wants (Grammar.valueBrink (n + 1)) s
    refine Wants.orElse (((wants_object hs hsolid hr hw).bind_mild fun _ => mild_pure _).mono
      fun _ => .inl) (gives_map hg) (fun hf => (hback (Option.map_eq_none_iff.mp hf)).2) ?_
    refine Wants.orElse_mild (((wants_enclosed hs.lt hsolid (fun k _ => hr k) (fun k _ => hw k)
      (Grammar.viable_value n) ?_).bind_mild fun _ => mild_pure _).mono fun _ => .inr) mild_scalar
    exact (Grammar.begins_value n).mono fun _ => Grammar.not_blank_of_startsValue

theorem wants_configuration (hs : s.Room 0 n) (hsolid : Solid s.rest) :
    (object value).Wants (Grammar.configurationBrink n) s := by
  cases n with
  | zero =>
    have hle : s.limit ≤ s.depth := by rw [hs.limit, hs.depth]
    exact (wants_nested hle).bind_mild fun _ => mild_pure _
  | succ n =>
    refine wants_object hs hsolid (fun k hk => ?_) fun k hk => ?_
    · exact reads_value (.inl (hs.deeper.moved k).levels) False.elim hk
    · refine (wants_valueWithin n (hs.deeper.moved k) hk).congr fun log => ?_
      rw [value, (hs.deeper.moved k).levels]

end FuncScript.Rule

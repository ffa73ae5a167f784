import FuncScript.Proofs.Brink.Grammar
import FuncScript.Proofs.Brink.Rule
import FuncScript.Proofs.Nesting.Block

/-!
The rule for blocks misses a level only where a block could stand that is one level too deep. In a
body on the last level that is every place that is come to.
-/

namespace FuncScript.Rule

open Nesting (inside)
open Phrase (skip_iff)

variable {B : Phrase Unit} {s : State} {d n : Nat}

theorem mild_keyword (k : Keyword) : (keyword k).Mild := by
  rw [← Plan.rule_keyword]
  exact (Plan.keyword k).mild (Plan.compositional_mild.keyword k)

theorem wants_bodyStep {inner : Rule Span} (h : inner.Wants B s) : (bodyStep inner).Wants B s := by
  have hchar : bodyChar.Mild := Plan.rule_bodyChar ▸ Plan.bodyChar.mild Plan.mild_bodyChar
  exact (h.bind_mild fun _ => mild_pure ()).orElse_mild (mild_map hchar)

theorem contents_of_bodyStep (hs : s.Room d n) : ∃ o, (bodyStep (blockWithin n)).Gives s o ∧
    ∀ a, o.found = some a → ∃ w y, s.rest = w ++ y ∧ o.stop = s.cursor + w.length ∧
      Grammar.Contents (fun u => ∃ r, Grammar.block n u r) y w := by
  obtain ⟨⟨found, j, notes⟩, hg, hback, hread⟩ := inside hs
  cases found with
  | some a =>
    obtain ⟨w, y, he, hw, hj⟩ := hread.sound a rfl
    refine ⟨_, hg.orElse_some, fun _ _ => ⟨w, y, he, hj, ?_⟩⟩
    have hblock : Grammar.Contents (fun u => ∃ r, Grammar.block n u r) y (w ++ []) :=
      .block (skip_iff.mp hw) .nil
    rwa [List.append_nil] at hblock
  | none =>
    obtain rfl := (hback rfl).2
    by_cases hf : Keyword.blockBegin.startsAt s.rest = true ∨
        Keyword.blockEnd.startsAt s.rest = true
    · exact ⟨_, gives_bodyStep_fence hg hf, by simp⟩
    · obtain ⟨hb, he⟩ := not_or.mp hf
      have hb := Bool.eq_false_iff.mpr hb
      have he := Bool.eq_false_iff.mpr he
      cases hr : s.rest with
      | nil => exact ⟨_, gives_bodyStep_end hg hr, by simp⟩
      | cons c x =>
        refine ⟨_, gives_bodyStep_char hg hr hb he, fun _ _ => ⟨[c], x, rfl, rfl, ?_⟩⟩
        rw [hr] at hb he
        exact .char hb he .nil

theorem wants_body (hs : s.Room d n) (h : ∀ k, (blockWithin n).Wants B (s.moved k)) :
    (bodyOf (blockWithin n)).Wants (Grammar.bodyStart n >>= fun _ => B) s := by
  have hloop : (many (bodyStep (blockWithin n))).Wants (Grammar.bodyStart n >>= fun _ => B) s := by
    intro log
    -- what the loop has passed so far may stand in a body, before what is left
    let J (j : Nat) : Prop := ∃ p y, s.rest = p ++ y ∧
      Grammar.Contents (fun u => ∃ r, Grammar.block n u r) y p ∧ j = s.cursor + p.length
    apply confined_many (J := J)
    · rintro _ ⟨p, y, he, hp, rfl⟩
      obtain ⟨o, hg, hfound⟩ := contents_of_bodyStep (hs.moved p.length)
      refine ⟨o, hg, fun a ha => ?_, fun log => ?_⟩
      · obtain ⟨w, z, he', hj, hw⟩ := hfound a ha
        rw [State.rest_moved_of_append he] at he'
        subst he'
        refine ⟨p ++ w, z, by rw [he, List.append_assoc], Grammar.contents_append hp hw, ?_⟩
        rw [hj, List.length_append, ← Nat.add_assoc]
        rfl
      · exact (wants_bodyStep (h p.length) log).mono fun i hi =>
          hi.prepend (a := ()) he (Grammar.contents_nil hp)
    · exact ⟨[], s.rest, rfl, .nil, rfl⟩
  have hend (start : Nat) : (cursor >>= fun stop => keyword .blockEnd >>= fun _ =>
      (pure ⟨start, stop⟩ : Rule Span)).Mild :=
    mild_bind (Plan.cursor.mild trivial) fun _ => mild_map (mild_keyword .blockEnd)
  exact (hloop.bind_mild fun _ => hend s.cursor).congr fun _ => rfl

theorem wants_blockWithin : ∀ (n : Nat) {d : Nat} {s : State}, s.Room d n →
    (blockWithin n).Wants (Grammar.blockBrink n) s
  | 0, d, s, hs => by
    apply wants_nested
    rw [hs.limit, hs.depth]
    exact Nat.le_refl d
  | n + 1, d, s, hs => by
    change (blockAround (blockWithin n)).Wants (Grammar.blockBrink (n + 1)) s
    rw [blockAround_eq]
    refine Wants.nested hs.lt (Wants.attempt ?_)
    refine (mild_keyword .blockBegin).bind (reads_keyword (P := False) .blockBegin).tries ?_
    intro w y _ _ _
    refine wants_body (hs.deeper.moved _) fun k => ?_
    exact wants_blockWithin n ((hs.deeper.moved _).moved k)

theorem wants_block (hs : s.Room d n) : block.Wants (Grammar.blockBrink n) s :=
  (wants_blockWithin n hs).congr fun log => by rw [block, hs.levels]

end FuncScript.Rule

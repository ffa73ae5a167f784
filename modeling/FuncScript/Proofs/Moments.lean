import FuncScript.Proofs.Acceptance
import FuncScript.Proofs.Compositional

/-!
Every moment of a run. A plan is entered in some state; so is each of its parts, in the states that
the run comes through. None of these lies outside the text or deeper than the limit.
-/

namespace FuncScript

variable {α β γ : Type} {s s' t : State} {p p' : Plan α} {q : Plan γ}

namespace Plan

/-- A run of the first plan in the first state comes to a run of the second in the second. -/
inductive Enters : {α γ : Type} → Plan α → State → Plan γ → State → Prop
  | self {α : Type} (p : Plan α) (s : State) : Enters p s p s
  | bind {α β γ : Type} {p : Plan α} {f : α → Plan β} {q : Plan γ} {s t : State}
      (h : Enters p s q t) : Enters (.bind p f) s q t
  | next {α β γ : Type} {p : Plan α} {f : α → Plan β} {q : Plan γ} {s s' t : State} {a : α}
      (hp : p.rule s = (some a, s')) (h : Enters (f a) s' q t) : Enters (.bind p f) s q t
  | attempt {α γ : Type} {p : Plan α} {q : Plan γ} {s t : State} (h : Enters p s q t) :
      Enters (.attempt p) s q t
  | notAhead {α γ : Type} {p : Plan α} {q : Plan γ} {s t : State} (h : Enters p s.quiet q t) :
      Enters (.notAhead p) s q t
  | nested {α γ : Type} {p : Plan α} {q : Plan γ} {s t : State} (hd : s.depth < s.limit)
      (h : Enters p s.deeper q t) : Enters (.nested p) s q t
  | left {α γ : Type} {p p' : Plan α} {q : Plan γ} {s t : State} (h : Enters p s q t) :
      Enters (.orElse p p') s q t
  | right {α γ : Type} {p p' : Plan α} {q : Plan γ} {s s' t : State} (hp : p.rule s = (none, s'))
      (h : Enters p' s' q t) : Enters (.orElse p p') s q t
  | optional {α γ : Type} {p : Plan α} {q : Plan γ} {s t : State} (h : Enters p s q t) :
      Enters (.optional p) s q t
  | many {α γ : Type} {p : Plan α} {q : Plan γ} {s t : State} (h : Enters p s q t) :
      Enters (.many p) s q t
  | again {α γ : Type} {p : Plan α} {q : Plan γ} {s s' t : State} {a : α}
      (hp : p.rule s = (some a, s')) (h : Enters (.many p) s' q t) : Enters (.many p) s q t
  | levels {α γ : Type} {f : Nat → Plan α} {q : Plan γ} {s t : State}
      (h : Enters (f (s.limit - s.depth)) s q t) : Enters (.levels f) s q t

end Plan

structure State.Sound (s : State) : Prop where
  within : s.cursor ≤ s.text.size
  shallow : s.depth ≤ s.limit

theorem State.Sound.step (h : s.Sound) {a : Option α} (hp : p.rule s = (a, s')) : s'.Sound := by
  have hi := Plan.intact_of_run hp h.within
  refine ⟨hi.within, ?_⟩
  rw [hi.depth, hi.limit]
  exact h.shallow

namespace Plan

theorem Enters.sound (h : Enters p s q t) (hs : s.Sound) : t.Sound := by
  induction h with
  | self => exact hs
  | next hp _ ih => exact ih (hs.step hp)
  | nested hd _ ih => exact ih ⟨hs.within, hd⟩
  | right hp _ ih => exact ih (hs.step hp)
  | again hp _ ih => exact ih (hs.step hp)
  | notAhead _ ih => exact ih ⟨hs.within, hs.shallow⟩
  | bind _ ih | attempt _ ih | left _ ih | optional _ ih | many _ ih | levels _ ih => exact ih hs

theorem Enters.same (h : Enters p s q t) (hs : s.cursor ≤ s.text.size) :
    t.text = s.text ∧ t.limit = s.limit := by
  induction h with
  | self => exact ⟨rfl, rfl⟩
  | next hp _ ih | right hp _ ih | again hp _ ih =>
    have hi := intact_of_run hp hs
    obtain ⟨htext, hlimit⟩ := ih hi.within
    exact ⟨htext.trans hi.text, hlimit.trans hi.limit⟩
  | bind _ ih | attempt _ ih | left _ ih | optional _ ih | many _ ih | levels _ ih => exact ih hs
  | nested _ _ ih => exact ih hs
  | notAhead _ ih => exact ih hs

variable {B : List Char} {C : Span → Prop}

/-- Matches none of the characters but among blanks, cuts only such stretches out of the text, and
repeats only what moves on. Where there are characters to avoid it does not ask for its place. -/
def Avoids (B : List Char) (C : Span → Prop) : {α : Type} → Plan α → Prop
  | _, .terminal accepts _ => ∀ c ∈ B, accepts c = false
  | _, .cursor => B = []
  | _, .slice span => C span
  | _, .bind p f => p.Avoids B C ∧ ∀ a, (f a).Avoids B C
  | _, .attempt p | _, .notAhead p | _, .nested p | _, .optional p => p.Avoids B C
  | _, .many p => p.Avoids B C ∧ p.Moves
  | _, .orElse p q => p.Avoids B C ∧ q.Avoids B C
  | _, .levels f => ∀ n, (f n).Avoids B C
  | _, .pure _ | _, .fail _ | _, .never | _, .blanks => True

theorem Enters.avoids (h : Enters p s q t) (hp : p.Avoids B C) : q.Avoids B C := by
  induction h with
  | self => exact hp
  | bind _ ih => exact ih hp.1
  | next _ _ ih => exact ih (hp.2 _)
  | left _ ih => exact ih hp.1
  | right _ _ ih => exact ih hp.2
  | levels _ ih => exact ih (hp _)
  | many _ ih => exact ih hp.1
  | attempt _ ih | optional _ ih | again _ _ ih | nested _ _ ih | notAhead _ ih => exact ih hp

theorem misses_breaks (k : Keyword) : k.Misses breaks := by cases k <;> decide

theorem misses_named : ∀ k ∈ CharClass.named, k.Misses breaks := by decide

theorem compositional_avoids (hB : B ⊆ breaks) : Compositional (Avoids B C) where
  pure _ := trivial
  not_finite := trivial
  literal {c} hc d hd := by
    have hne : d ≠ c := fun he => hc (he ▸ hB hd)
    simpa using hne
  oneOf hk c hc := misses_named _ hk c (hB hc)
  letter k u hu c hc := misses_breaks k u hu c (hB hc)
  blanks := trivial
  bind h h' := ⟨h, h'⟩
  attempt h := h
  optional h := h
  many h hm := ⟨h, hm⟩
  orElse h h' := ⟨h, h'⟩
  last h := ⟨h, trivial⟩

theorem avoids_value (hB : B ⊆ breaks) : value.Avoids B C :=
  (compositional_avoids hB).valueWithin id True.intro

theorem avoids_object (hB : B ⊆ breaks) : (object value).Avoids B C :=
  (compositional_avoids hB).object (compositional_avoids hB) id (avoids_value hB)

theorem avoids_anyChar : anyChar.Avoids [] C := fun _ hc => (List.not_mem_nil hc).elim

theorem avoids_bodyChar : bodyChar.Avoids [] C := by
  have hQ := compositional_avoids (C := C) (List.nil_subset breaks)
  exact hQ.bodyChar hQ.keyword avoids_anyChar

theorem avoids_block : block.Avoids [] C := by
  have hQ := compositional_avoids (C := C) (List.nil_subset breaks)
  exact hQ.blockWithin hQ.keyword avoids_anyChar id rfl True.intro

theorem found_bind {f : α → Plan β} {b : β} (h : (bind p f).rule s = (some b, t)) :
    ∃ a s', p.rule s = (some a, s') ∧ (f a).rule s' = (some b, t) := by
  rcases hrun : p.rule s with ⟨_ | a, s'⟩
  · rw [rule_bind, Rule.bind_of_none hrun] at h
    simp at h
  · rw [rule_bind, Rule.bind_of_some hrun] at h
    exact ⟨a, s', rfl, h⟩

theorem found_attempt {a : α} (h : (attempt p).rule s = (some a, t)) : p.rule s = (some a, t) := by
  rcases hrun : p.rule s with ⟨_ | b, s'⟩
  · rw [rule_attempt, Rule.attempt_of_none hrun] at h
    simp at h
  · rw [rule_attempt, Rule.attempt_of_some hrun] at h
    exact h

theorem found_nested {a : α} (h : (nested p).rule s = (some a, t)) :
    ∃ s', p.rule s.deeper = (some a, s') ∧ s'.cursor = t.cursor ∧ s'.text = t.text := by
  rcases Nat.lt_or_ge s.depth s.limit with hd | hd
  · rw [rule, Rule.nested_of_lt hd] at h
    obtain ⟨hfound, rfl⟩ := Prod.mk.inj h
    exact ⟨_, Prod.ext hfound rfl, rfl, rfl⟩
  · rw [rule, Rule.nested_of_le hd] at h
    simp at h

theorem span_of_blockAround {inner : Plan Span} {span : Span} (hs : s.cursor ≤ s.text.size)
    (h : (blockAround inner).rule s = (some span, t)) :
    span.start ≤ span.stop ∧ span.stop ≤ t.cursor := by
  obtain ⟨s₀, h, ht, -⟩ := found_nested h
  obtain ⟨_, s₁, hopen, h⟩ := found_bind (found_attempt h)
  obtain ⟨_, _, hstart, h⟩ := found_bind h
  cases hstart
  obtain ⟨_, s₂, hbody, h⟩ := found_bind h
  obtain ⟨_, _, hstop, h⟩ := found_bind h
  cases hstop
  obtain ⟨_, s₃, hclose, hspan⟩ := found_bind h
  cases hspan
  have h₁ := intact_of_run hopen (by exact hs)
  have h₂ := intact_of_run hbody h₁.within
  have h₃ := intact_of_run hclose h₂.within
  exact ⟨h₂.advanced, ht ▸ h₃.advanced⟩

theorem span_of_block {span : Span} (hs : s.cursor ≤ s.text.size)
    (h : block.rule s = (some span, t)) : span.start ≤ span.stop ∧ span.stop ≤ t.text.size := by
  obtain ⟨inner, hb⟩ : ∃ inner, (blockAround inner).rule s = (some span, t) := by
    change (blockWithin (s.limit - s.depth)).rule s = _ at h
    cases hn : s.limit - s.depth <;> rw [hn] at h <;> exact ⟨_, h⟩
  obtain ⟨hle, hstop⟩ := span_of_blockAround hs hb
  exact ⟨hle, Nat.le_trans hstop (intact_of_run h hs).within⟩

theorem Enters.no_slice {span : Span} (h : Enters p s (.slice span) t)
    (hp : p.Avoids [] fun _ => False) : False :=
  h.avoids hp

theorem Enters.slice_behind {f : α → Plan β} {span : Span}
    (h : Enters (.bind p f) s (.slice span) t) (hp : p.Avoids [] fun _ => False)
    (hs : s.cursor ≤ s.text.size) :
    ∃ a s', p.rule s = (some a, s') ∧ s'.cursor ≤ s'.text.size ∧
      Enters (f a) s' (.slice span) t := by
  cases h with
  | bind h => exact (h.no_slice hp).elim
  | next hrun h => exact ⟨_, _, hrun, (intact_of_run hrun hs).within, h⟩

theorem Enters.slice_attempt {span : Span} (h : Enters (.attempt p) s (.slice span) t) :
    Enters p s (.slice span) t := by
  cases h with
  | attempt h => exact h

theorem slice_of_definition {span : Span} (hs : s.cursor ≤ s.text.size)
    (h : Enters definition s (.slice span) t) :
    span.start ≤ span.stop ∧ span.stop ≤ t.text.size := by
  have hB := List.nil_subset breaks
  have hQ {C : Span → Prop} := compositional_avoids (C := C) hB
  obtain ⟨_, s₁, -, hs, h⟩ := h.slice_attempt.slice_behind trivial hs
  obtain ⟨_, s₂, -, hs, h⟩ := h.slice_behind (hQ.keyword .func) hs
  obtain ⟨_, s₃, -, hs, h⟩ := h.slice_behind trivial hs
  obtain ⟨_, s₄, -, hs, h⟩ := h.slice_behind hQ.name hs
  obtain ⟨_, s₅, -, hs, h⟩ := h.slice_behind trivial hs
  obtain ⟨_, s₆, -, hs, h⟩ := h.slice_behind (avoids_object hB) hs
  obtain ⟨_, s₇, -, hs₇, h⟩ := h.slice_behind trivial hs
  obtain ⟨cut, s₈, hblock, hs₈, h⟩ := h.slice_behind avoids_block hs₇
  obtain rfl : cut = span := h.avoids (B := []) ⟨rfl, fun _ => hQ.map hQ.annotations⟩
  rw [(h.same hs₈).1]
  exact span_of_block hs₇ hblock

end Plan

end FuncScript

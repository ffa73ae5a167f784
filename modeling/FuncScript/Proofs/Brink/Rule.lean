import FuncScript.Proofs.Compositional
import FuncScript.Proofs.Nesting.Limit

/-!
Where rules miss a level. A run leaves a log that expects a level only where one was expected
before, or where the run came to a brink: to the end of a word behind which it had to go a level
deeper, and could not.
-/

namespace FuncScript

open Phrase (IsBlank bind_mk bind_iff)
open Rule (tooDeep)

variable {α β : Type} {P : Prop} {K : Char → Prop} {B C : Phrase Unit} {L : Phrase α}
  {s : State} {limit : Nat} {G G' : Nat → Prop} {log log' log'' : FailureLog}

/-- A level that the later log expects was expected before, or is so at one of the places. -/
def FailureLog.Confined (limit : Nat) (G : Nat → Prop) (log log' : FailureLog) : Prop :=
  tooDeep limit ∈ log'.expected →
    (tooDeep limit ∈ log.expected ∧ log'.furthest = log.furthest) ∨ G log'.furthest

namespace FailureLog

theorem confined_refl (log : FailureLog) : Confined limit G log log := fun h => .inl ⟨h, rfl⟩

theorem Confined.trans (h : Confined limit G log log') (h' : Confined limit G log' log'') :
    Confined limit G log log'' := by
  intro hx
  rcases h' hx with ⟨hx', heq⟩ | hG
  · rw [heq]
    exact h hx'
  · exact .inr hG

theorem Confined.mono (h : Confined limit G log log') (hG : ∀ i, G i → G' i) :
    Confined limit G' log log' :=
  fun hx => (h hx).imp_right (hG _)

theorem confined_record {offset : Nat} {e : Expectation} (h : e = tooDeep limit → G offset) :
    Confined limit G log (log.record offset e) := by
  intro hx
  by_cases hr : log.reporting = true
  · rw [record, if_pos hr] at hx ⊢
    rcases mem_expected_force hx with hx | ⟨heq, hat⟩
    · exact .inl hx
    · rw [hat]
      exact .inr (h heq.symm)
  · rw [record, if_neg hr] at hx ⊢
    exact .inl ⟨hx, rfl⟩

end FailureLog

open FailureLog (Confined confined_refl confined_record)

namespace Rule

variable {r r' : Rule α} {f : α → Rule β}

def Mild (r : Rule α) : Prop :=
  ∀ (s : State) (limit : Nat), Confined limit (fun _ => False) s.failures (r s).2.failures

theorem mild_pure (a : α) : (pure a : Rule α).Mild := fun s _ => confined_refl s.failures

theorem mild_bind (h : r.Mild) (hf : ∀ a, (f a).Mild) : (r >>= f).Mild := by
  intro s limit
  have hr := h s limit
  rcases hrun : r s with ⟨_ | a, s'⟩ <;> rw [hrun] at hr
  · rw [bind_of_none hrun]
    exact hr
  · rw [bind_of_some hrun]
    exact hr.trans (hf a s' limit)

theorem mild_map {g : α → β} (h : r.Mild) : (r >>= fun a => pure (g a)).Mild :=
  mild_bind h fun a => mild_pure (g a)

theorem mild_orElse (h : r.Mild) (h' : r'.Mild) : (orElse r r').Mild := by
  intro s limit
  have hr := h s limit
  rcases hrun : r s with ⟨_ | a, s'⟩ <;> rw [hrun] at hr
  · rw [orElse_of_none hrun]
    exact hr.trans (h' s' limit)
  · rw [orElse_of_some hrun]
    exact hr

theorem mild_terminal {accepts : Char → Bool} {e : Expectation} (h : ∀ limit, e ≠ tooDeep limit) :
    (terminal accepts e).Mild := by
  intro s limit
  rcases terminal_cases accepts e s with ⟨c, -, -, hrun⟩ | ⟨-, hrun⟩ <;> rw [hrun]
  · exact confined_refl s.failures
  · exact confined_record fun he => h limit he

theorem mild_blanks : blanks.Mild := by
  intro s limit
  change Confined limit _ s.failures (skipBlanks s.left s).failures
  rw [skipBlanks_eq s.left s (Nat.le_refl _)]
  exact confined_refl s.failures

theorem mild_attempt (h : r.Mild) : (attempt r).Mild := by
  intro s limit
  have hr := h s limit
  rcases hrun : r s with ⟨_ | a, s'⟩ <;> rw [hrun] at hr
  · rw [attempt_of_none hrun]
    exact hr
  · rw [attempt_of_some hrun]
    exact hr

theorem mild_many (h : r.Mild) : (many r).Mild := fun s limit =>
  rel_repeatedly (I := fun _ => True)
    (R := fun s t => Confined limit (fun _ => False) s.failures t.failures)
    (fun _ _ _ h₁ h₂ => h₁.trans h₂) (fun _ _ _ _ _ => trivial) (fun s _ => h s limit) s.left [] s
    trivial

end Rule

namespace Plan

@[simp]
def Mild : {α : Type} → Plan α → Prop
  | _, .bind p f => p.Mild ∧ ∀ a, (f a).Mild
  | _, .attempt p | _, .notAhead p | _, .optional p | _, .many p => p.Mild
  | _, .orElse p q => p.Mild ∧ q.Mild
  | _, .levels f => ∀ n, (f n).Mild
  | _, .fail e | _, .terminal _ e => ∀ limit, e ≠ tooDeep limit
  | _, .pure _ | _, .never | _, .blanks | _, .cursor | _, .slice _ => True
  | _, .nested _ => False

theorem mild (p : Plan α) : p.Mild → p.rule.Mild := by
  induction p with
  | pure | never | cursor | slice => exact fun _ s _ => confined_refl s.failures
  | bind p f ihp ihf => exact fun h => Rule.mild_bind (ihp h.1) fun a => ihf a (h.2 a)
  | fail e => exact fun h s limit => confined_record fun he => h limit he
  | terminal accepts e => exact Rule.mild_terminal
  | blanks => exact fun _ => Rule.mild_blanks
  | attempt p ih => exact fun h => Rule.mild_attempt (ih h)
  | notAhead p ih => exact fun h s limit => ih h { s with failures := s.failures.suppress.2 } limit
  | nested p => exact False.elim
  | orElse p q ihp ihq => exact fun h => Rule.mild_orElse (ihp h.1) (ihq h.2)
  | optional p ih => exact ih
  | many p ih => exact fun h => Rule.mild_many (ih h)
  | levels f ih => exact fun h s limit => ih _ (h _) s limit

theorem finite_ne_tooDeep : Expectation.other "finite number" ≠ tooDeep limit := by
  intro h
  have htext : "finite number" = "nesting depth of at most " ++ toString limit :=
    Expectation.other.inj h
  have hhead := congrArg (fun text : String => text.toList.head?) htext
  rw [String.toList_append, List.head?_append] at hhead
  exact absurd hhead (by simp)

theorem compositional_mild : Compositional Mild where
  pure _ := trivial
  not_finite _ := finite_ne_tooDeep
  literal _ _ := Expectation.noConfusion
  oneOf _ _ := Expectation.noConfusion
  letter _ _ _ _ := Expectation.noConfusion
  blanks := trivial
  bind h h' := ⟨h, h'⟩
  attempt h := h
  optional h := h
  many h _ := h
  orElse h h' := ⟨h, h'⟩
  last h := ⟨h, trivial⟩

theorem mild_bodyChar : bodyChar.Mild :=
  compositional_mild.bodyChar compositional_mild.keyword fun _ => Expectation.noConfusion

end Plan

def State.Behind (s : State) (B : Phrase Unit) (i : Nat) : Prop :=
  ∃ u y, s.rest = u ++ y ∧ B u () ∧ i = s.cursor + u.length

theorem State.Behind.mono {i : Nat} (h : s.Behind B i) (hC : ∀ u, B u () → C u ()) :
    s.Behind C i := by
  obtain ⟨u, y, he, hu, hi⟩ := h
  exact ⟨u, y, he, hC u hu, hi⟩

theorem State.Behind.prepend {w y : List Char} {a : α} {i : Nat}
    (h : (s.moved w.length).Behind B i) (he : s.rest = w ++ y) (hw : L w a) :
    s.Behind (L >>= fun _ => B) i := by
  obtain ⟨u, z, he', hu, hi⟩ := h
  rw [State.rest_moved_of_append he] at he'
  subst he'
  refine ⟨w ++ u, z, by rw [he, List.append_assoc], bind_mk hw hu, ?_⟩
  rw [hi, List.length_append, ← Nat.add_assoc]
  rfl

namespace Rule

variable {r r' : Rule α} {f : α → Rule β}

/-- The rule misses a level only behind words of a phrase. -/
def Wants (B : Phrase Unit) (r : Rule α) (s : State) : Prop :=
  ∀ log, Confined s.limit (s.Behind B) log (r { s with failures := log }).2.failures

theorem Wants.mono (h : r.Wants B s) (hC : ∀ u, B u () → C u ()) : r.Wants C s :=
  fun log => (h log).mono fun _ hi => hi.mono hC

theorem Mild.wants (h : r.Mild) : r.Wants B s :=
  fun log => (h { s with failures := log } s.limit).mono fun _ => False.elim

theorem Wants.congr (h : r.Wants B s)
    (he : ∀ log, r' { s with failures := log } = r { s with failures := log }) : r'.Wants B s := by
  intro log
  rw [he log]
  exact h log

theorem Wants.bind_mild (h : r.Wants B s) (hf : ∀ a, (f a).Mild) : (r >>= f).Wants B s := by
  intro log
  have hr := h log
  rcases hrun : r { s with failures := log } with ⟨_ | a, s'⟩ <;> rw [hrun] at hr
  · rw [bind_of_none hrun]
    exact hr
  · rw [bind_of_some hrun]
    exact hr.trans ((hf a s' s.limit).mono fun _ => False.elim)

theorem confined_behind {w y : List Char} {a : α} (h : Confined limit (s.Behind B) log log')
    (h' : Confined limit ((s.moved w.length).Behind C) log' log'') (he : s.rest = w ++ y)
    (hw : L w a) : Confined limit (s.Behind (B.either (L >>= fun _ => C))) log log'' := by
  have hfirst := h.mono fun _ hi => hi.mono (C := B.either (L >>= fun _ => C)) fun _ => .inl
  exact hfirst.trans (h'.mono fun i hi => (hi.prepend he hw).mono fun _ => .inr)

theorem Wants.bind (h : r.Wants B s) (ht : r.Tries P K L s)
    (hf : ∀ w y a, s.rest = w ++ y → L w a → (f a).Wants C (s.moved w.length)) :
    (r >>= f).Wants (Phrase.either B (L >>= fun _ => C)) s := by
  intro log
  obtain ⟨⟨found, j, notes⟩, hg, -, hread⟩ := ht
  have hr := h log
  rw [hg log] at hr
  cases found with
  | none =>
    rw [bind_of_none (hg log)]
    exact hr.mono fun _ hi => hi.mono fun _ => .inl
  | some a =>
    obtain ⟨w, y, he, hw, hj⟩ := hread.sound a rfl
    obtain rfl : j = s.cursor + w.length := hj
    rw [bind_of_some (hg log)]
    exact confined_behind hr (hf w y a he hw _) he hw

theorem Mild.bind (h : r.Mild) (ht : r.Tries P K L s)
    (hf : ∀ w y a, s.rest = w ++ y → L w a → (f a).Wants C (s.moved w.length)) :
    (r >>= f).Wants (L >>= fun _ => C) s := by
  have hr : r.Wants (fun _ _ => False) s := h.wants
  exact (hr.bind ht hf).mono fun _ hu => hu.resolve_left id

theorem Wants.blanks_bind (h : ∀ k, Solid (s.moved k).rest → r.Wants B (s.moved k)) :
    (blanks >>= fun _ => r).Wants (Phrase.blanks >>= fun _ => B) s := by
  intro log
  obtain ⟨b, y, he, hb, hy, hg⟩ := blanks_split s
  have hr := h b.length (by rwa [State.rest_moved_of_append he]) log
  rw [bind_of_some (hg log)]
  exact hr.mono fun i hi => hi.prepend (a := ()) he hb

theorem Wants.of_solid (hs : Solid s.rest) (h : r.Wants B s) :
    (blanks >>= fun _ => r).Wants B s := by
  intro log
  rw [bind_of_some (gives_blanks_of_solid (b := []) rfl (by simp) hs log)]
  exact h log

theorem Wants.attempt (h : r.Wants B s) : (attempt r).Wants B s := by
  intro log
  have hr := h log
  rcases hrun : r { s with failures := log } with ⟨_ | a, s'⟩ <;> rw [hrun] at hr
  · rw [attempt_of_none hrun]
    exact hr
  · rw [attempt_of_some hrun]
    exact hr

theorem Wants.nested (hd : s.depth < s.limit) (h : r.Wants B s.deeper) :
    (nested r).Wants B s := by
  intro log
  rw [nested_of_lt (s := { s with failures := log }) hd]
  exact h log

theorem wants_nested (h : s.limit ≤ s.depth) : (nested r).Wants (pure ()) s := by
  intro log
  rw [nested_of_le (s := { s with failures := log }) h]
  exact confined_record fun _ => ⟨[], s.rest, rfl, ⟨rfl, rfl⟩, rfl⟩

theorem Wants.of_stumbles {k : Nat} (h : r.Wants B s) (hk : r.Stumbles s k) :
    s.Behind B (s.cursor + k) := by
  obtain ⟨notes, hg, hblames⟩ := hk
  obtain ⟨hat, hexpected⟩ := hblames.log
  have hr := h {}
  rw [hg {}] at hr
  rcases hr hexpected with ⟨hnever, -⟩ | hbehind
  · exact absurd hnever List.not_mem_nil
  · rwa [hat] at hbehind

theorem Wants.orElse {o : Outcome α} (h : r.Wants B s) (hg : r.Gives s o)
    (hback : o.found = none → o.stop = s.cursor) (h' : r'.Wants B s) :
    (Rule.orElse r r').Wants B s := by
  intro log
  obtain ⟨_ | a, j, notes⟩ := o
  · have hr := h log
    obtain rfl : j = s.cursor := hback rfl
    rw [orElse_of_none (hg log)]
    rw [hg log] at hr
    exact hr.trans (h' _)
  · have hr := h log
    rw [orElse_of_some (hg log)]
    rw [hg log] at hr
    exact hr

theorem Wants.orElse_mild (h : r.Wants B s) (h' : r'.Mild) : (Rule.orElse r r').Wants B s := by
  intro log
  have hr := h log
  rcases hrun : r { s with failures := log } with ⟨_ | a, s'⟩ <;> rw [hrun] at hr
  · rw [orElse_of_none hrun]
    exact hr.trans ((h' s' s.limit).mono fun _ => False.elim)
  · rw [orElse_of_some hrun]
    exact hr

theorem Wants.optional_bind {f : Option α → Rule β} (h : r.Wants B s) (ht : r.Tries P K L s)
    (hnone : (f none).Mild)
    (hsome : ∀ w y a, s.rest = w ++ y → L w a → (f (some a)).Wants C (s.moved w.length)) :
    (optional r >>= f).Wants (Phrase.either B (L >>= fun _ => C)) s := by
  intro log
  obtain ⟨⟨found, j, notes⟩, hg, -, hread⟩ := ht
  have hr := h log
  rw [hg log] at hr
  rw [bind_of_some (hg.optional log)]
  cases found with
  | none =>
    refine (hr.mono fun _ hi => hi.mono fun _ => .inl).trans ?_
    exact (hnone _ s.limit).mono fun _ => False.elim
  | some a =>
    obtain ⟨w, y, he, hw, hj⟩ := hread.sound a rfl
    obtain rfl : j = s.cursor + w.length := hj
    exact confined_behind hr (hsome w y a he hw _) he hw

theorem confined_many {J : Nat → Prop} (h : ∀ j, J j → ∃ o, r.Gives { s with cursor := j } o ∧
    (∀ a, o.found = some a → J o.stop) ∧ ∀ log, Confined s.limit G log
      (r { s with cursor := j, failures := log }).2.failures) (hs : J s.cursor)
    (log : FailureLog) : Confined s.limit G log (many r { s with failures := log }).2.failures := by
  let I (t : State) : Prop := t = { s with cursor := t.cursor, failures := t.failures } ∧ J t.cursor
  apply rel_repeatedly (I := I) (R := fun t u => Confined s.limit G t.failures u.failures)
  · exact fun _ _ _ h₁ h₂ => h₁.trans h₂
  · rintro t u a ⟨ht, hj⟩ hrun
    obtain ⟨o, hg, hnext, -⟩ := h t.cursor hj
    have hrun' := hg t.failures
    rw [← ht, hrun] at hrun'
    obtain ⟨ha, rfl⟩ := Prod.mk.inj hrun'
    exact ⟨rfl, hnext a ha.symm⟩
  · rintro t ⟨ht, hj⟩
    obtain ⟨o, -, -, hr⟩ := h t.cursor hj
    have hr := hr t.failures
    rwa [← ht] at hr
  · exact ⟨rfl, hs⟩

theorem Wants.many (h : ∀ k, r.Wants B (s.moved k)) (ht : ∀ k, r.Tries P K L (s.moved k)) :
    (many r).Wants (L.star >>= fun _ => B) s := by
  intro log
  -- what the loop has passed so far is a series of words
  let J (j : Nat) : Prop := ∃ w y as, s.rest = w ++ y ∧ L.star w as ∧ j = s.cursor + w.length
  apply confined_many (J := J)
  · rintro _ ⟨w, y, as, he, hw, rfl⟩
    obtain ⟨o, hg, -, hread⟩ := ht w.length
    refine ⟨o, hg, ?_, fun log => (h w.length log).mono fun i hi => hi.prepend he hw⟩
    intro a ha
    obtain ⟨v, z, he', hv, hj⟩ := hread.sound a ha
    rw [State.rest_moved_of_append he] at he'
    subst he'
    refine ⟨w ++ v, z, as ++ [a], by rw [he, List.append_assoc],
      Phrase.star_append hw (Phrase.star_one_word hv), ?_⟩
    rw [hj, List.length_append, ← Nat.add_assoc]
    rfl
  · exact ⟨[], s.rest, [], rfl, .nil, rfl⟩

end Rule

end FuncScript

import FuncScript.Proofs.LineBreak.Text
import FuncScript.Proofs.Nonterminals

/-!
A rule run at two places that belong together, in a text and in its conversion. It finds the same,
stops at places that belong together, and notes the same there. Behind a carriage return more may
be noted, but only before something is noted further on.
-/

namespace FuncScript

open LineBreak

variable {α β γ δ : Type} {s : State}

def State.crlf (s : State) : State :=
  { s with
    text := (LineBreak.crlf s.text.toList).toArray
    cursor := shift s.text.toList s.cursor }

theorem State.rest_crlf (s : State) : s.crlf.rest = LineBreak.crlf s.rest := by
  simp [State.crlf, State.rest, drop_shift]

theorem State.size_crlf (s : State) : s.crlf.text.size = shift s.text.toList s.text.size := by
  have h := shift_length s.text.toList
  rw [Array.length_toList] at h
  rw [h]
  simp [State.crlf]

inductive Converted (x : List Char) : List Note → List Note → Prop
  | nil : Converted x [] []
  | note {notes notes' : List Note} (n : Note) (h : Converted x notes notes') :
      Converted x (n :: notes) ((shift x n.1, n.2) :: notes')
  | between {notes notes' : List Note} {k : Nat} (e : Expectation) (hk : x[k]? = some '\n')
      (hn : ∃ n ∈ notes, k < n.1) (h : Converted x notes notes') :
      Converted x notes ((shift x k + 1, e) :: notes')

theorem Converted.append {x : List Char} {notes notes' more more' : List Note}
    (h : Converted x notes notes') (h' : Converted x more more') :
    Converted x (notes ++ more) (notes' ++ more') := by
  induction h with
  | nil => exact h'
  | note n _ ih => exact .note n ih
  | between e hk hn _ ih =>
    obtain ⟨n, hn, hlt⟩ := hn
    exact .between e hk ⟨n, List.mem_append_left _ hn, hlt⟩ ih

/-- Two outcomes that belong together, for a relation between what they find. Under a condition a
failure is noted where the run began or further on. -/
structure Outcome.Twin (N : Prop) (R : α → β → Prop) (s : State) (o : Outcome α) (o' : Outcome β) :
    Prop where
  found : Option.Rel R o.found o'.found
  advanced : s.cursor ≤ o.stop
  within : o.stop ≤ s.text.size
  stop : o'.stop = shift s.text.toList o.stop
  notes : Converted s.text.toList o.notes o'.notes
  noted : N → o.found = none → ∃ n ∈ o.notes, s.cursor ≤ n.1

namespace Rule

def Twins (N : Prop) (R : α → β → Prop) (r : Rule α) (r' : Rule β) (s : State) : Prop :=
  ∃ o o', r.Gives s o ∧ r'.Gives s.crlf o' ∧ o.Twin N R s o'

variable {N : Prop} {R : α → β → Prop} {S : γ → δ → Prop} {r : Rule α} {r' : Rule β}

theorem twins_pure (hs : s.cursor ≤ s.text.size) {a : α} {b : β} (h : R a b) :
    (pure a : Rule α).Twins N R (pure b) s :=
  ⟨_, _, gives_pure a s, gives_pure b s.crlf, .some h, Nat.le_refl _, hs, rfl, .nil,
    fun _ hnone => by cases hnone⟩

theorem twins_never (hs : s.cursor ≤ s.text.size) : (never : Rule α).Twins False R never s :=
  ⟨_, _, gives_never s, gives_never s.crlf, .none, Nat.le_refl _, hs, rfl, .nil, False.elim⟩

theorem twins_fail (hs : s.cursor ≤ s.text.size) (e : Expectation) :
    (fail e : Rule α).Twins N R (fail e) s :=
  ⟨_, _, gives_fail e s, gives_fail e s.crlf, .none, Nat.le_refl _, hs, rfl, .note _ .nil,
    fun _ _ => ⟨_, List.mem_singleton_self _, Nat.le_refl _⟩⟩

theorem Twins.bind {f : α → Rule γ} {f' : β → Rule δ} (h : r.Twins N R r' s)
    (hf : ∀ a b j, R a b → s.cursor ≤ j → j ≤ s.text.size →
      (f a).Twins N S (f' b) { s with cursor := j }) : (r >>= f).Twins N S (r' >>= f') s := by
  obtain ⟨⟨found, j, notes⟩, ⟨found', j', notes'⟩, hg, hg', hfound, hle, hin, hstop, hn, hnoted⟩ := h
  dsimp only at hfound hle hin hstop hn hnoted
  subst hstop
  cases hfound with
  | none =>
    exact ⟨_, _, hg.bind_none, hg'.bind_none, .none, hle, hin, rfl, hn, fun h _ => hnoted h rfl⟩
  | @some a b hab =>
    obtain ⟨o, o', ho, ho', ht⟩ := hf a b j hab hle hin
    refine ⟨_, _, hg.bind_some ho, hg'.bind_some ho', ht.found, Nat.le_trans hle ht.advanced,
      ht.within, ht.stop, hn.append ht.notes, fun h hnone => ?_⟩
    obtain ⟨n, hmem, hcur⟩ := ht.noted h hnone
    exact ⟨n, List.mem_append_right _ hmem, Nat.le_trans hle hcur⟩

theorem Twins.attempt (h : r.Twins N R r' s) (hs : s.cursor ≤ s.text.size) :
    (attempt r).Twins N R (attempt r') s := by
  obtain ⟨⟨found, j, notes⟩, ⟨found', j', notes'⟩, hg, hg', hfound, hle, hin, hstop, hn, hnoted⟩ := h
  cases hfound with
  | none => exact ⟨_, _, hg.attempt, hg'.attempt, .none, Nat.le_refl _, hs, rfl, hn, hnoted⟩
  | some hab => exact ⟨_, _, hg.attempt, hg'.attempt, .some hab, hle, hin, hstop, hn, hnoted⟩

theorem Twins.notAhead (h : r.Twins N R r' s) (hs : s.cursor ≤ s.text.size) :
    (notAhead r).Twins False (· = ·) (notAhead r') s := by
  obtain ⟨⟨found, j, notes⟩, ⟨found', j', notes'⟩, hg, hg', hfound, -⟩ := h
  cases hfound with
  | none =>
    exact ⟨_, _, hg.notAhead, hg'.notAhead, .some rfl, Nat.le_refl _, hs, rfl, .nil, False.elim⟩
  | some =>
    exact ⟨_, _, hg.notAhead, hg'.notAhead, .none, Nat.le_refl _, hs, rfl, .nil, False.elim⟩

theorem Twins.nested (h : s.depth < s.limit → r.Twins N R r' s.deeper) (hs : s.cursor ≤ s.text.size) :
    (nested r).Twins N R (nested r') s := by
  rcases Nat.lt_or_ge s.depth s.limit with hd | hd
  · obtain ⟨o, o', hg, hg', ht⟩ := h hd
    exact ⟨o, o', hg.nested hd, Gives.nested (s := s.crlf) hd hg', ht.found, ht.advanced, ht.within,
      ht.stop, ht.notes, ht.noted⟩
  · exact ⟨_, _, gives_nested_of_le hd, gives_nested_of_le (s := s.crlf) hd, .none, Nat.le_refl _,
      hs, rfl, .note _ .nil, fun _ _ => ⟨_, List.mem_singleton_self _, Nat.le_refl _⟩⟩

theorem Gives.orElse_behind {r r' : Rule α} {j : Nat} {notes : List Note} {o : Outcome α}
    (h : r.Gives s ⟨none, j, notes⟩) (h' : r'.Gives { s with cursor := j } o) :
    (orElse r r').Gives s ⟨o.found, o.stop, notes ++ o.notes⟩ := by
  intro log
  rw [orElse_of_none (h log), FailureLog.noteAll_append]
  exact h' (log.noteAll notes)

theorem Twins.orElse {N' : Prop} {p : Rule α} {p' : Rule β} (h : r.Twins N' R r' s)
    (h' : ∀ j, s.cursor ≤ j → j ≤ s.text.size → p.Twins N R p' { s with cursor := j }) :
    (orElse r p).Twins N R (orElse r' p') s := by
  obtain ⟨⟨found, j, notes⟩, ⟨found', j', notes'⟩, hg, hg', hfound, hle, hin, hstop, hn, -⟩ := h
  dsimp only at hfound hle hin hstop hn
  subst hstop
  cases hfound with
  | none =>
    obtain ⟨o, o', ho, ho', ht⟩ := h' j hle hin
    refine ⟨_, _, hg.orElse_behind ho, hg'.orElse_behind ho', ht.found, Nat.le_trans hle ht.advanced,
      ht.within, ht.stop, hn.append ht.notes, fun h hnone => ?_⟩
    obtain ⟨n, hmem, hcur⟩ := ht.noted h hnone
    exact ⟨n, List.mem_append_right _ hmem, Nat.le_trans hle hcur⟩
  | some hab =>
    exact ⟨_, _, hg.orElse_some, hg'.orElse_some, .some hab, hle, hin, rfl, hn,
      fun _ hnone => by cases hnone⟩

theorem Twins.optional {N' : Prop} (h : r.Twins N' (· = ·) r s) :
    (optional r).Twins N (· = ·) (optional r) s := by
  obtain ⟨⟨found, j, notes⟩, ⟨found', j', notes'⟩, hg, hg', hfound, hle, hin, hstop, hn, -⟩ := h
  refine ⟨_, _, hg.optional, hg'.optional, .some ?_, hle, hin, hstop, hn,
    fun _ hnone => by cases hnone⟩
  cases hfound with
  | none => rfl
  | some h => exact congrArg some h

theorem twins_blanks (hs : s.cursor ≤ s.text.size) : blanks.Twins N (· = ·) blanks s := by
  have htake : s.rest.take (s.rest.takeWhile CharClass.whitespace.contains).length =
      s.rest.takeWhile CharClass.whitespace.contains :=
    List.prefix_iff_eq_take.mp (List.takeWhile_prefix _) |>.symm
  have hlen := (List.takeWhile_prefix CharClass.whitespace.contains (l := s.rest)).length_le
  rw [State.length_rest, State.left] at hlen
  refine ⟨_, _, gives_blanks s, gives_blanks s.crlf, .some rfl, Nat.le_add_right _ _, ?_, ?_, .nil,
    fun _ hnone => by cases hnone⟩
  · dsimp only
    omega
  · rw [State.rest_crlf, takeWhile_crlf]
    dsimp only
    rw [shift_add]
    change _ = _ + (LineBreak.crlf (s.rest.take _)).length
    rw [htake]
    rfl

theorem shift_of_rest {c : Char} {t : List Char} (hr : s.rest = c :: t) (hc : c ≠ '\n') :
    shift s.text.toList (s.cursor + 1) = shift s.text.toList s.cursor + 1 := by
  have hget : s.text.toList[s.cursor]? = some c := by
    rw [← List.head?_drop]
    exact congrArg List.head? hr
  rw [shift_succ hget, if_neg hc]

theorem twins_terminal {accepts : Char → Bool} (h : ∀ c ∈ Plan.breaks, accepts c = false)
    (e : Expectation) (hs : s.cursor ≤ s.text.size) :
    (terminal accepts e).Twins N (· = ·) (terminal accepts e) s := by
  have hrest := s.rest_crlf
  have hfeed : accepts '\n' = false := h _ (by decide)
  have hreturn : accepts '\r' = false := h _ (by decide)
  by_cases ha : ∃ c t, s.rest = c :: t ∧ accepts c = true
  · obtain ⟨c, t, hr, hc⟩ := ha
    have hne : c ≠ '\n' := by
      rintro rfl
      simp [hfeed] at hc
    rw [hr, crlf_of_ne hne] at hrest
    have hlt : s.cursor < s.text.size := by
      exact State.cursor_add_le (s := s) (w := [c]) hr (by simp)
    refine ⟨_, _, gives_terminal_some hr hc, gives_terminal_some hrest hc, .some rfl,
      Nat.le_succ _, hlt, ?_, .nil, fun _ hnone => by cases hnone⟩
    exact (shift_of_rest hr hne).symm
  · have hno : ∀ c t, s.rest = c :: t → accepts c = false := by
      intro c t hr
      cases hc : accepts c with
      | false => rfl
      | true => exact absurd ⟨c, t, hr, hc⟩ ha
    have hno' : ∀ c t, s.crlf.rest = c :: t → accepts c = false := by
      intro c t hr
      rw [hrest] at hr
      cases hx : s.rest with
      | nil => simp [hx] at hr
      | cons d u =>
        rw [hx, crlf_cons] at hr
        split at hr
        · obtain ⟨rfl, -⟩ := List.cons.inj hr
          exact hreturn
        · obtain ⟨rfl, -⟩ := List.cons.inj hr
          exact hno _ u hx
    exact ⟨_, _, gives_terminal_none hno, gives_terminal_none hno', .none, Nat.le_refl _, hs, rfl,
      .note _ .nil, fun _ _ => ⟨_, List.mem_singleton_self _, Nat.le_refl _⟩⟩

theorem Twins.many {N' : Prop} (h : ∀ s : State, s.cursor ≤ s.text.size → r.Twins N' (· = ·) r s)
    (hm : ∀ (s : State) (o : Outcome α) (a : α), s.cursor ≤ s.text.size → r.Gives s o →
      o.found = some a → s.cursor < o.stop) (hs : s.cursor ≤ s.text.size) :
    (many r).Twins N (· = ·) (many r) s := by
  suffices hloop : ∃ as k notes notes', Loop r s as k notes ∧
      Loop r s.crlf as (shift s.text.toList k) notes' ∧ s.cursor ≤ k ∧ k ≤ s.text.size ∧
      Converted s.text.toList notes notes' by
    obtain ⟨as, k, notes, notes', hl, hl', hle, hin, hn⟩ := hloop
    exact ⟨_, _, hl.gives, hl'.gives, .some rfl, hle, hin, rfl, hn, fun _ hnone => by cases hnone⟩
  induction hn : s.left using Nat.strongRecOn generalizing s with
  | ind n ih =>
    obtain ⟨⟨found, j, notes⟩, ⟨found', j', notes'⟩, hg, hg', hfound, hle, hin, hstop, hconv, -⟩ :=
      h s hs
    dsimp only at hfound hle hin hstop hconv
    subst hstop
    cases hfound with
    | none => exact ⟨[], j, notes, notes', .stop hg, .stop hg', hle, hin, hconv⟩
    | @some a b hab =>
      subst hab
      have hlt : s.cursor < j := hm s _ a hs hg rfl
      have hleft : State.left { s with cursor := j } < n := by
        simp only [State.left] at hn ⊢
        omega
      obtain ⟨as, k, more, more', hl, hl', hle', hin', hmore⟩ := ih _ hleft hin rfl
      refine ⟨a :: as, k, _, _, .step hg hlt hin hl, .step hg' (shift_lt hlt hin) ?_ hl',
        Nat.le_trans hle hle', hin', hconv.append hmore⟩
      rw [State.size_crlf]
      exact shift_le hin

end Rule

theorem Plan.twins (p : Plan α) : p.Avoids breaks (fun _ => False) → ∀ s : State,
    s.cursor ≤ s.text.size → p.rule.Twins False (· = ·) p.rule s := by
  induction p with
  | pure a => exact fun _ s hs => Rule.twins_pure hs rfl
  | bind p f ihp ihf =>
    intro h s hs
    apply (ihp h.1 s hs).bind
    rintro a b j rfl hle hin
    exact ihf a (h.2 a) _ hin
  | fail e => exact fun _ s hs => Rule.twins_fail hs e
  | never => exact fun _ s hs => Rule.twins_never hs
  | terminal accepts e => exact fun h s hs => Rule.twins_terminal h e hs
  | blanks => exact fun _ s hs => Rule.twins_blanks hs
  | cursor => exact fun h => nomatch h
  | slice => exact fun h => h.elim
  | attempt p ih => exact fun h s hs => (ih h s hs).attempt hs
  | notAhead p ih => exact fun h s hs => (ih h s hs).notAhead hs
  | nested p ih => exact fun h s hs => Rule.Twins.nested (fun _ => ih h s.deeper hs) hs
  | orElse p q ihp ihq =>
    exact fun h s hs => (ihp h.1 s hs).orElse fun j _ hin => ihq h.2 _ hin
  | optional p ih => exact fun h s hs => (ih h s hs).optional
  | many p ih =>
    intro h s hs
    apply Rule.Twins.many (ih h.1) _ hs
    intro s o a hs hg hfound
    have hrun := hg s.failures
    have hlt := p.lt_of_moves h.2 s a hs
    change p.rule s = _ at hrun
    rw [hrun] at hlt
    exact hlt hfound
  | levels f ih =>
    intro h s hs
    obtain ⟨o, o', hg, hg', ht⟩ := ih _ (h (s.limit - s.depth)) s hs
    exact ⟨o, o', hg, hg', ht⟩

end FuncScript

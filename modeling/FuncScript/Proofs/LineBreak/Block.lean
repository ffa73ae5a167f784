import FuncScript.Proofs.LineBreak.Rule

/-!
Blocks at two places that belong together. The body is run through one character at a time, so that
a line break takes one more step in the converted text, before the letter that both parts of it are
not is looked for once more.
-/

namespace FuncScript

open LineBreak

variable {α β γ δ : Type} {s t : State} {x y : List Char} {c : Char}

theorem Keyword.startsAt_crlf (k : Keyword) (x : List Char) :
    k.startsAt (crlf x) = k.startsAt x := by
  have hgo : ∀ (us x : List Char), (∀ u ∈ us, (CharClass.letter u).Misses Plan.breaks) →
      Keyword.startsAt.go us (crlf x) = Keyword.startsAt.go us x := by
    intro us
    induction us with
    | nil =>
      intro x _
      cases x <;> simp [Keyword.startsAt.go]
    | cons u us ih =>
      intro x h
      obtain ⟨hu, hus⟩ := List.forall_mem_cons.mp h
      cases x with
      | nil => rfl
      | cons c x =>
        by_cases hc : c = '\n'
        · subst hc
          simp [Keyword.startsAt.go, hu '\n' (by decide), hu '\r' (by decide)]
        · rw [crlf_of_ne hc, Keyword.startsAt.go, Keyword.startsAt.go, ih x hus]
  exact hgo k.letters x (Plan.misses_breaks k)

theorem LineBreak.shift_of_feed {t : List Char} (hr : s.rest = '\n' :: t) :
    s.text.toList[s.cursor]? = some '\n' ∧
      shift s.text.toList (s.cursor + 1) = shift s.text.toList s.cursor + 2 := by
  have hget : s.text.toList[s.cursor]? = some '\n' := by
    rw [← List.head?_drop]
    exact congrArg List.head? hr
  exact ⟨hget, by rw [shift_succ hget, if_pos rfl]⟩

structure Span.Twin (x : List Char) (a b : Span) : Prop where
  le : a.start ≤ a.stop
  within : a.stop ≤ x.length
  start : b.start = shift x a.start
  stop : b.stop = shift x a.stop

namespace Rule

variable {N : Prop} {R : α → β → Prop} {S : γ → δ → Prop} {r : Rule α} {r' : Rule β}

theorem twins_letters : ∀ (cs : List Char) (s : State), s.cursor ≤ s.text.size →
    (∀ c ∈ cs, (CharClass.letter c).Misses Plan.breaks) →
      (letters cs).Twins N (· = ·) (letters cs) s
  | [], _, hs, _ => twins_pure hs rfl
  | _ :: cs, _, hs, h => by
    obtain ⟨hc, hcs⟩ := List.forall_mem_cons.mp h
    apply (twins_terminal hc _ hs).bind
    rintro _ _ j rfl _ hin
    exact twins_letters cs _ hin hcs

theorem twins_keyword (k : Keyword) (hs : s.cursor ≤ s.text.size) :
    (keyword k).Twins N (· = ·) (keyword k) s :=
  (twins_letters k.letters s hs (Plan.misses_breaks k)).attempt hs

theorem Twins.map (h : r.Twins N R r' s) (g : α → γ) (g' : β → δ)
    (hg : ∀ a b, R a b → S (g a) (g' b)) :
    (r >>= fun a => pure (g a)).Twins N S (r' >>= fun b => pure (g' b)) s := by
  apply h.bind
  intro a b j hab _ hin
  exact twins_pure hin (hg a b hab)

theorem gives_blockAround_of_feed (r : Rule Span) (h : s.rest = '\n' :: x) :
    ∃ e, (blockAround r).Gives s ⟨none, s.cursor, [(s.cursor, e)]⟩ := by
  rcases Nat.lt_or_ge s.depth s.limit with hd | hd
  · have hletter : (oneOf (CharClass.letter 'B')).Gives s.deeper
        ⟨none, s.cursor, [(s.cursor, .oneOf (CharClass.letter 'B'))]⟩ := by
      apply gives_terminal_none (s := s.deeper)
      intro c t hr
      obtain ⟨rfl, -⟩ := List.cons.inj (h.symm.trans hr)
      decide
    have hletters : (letters Keyword.blockBegin.letters).Gives s.deeper
        ⟨none, s.cursor, [(s.cursor, .oneOf (CharClass.letter 'B'))]⟩ := by
      rw [show Keyword.blockBegin.letters = 'B' :: ['E', 'G', 'I', 'N'] from rfl]
      exact hletter.bind_none
    exact ⟨_, Gives.nested hd (Gives.attempt (Gives.bind_none hletters.attempt))⟩
  · exact ⟨_, gives_nested_of_le hd⟩

theorem not_startsAt_feed (k : Keyword) (x : List Char) : k.startsAt ('\n' :: x) = false := by
  cases k <;> rfl

section

variable {inner : Rule Span}

/-- The body is run through alike, and something is noted in it, at the latest where it ends. -/
def BodyTwins (inner : Rule Span) (s : State) : Prop :=
  ∃ as bs k notes notes', Loop (bodyStep inner) s as k notes ∧
    Loop (bodyStep inner) s.crlf bs (shift s.text.toList k) notes' ∧ s.cursor ≤ k ∧
    k ≤ s.text.size ∧ Converted s.text.toList notes notes' ∧ ∃ n ∈ notes, s.cursor ≤ n.1

theorem BodyTwins.step {a b : Unit} {j : Nat} {notes notes' : List Note}
    (h : BodyTwins inner { s with cursor := j })
    (hg : (bodyStep inner).Gives s ⟨some a, j, notes⟩)
    (hg' : (bodyStep inner).Gives s.crlf ⟨some b, shift s.text.toList j, notes'⟩)
    (hlt : s.cursor < j) (hin : j ≤ s.text.size) (hn : Converted s.text.toList notes notes') :
    BodyTwins inner s := by
  obtain ⟨as, bs, k, more, more', hl, hl', hle, hin', hmore, n, hmem, hcur⟩ := h
  refine ⟨a :: as, b :: bs, k, _, _, .step hg hlt hin hl, .step hg' (shift_lt hlt hin) ?_ hl', ?_,
    hin', hn.append hmore, n, List.mem_append_right _ hmem, ?_⟩
  · rw [State.size_crlf]
    exact shift_le hin
  · exact Nat.le_trans (Nat.le_of_lt hlt) hle
  · exact Nat.le_trans (Nat.le_of_lt hlt) hcur

theorem BodyTwins.step_feed {notes notes' : List Note} (hr : s.rest = '\n' :: x)
    (h : BodyTwins inner { s with cursor := s.cursor + 1 })
    (hg : inner.Gives s ⟨none, s.cursor, notes⟩)
    (hg' : inner.Gives s.crlf ⟨none, s.crlf.cursor, notes'⟩)
    (hfeed : ∀ (s : State) (x : List Char), s.rest = '\n' :: x →
      ∃ e, inner.Gives s ⟨none, s.cursor, [(s.cursor, e)]⟩)
    (hn : Converted s.text.toList notes notes') : BodyTwins inner s := by
  obtain ⟨as, bs, k, more, more', hl, hl', hle, hin, hmore, n, hmem, hcur⟩ := h
  dsimp only at hle hin hcur
  obtain ⟨hget, hshift⟩ := shift_of_feed hr
  have hlt : s.cursor + 1 ≤ s.text.size := State.cursor_add_le (w := ['\n']) hr (by simp)
  have hsize : s.crlf.cursor + 2 ≤ s.crlf.text.size := by
    rw [State.size_crlf]
    exact hshift ▸ shift_le hlt
  have hr' : s.crlf.rest = '\r' :: '\n' :: crlf x := by rw [State.rest_crlf, hr, crlf_feed]
  have hword : ∀ k : Keyword, k.startsAt s.crlf.rest = false := by
    intro k
    rw [State.rest_crlf, Keyword.startsAt_crlf, hr, not_startsAt_feed]
  -- Between the two parts of the line break the rule fails once more, and that is noted there.
  have hmid : (s.crlf.moved 1).rest = '\n' :: crlf x := State.rest_moved_of_append (w := ['\r']) hr'
  have hword' : ∀ k : Keyword, k.startsAt (s.crlf.moved 1).rest = false := by
    intro k
    rw [hmid, not_startsAt_feed]
  obtain ⟨e, he⟩ := hfeed _ _ hmid
  have hstep : (bodyStep inner).Gives s ⟨some (), s.cursor + 1, notes⟩ := by
    apply gives_bodyStep_char (gives_map hg) hr <;> rw [hr, not_startsAt_feed]
  have hreturn := gives_bodyStep_char (gives_map hg') hr' (hword _) (hword _)
  have hlf := gives_bodyStep_char (gives_map he) hmid (hword' _) (hword' _)
  have htail : Loop (bodyStep inner) (s.crlf.moved 1) (() :: bs) (shift s.text.toList k)
      ((s.crlf.cursor + 1, e) :: more') := by
    have hnext : State.crlf { s with cursor := s.cursor + 1 } =
        { s.crlf.moved 1 with cursor := (s.crlf.moved 1).cursor + 1 } := by
      simp only [State.crlf, State.moved, hshift]
    rw [hnext] at hl'
    exact .step hlf (Nat.lt_succ_self _) hsize hl'
  refine ⟨() :: as, () :: () :: bs, k, _, _, .step hstep (Nat.lt_succ_self _) hlt hl,
    .step hreturn (Nat.lt_succ_self _) (by omega) htail, by omega, hin,
    hn.append (.between e hget ⟨n, hmem, hcur⟩ hmore), n, List.mem_append_right _ hmem, by omega⟩

theorem BodyTwins.step_char {c : Char} {notes notes' : List Note} (hr : s.rest = c :: x)
    (hc : c ≠ '\n') (h : BodyTwins inner { s with cursor := s.cursor + 1 })
    (hg : inner.Gives s ⟨none, s.cursor, notes⟩)
    (hg' : inner.Gives s.crlf ⟨none, s.crlf.cursor, notes'⟩)
    (hb : Keyword.blockBegin.startsAt s.rest = false) (he : Keyword.blockEnd.startsAt s.rest = false)
    (hn : Converted s.text.toList notes notes') : BodyTwins inner s := by
  have hlt : s.cursor + 1 ≤ s.text.size := State.cursor_add_le (w := [c]) hr (by simp)
  have hr' : s.crlf.rest = c :: crlf x := by rw [State.rest_crlf, hr, crlf_of_ne hc]
  have hstep' : (bodyStep inner).Gives s.crlf
      ⟨some (), shift s.text.toList (s.cursor + 1), notes'⟩ := by
    rw [shift_of_rest hr hc]
    apply gives_bodyStep_char (s := s.crlf) (gives_map hg') hr'
    · rwa [State.rest_crlf, Keyword.startsAt_crlf]
    · rwa [State.rest_crlf, Keyword.startsAt_crlf]
  exact h.step (gives_bodyStep_char (gives_map hg) hr hb he) hstep' (Nat.lt_succ_self _) hlt hn

theorem bodyTwins_of_fence {notes notes' : List Note} (hs : s.cursor ≤ s.text.size)
    (hfence : Keyword.blockBegin.startsAt s.rest = true ∨ Keyword.blockEnd.startsAt s.rest = true)
    (hg : inner.Gives s ⟨none, s.cursor, notes⟩)
    (hg' : inner.Gives s.crlf ⟨none, s.crlf.cursor, notes'⟩)
    (hn : Converted s.text.toList notes notes') (hnoted : ∃ n ∈ notes, s.cursor ≤ n.1) :
    BodyTwins inner s := by
  have hfence' : Keyword.blockBegin.startsAt s.crlf.rest = true ∨
      Keyword.blockEnd.startsAt s.crlf.rest = true := by
    rwa [State.rest_crlf, Keyword.startsAt_crlf, Keyword.startsAt_crlf]
  exact ⟨[], [], s.cursor, notes, notes', .stop (gives_bodyStep_fence (gives_map hg) hfence),
    .stop (gives_bodyStep_fence (s := s.crlf) (gives_map hg') hfence'), Nat.le_refl _, hs, hn, hnoted⟩

theorem bodyTwins_of_end {notes notes' : List Note} (hs : s.cursor ≤ s.text.size)
    (hr : s.rest = []) (hg : inner.Gives s ⟨none, s.cursor, notes⟩)
    (hg' : inner.Gives s.crlf ⟨none, s.crlf.cursor, notes'⟩)
    (hn : Converted s.text.toList notes notes') (hnoted : ∃ n ∈ notes, s.cursor ≤ n.1) :
    BodyTwins inner s := by
  have hr' : s.crlf.rest = [] := by rw [State.rest_crlf, hr, crlf_nil]
  obtain ⟨n, hmem, hcur⟩ := hnoted
  exact ⟨[], [], s.cursor, _, _, .stop (gives_bodyStep_end (gives_map hg) hr),
    .stop (gives_bodyStep_end (s := s.crlf) (gives_map hg') hr'), Nat.le_refl _, hs,
    hn.append (.note _ .nil), n, List.mem_append_left _ hmem, hcur⟩

theorem bodyTwins_of_inner
    (hfeed : ∀ (s : State) (x : List Char), s.rest = '\n' :: x →
      ∃ e, inner.Gives s ⟨none, s.cursor, [(s.cursor, e)]⟩)
    (hends : ∀ (s : State) (o : Outcome Span), s.cursor ≤ s.text.size → inner.Gives s o →
      if o.found.isSome then s.cursor < o.stop else o.stop = s.cursor)
    (hinner : ∀ j, j ≤ s.text.size →
      inner.Twins True (Span.Twin s.text.toList) inner { s with cursor := j })
    (hs : s.cursor ≤ s.text.size) : BodyTwins inner s := by
  induction hn : s.left using Nat.strongRecOn generalizing s with
  | ind n ih =>
    -- On what is left of the text: a block inside takes many characters at once.
    have hbehind : ∀ j, s.cursor < j → j ≤ s.text.size → BodyTwins inner { s with cursor := j } := by
      intro j hj hin
      refine ih _ ?_ hinner hin rfl
      simp only [State.left] at hn ⊢
      omega
    obtain ⟨⟨found, j, notes⟩, ⟨found', j', notes'⟩, hg, hg', hfound, hle, hin, hstop, hconv, hnoted⟩ :=
      hinner s.cursor hs
    dsimp only at hfound hle hin hstop hconv hnoted
    have hend := hends s _ hs hg
    subst hstop
    cases hfound with
    | some =>
      exact (hbehind j hend hin).step (gives_map hg).orElse_some (gives_map hg').orElse_some hend hin
        hconv
    | none =>
      obtain rfl : j = s.cursor := hend
      have hnoted := hnoted trivial rfl
      by_cases hfence : Keyword.blockBegin.startsAt s.rest = true ∨
          Keyword.blockEnd.startsAt s.rest = true
      · exact bodyTwins_of_fence hs hfence hg hg' hconv hnoted
      obtain ⟨hb, he⟩ := not_or.mp hfence
      rw [Bool.not_eq_true] at hb he
      cases hr : s.rest with
      | nil => exact bodyTwins_of_end hs hr hg hg' hconv hnoted
      | cons c x =>
        have hlt : s.cursor + 1 ≤ s.text.size := State.cursor_add_le (w := [c]) hr (by simp)
        have hnext := hbehind (s.cursor + 1) (Nat.lt_succ_self _) hlt
        by_cases hc : c = '\n'
        · subst hc
          exact hnext.step_feed hr hg hg' hfeed hconv
        · exact hnext.step_char hr hc hg hg' hb he hconv

theorem twins_bodyOf (h : BodyTwins inner s) :
    (bodyOf inner).Twins True (Span.Twin s.text.toList) (bodyOf inner) s := by
  obtain ⟨as, bs, k, notes, notes', hl, hl', hle, hin, hn, n, hmem, hcur⟩ := h
  have hspan : Span.Twin s.text.toList ⟨s.cursor, k⟩
      ⟨shift s.text.toList s.cursor, shift s.text.toList k⟩ := ⟨hle, hin, rfl, rfl⟩
  obtain ⟨o, o', ho, ho', ht⟩ := (twins_keyword (N := False) (s := { s with cursor := k }) .blockEnd
    hin).map (S := Span.Twin s.text.toList) (fun _ => _) (fun _ => _) fun _ _ _ => hspan
  have hg : (bodyOf inner).Gives s ⟨o.found, o.stop, notes ++ o.notes⟩ :=
    Gives.from_cursor (hl.gives.bind_some (Gives.from_cursor ho))
  have hg' : (bodyOf inner).Gives s.crlf ⟨o'.found, o'.stop, notes' ++ o'.notes⟩ :=
    Gives.from_cursor (hl'.gives.bind_some (Gives.from_cursor ho'))
  exact ⟨_, _, hg, hg', ht.found, Nat.le_trans hle ht.advanced, ht.within, ht.stop,
    hn.append ht.notes, fun _ _ => ⟨n, List.mem_append_left _ hmem, hcur⟩⟩

theorem twins_blockAround (hs : s.cursor ≤ s.text.size)
    (hbody : s.depth < s.limit → ∀ j, j ≤ s.text.size →
      BodyTwins inner { s.deeper with cursor := j }) :
    (blockAround inner).Twins True (Span.Twin s.text.toList) (blockAround inner) s := by
  rw [blockAround_eq]
  apply Twins.nested (fun hd => ?_) hs
  have hwhole := (twins_keyword (N := True) (s := s.deeper) .blockBegin hs).bind
    (S := Span.Twin s.text.toList) fun _ _ start _ _ hin => twins_bodyOf (hbody hd start hin)
  exact hwhole.attempt hs

end

end Rule

theorem Plan.ends_of_gives {p : Plan α} {o : Outcome α} (hr : p.Restores) (hm : p.Moves)
    (hs : s.cursor ≤ s.text.size) (hg : p.rule.Gives s o) :
    if o.found.isSome then s.cursor < o.stop else o.stop = s.cursor := by
  have hrun : p.rule s = _ := hg s.failures
  have hlt := p.lt_of_moves hm s
  have hback := p.cursor_of_restores hr s
  rw [hrun] at hlt hback
  cases hf : o.found with
  | none => exact hback hf
  | some a => exact hlt a hs hf

theorem Plan.twins_blockWithin : ∀ (n : Nat) (s : State), s.limit - s.depth = n →
    s.cursor ≤ s.text.size →
      (blockWithin n).rule.Twins True (Span.Twin s.text.toList) (blockWithin n).rule s
  | 0, s, hn, hs => by
    rw [rule_blockWithin]
    exact Rule.twins_blockAround hs fun hd => absurd hd (by omega)
  | n + 1, s, hn, hs => by
    have hround : (blockWithin (n + 1)).rule = Rule.blockAround (blockWithin n).rule := by
      rw [rule_blockWithin, rule_blockWithin]
      rfl
    rw [hround]
    apply Rule.twins_blockAround hs
    intro hd j hj
    apply Rule.bodyTwins_of_inner _ _ _ hj
    · intro t x ht
      rw [rule_blockWithin]
      cases n with
      | zero => exact Rule.gives_blockAround_of_feed _ ht
      | succ n => exact Rule.gives_blockAround_of_feed _ ht
    · intro t o ht hg
      exact ends_of_gives (restores_block n) (moves_block n) ht hg
    · intro k hk
      exact Plan.twins_blockWithin n { s.deeper with cursor := k } (by simp [State.deeper]; omega) hk

end FuncScript

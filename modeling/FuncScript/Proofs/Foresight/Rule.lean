import FuncScript.Proofs.LineBreak.Rule
import FuncScript.Proofs.Nesting.Limit

/-!
What a rule does depends on no more of the text than it tells. Where nothing is noted behind the
first characters, and nothing found ends there, the rule does the same at the same place of every
text that shares those characters.
-/

namespace FuncScript

open Phrase (IsBlank)

variable {α β : Type} {s t : State} {m k : Nat} {w y : List Char}

structure State.Shares (m : Nat) (s t : State) : Prop where
  cursor : t.cursor = s.cursor
  depth : t.depth = s.depth
  limit : t.limit = s.limit
  text : t.text.toList.take m = s.text.toList.take m

namespace State.Shares

theorem put (h : s.Shares m t) (j : Nat) : Shares m { s with cursor := j } { t with cursor := j } :=
  ⟨rfl, h.depth, h.limit, h.text⟩

theorem moved (h : s.Shares m t) (k : Nat) : (s.moved k).Shares m (t.moved k) :=
  ⟨congrArg (· + k) h.cursor, h.depth, h.limit, h.text⟩

theorem deeper (h : s.Shares m t) : s.deeper.Shares m t.deeper :=
  ⟨h.cursor, congrArg (· + 1) h.depth, h.limit, h.text⟩

theorem mono (h : s.Shares m t) (hk : k ≤ m) : s.Shares k t := by
  refine ⟨h.cursor, h.depth, h.limit, ?_⟩
  have htake := congrArg (List.take k) h.text
  rwa [List.take_take, List.take_take, Nat.min_eq_left hk] at htake

theorem levels (h : s.Shares m t) : t.limit - t.depth = s.limit - s.depth := by
  rw [h.limit, h.depth]

theorem le_size (h : s.Shares m t) (hk : k ≤ m) (hs : k ≤ s.text.size) : k ≤ t.text.size := by
  have hlen := congrArg List.length h.text
  simp only [List.length_take, Array.length_toList] at hlen
  omega

theorem getElem? (h : s.Shares m t) (hk : k < m) : t.text[k]? = s.text[k]? := by
  have hget := congrArg (·[k]?) h.text
  simpa only [List.getElem?_take_of_lt hk, Array.getElem?_toList] using hget

theorem peek (h : s.Shares m t) (hm : s.cursor < m) : t.peek = s.peek := by
  rw [State.peek, h.cursor]
  exact h.getElem? hm

theorem rest (h : s.Shares m t) (he : s.rest = w ++ y) (hm : s.cursor + w.length ≤ m) :
    t.rest = w ++ (t.moved w.length).rest := by
  have htake : t.rest.take w.length = w := by
    have hs : s.rest.take w.length = w := by rw [he, List.take_left]
    have hcut := congrArg (List.drop s.cursor) (h.mono hm).text
    rw [List.drop_take, List.drop_take, Nat.add_sub_cancel_left] at hcut
    rw [State.rest, h.cursor]
    exact hcut.trans hs
  rw [State.rest_moved]
  conv => lhs; rw [← List.take_append_drop w.length t.rest, htake]

theorem solid (h : s.Shares m t) (hm : s.cursor < m) (hs : Solid s.rest) : Solid t.rest := by
  intro c u hr
  have hpeek := State.peek_of_rest hr
  rw [h.peek hm, ← State.head?_rest] at hpeek
  obtain ⟨v, hv⟩ := List.head?_eq_some_iff.mp hpeek
  exact hs c v hv

end State.Shares

def Outcome.Overruns (m : Nat) (o : Outcome α) : Prop :=
  (∃ n ∈ o.notes, m ≤ n.1) ∨ (o.found.isSome = true ∧ m ≤ o.stop)

namespace Rule

variable {r r' : Rule α} {f : α → Rule β} {N N' : Prop} {o : Outcome α}

def Settles (m : Nat) (r : Rule α) (s : State) (o : Outcome α) : Prop :=
  ∀ t, s.Shares m t → r.Gives t o

/-- An outcome that tells how far the text was looked at. Under a condition a failure is noted where
the run began or further on. -/
structure Candid (N : Prop) (m : Nat) (r : Rule α) (s : State) (o : Outcome α) : Prop where
  gives : r.Gives s o
  advanced : s.cursor ≤ o.stop
  within : o.stop ≤ s.text.size
  noted : N → o.found = none → ∃ n ∈ o.notes, s.cursor ≤ n.1
  settled : o.Overruns m ∨ r.Settles m s o

theorem Candid.weaken (h : r.Candid N m s o) (hN : N' → N) : r.Candid N' m s o :=
  ⟨h.gives, h.advanced, h.within, fun hn => h.noted (hN hn), h.settled⟩

theorem Candid.settled_none {j : Nat} {notes : List Note} (h : r.Candid N m s ⟨none, j, notes⟩) :
    (∃ n ∈ notes, m ≤ n.1) ∨ r.Settles m s ⟨none, j, notes⟩ := by
  rcases h.settled with (hover | ⟨hsome, _⟩) | hset
  · exact .inl hover
  · cases hsome
  · exact .inr hset

theorem candid_pure (hs : s.cursor ≤ s.text.size) (a : α) :
    (pure a : Rule α).Candid N m s ⟨some a, s.cursor, []⟩ := by
  refine ⟨gives_pure a s, Nat.le_refl _, hs, by simp, .inr ?_⟩
  intro t ht
  rw [← ht.cursor]
  exact gives_pure a t

theorem candid_fail (hs : s.cursor ≤ s.text.size) (e : Expectation) :
    (fail e : Rule α).Candid N m s ⟨none, s.cursor, [(s.cursor, e)]⟩ := by
  refine ⟨gives_fail e s, Nat.le_refl _, hs,
    fun _ _ => ⟨_, List.mem_singleton_self _, Nat.le_refl _⟩, .inr ?_⟩
  intro t ht
  rw [← ht.cursor]
  exact gives_fail e t

theorem candid_never (hs : s.cursor ≤ s.text.size) :
    (never : Rule α).Candid False m s ⟨none, s.cursor, []⟩ := by
  refine ⟨gives_never s, Nat.le_refl _, hs, False.elim, .inr ?_⟩
  intro t ht
  rw [← ht.cursor]
  exact gives_never t

theorem candid_cursor (hs : s.cursor ≤ s.text.size) :
    cursor.Candid N m s ⟨some s.cursor, s.cursor, []⟩ := by
  refine ⟨gives_cursor s, Nat.le_refl _, hs, by simp, .inr ?_⟩
  intro t ht
  rw [← ht.cursor]
  exact gives_cursor t

theorem candid_slice (hs : s.cursor ≤ s.text.size) {span : Span} (h : span.stop ≤ s.cursor) :
    ∃ o, (slice span).Candid N m s o := by
  refine ⟨_, gives_slice span s, Nat.le_refl _, hs, by simp, ?_⟩
  rcases Nat.lt_or_ge s.cursor m with hm | hm
  · right
    intro t ht
    have hcut : t.text.extract span.start span.stop = s.text.extract span.start span.stop := by
      apply Array.toList_inj.mp
      have htext := (ht.mono (k := span.stop) (by omega)).text
      rw [Array.toList_extract, Array.toList_extract, List.extract_eq_drop_take',
        List.extract_eq_drop_take', htext]
    rw [← hcut, ← ht.cursor]
    exact gives_slice span t
  · exact .inl (.inr ⟨rfl, hm⟩)

theorem candid_terminal (hs : s.cursor ≤ s.text.size) (accepts : Char → Bool) (e : Expectation) :
    ∃ o, (terminal accepts e).Candid N m s o := by
  by_cases ha : ∃ c u, s.rest = c :: u ∧ accepts c = true
  · obtain ⟨c, u, hr, hc⟩ := ha
    have hlt : s.cursor + 1 ≤ s.text.size := State.cursor_add_le (w := [c]) hr (by simp)
    refine ⟨_, gives_terminal_some hr hc, Nat.le_succ _, hlt, by simp, ?_⟩
    rcases Nat.lt_or_ge s.cursor m with hm | hm
    · right
      intro t ht
      have hr' := ht.rest (w := [c]) hr hm
      rw [← ht.cursor]
      exact gives_terminal_some hr' hc
    · exact .inl (.inr ⟨rfl, Nat.le_succ_of_le hm⟩)
  · have hno : ∀ c u, s.rest = c :: u → accepts c = false := by
      intro c u hr
      apply Bool.eq_false_iff.mpr
      exact fun hc => ha ⟨c, u, hr, hc⟩
    refine ⟨_, gives_terminal_none hno, Nat.le_refl _, hs,
      fun _ _ => ⟨_, List.mem_singleton_self _, Nat.le_refl _⟩, ?_⟩
    rcases Nat.lt_or_ge s.cursor m with hm | hm
    · right
      intro t ht
      have hno' : ∀ c u, t.rest = c :: u → accepts c = false := by
        intro c u hr
        have hpeek := State.peek_of_rest hr
        rw [ht.peek hm, ← State.head?_rest] at hpeek
        obtain ⟨v, hv⟩ := List.head?_eq_some_iff.mp hpeek
        exact hno c v hv
      rw [← ht.cursor]
      exact gives_terminal_none hno'
    · exact .inl (.inl ⟨_, List.mem_singleton_self _, hm⟩)

theorem candid_blanks (hs : s.cursor ≤ s.text.size) : ∃ o, blanks.Candid N m s o := by
  obtain ⟨b, y, he, hb, hy, hg⟩ := blanks_split s
  have hlen := congrArg List.length he
  rw [State.length_rest, State.left, List.length_append] at hlen
  have hle : s.cursor + b.length ≤ s.text.size := by omega
  refine ⟨_, hg, Nat.le_add_right _ _, hle, by simp, ?_⟩
  rcases Nat.lt_or_ge (s.cursor + b.length) m with hm | hm
  · right
    intro t ht
    have hsolid : Solid (t.moved b.length).rest := by
      apply (ht.moved b.length).solid hm
      rwa [State.rest_moved_of_append he]
    rw [← ht.cursor]
    exact gives_blanks_of_solid (ht.rest he (Nat.le_of_lt hm)) hb hsolid
  · exact .inl (.inr ⟨rfl, hm⟩)

theorem Candid.bind_none {j : Nat} {notes : List Note} (h : r.Candid N m s ⟨none, j, notes⟩) :
    (r >>= f).Candid N m s ⟨none, j, notes⟩ := by
  refine ⟨h.gives.bind_none, h.advanced, h.within, fun hN _ => h.noted hN rfl, ?_⟩
  exact h.settled_none.imp .inl fun hset t ht => (hset t ht).bind_none

theorem Candid.bind_some {a : α} {j : Nat} {notes : List Note} {o : Outcome β}
    (h : r.Candid N m s ⟨some a, j, notes⟩) (h' : (f a).Candid True m { s with cursor := j } o) :
    (r >>= f).Candid N' m s ⟨o.found, o.stop, notes ++ o.notes⟩ := by
  refine ⟨h.gives.bind_some h'.gives, Nat.le_trans h.advanced h'.advanced, h'.within, ?_, ?_⟩
  · intro _ hnone
    obtain ⟨n, hn, hle⟩ := h'.noted trivial hnone
    exact ⟨n, List.mem_append_right _ hn, Nat.le_trans h.advanced hle⟩
  · rcases h.settled with (⟨n, hn, hm⟩ | ⟨_, hm⟩) | hset
    · exact .inl (.inl ⟨n, List.mem_append_left _ hn, hm⟩)
    · left
      cases hf : o.found with
      | none =>
        obtain ⟨n, hn, hle⟩ := h'.noted trivial hf
        exact .inl ⟨n, List.mem_append_right _ hn, Nat.le_trans hm hle⟩
      | some b => exact .inr ⟨rfl, Nat.le_trans hm h'.advanced⟩
    · rcases h'.settled with (⟨n, hn, hm⟩ | hfound) | hset'
      · exact .inl (.inl ⟨n, List.mem_append_right _ hn, hm⟩)
      · exact .inl (.inr hfound)
      · exact .inr fun t ht => (hset t ht).bind_some (hset' _ (ht.put j))

theorem Candid.bind (h : r.Candid N m s o) (hf : ∀ a, o.found = some a →
    ∃ o', (f a).Candid True m { s with cursor := o.stop } o') :
    ∃ o', (r >>= f).Candid N m s o' := by
  obtain ⟨found, j, notes⟩ := o
  cases found with
  | none => exact ⟨_, h.bind_none⟩
  | some a =>
    obtain ⟨o', ho'⟩ := hf a rfl
    exact ⟨_, h.bind_some ho'⟩

theorem Candid.attempt (h : r.Candid N m s o) (hs : s.cursor ≤ s.text.size) :
    (attempt r).Candid N m s { o with stop := if o.found.isSome then o.stop else s.cursor } := by
  obtain ⟨found, j, notes⟩ := o
  cases found with
  | none =>
    refine ⟨h.gives.attempt, Nat.le_refl _, hs, fun hN _ => h.noted hN rfl, ?_⟩
    refine h.settled_none.imp .inl fun hset t ht => ?_
    rw [← ht.cursor]
    exact (hset t ht).attempt
  | some a =>
    refine ⟨h.gives.attempt, h.advanced, h.within, by simp, ?_⟩
    exact h.settled.imp id fun hset t ht => (hset t ht).attempt

theorem candid_nested_of_le (hs : s.cursor ≤ s.text.size) (h : s.limit ≤ s.depth) :
    (nested r).Candid N m s ⟨none, s.cursor, [(s.cursor, tooDeep s.limit)]⟩ := by
  refine ⟨gives_nested_of_le h, Nat.le_refl _, hs,
    fun _ _ => ⟨_, List.mem_singleton_self _, Nat.le_refl _⟩, .inr ?_⟩
  intro t ht
  rw [← ht.cursor, ← ht.limit]
  apply gives_nested_of_le
  rw [ht.limit, ht.depth]
  exact h

theorem Candid.nested (hd : s.depth < s.limit) (h : r.Candid N m s.deeper o) :
    (nested r).Candid N m s o := by
  refine ⟨h.gives.nested hd, h.advanced, h.within, h.noted, ?_⟩
  refine h.settled.imp id fun hset t ht => ?_
  apply Gives.nested
  · rw [ht.limit, ht.depth]
    exact hd
  · exact hset _ ht.deeper

theorem Candid.orElse (h : r.Candid N m s o) (h' : ∀ j, s.cursor ≤ j → j ≤ s.text.size →
    ∃ o', r'.Candid N' m { s with cursor := j } o') : ∃ o', (orElse r r').Candid (N ∨ N') m s o' := by
  obtain ⟨found, j, notes⟩ := o
  cases found with
  | some a =>
    refine ⟨_, h.gives.orElse_some, h.advanced, h.within, by simp, ?_⟩
    exact h.settled.imp id fun hset t ht => (hset t ht).orElse_some
  | none =>
    obtain ⟨o', ho'⟩ := h' j h.advanced h.within
    refine ⟨_, h.gives.orElse_behind ho'.gives, Nat.le_trans h.advanced ho'.advanced, ho'.within,
      ?_, ?_⟩
    · rintro (hN | hN) hnone
      · obtain ⟨n, hn, hle⟩ := h.noted hN rfl
        exact ⟨n, List.mem_append_left _ hn, hle⟩
      · obtain ⟨n, hn, hle⟩ := ho'.noted hN hnone
        exact ⟨n, List.mem_append_right _ hn, Nat.le_trans h.advanced hle⟩
    · rcases h.settled_none with ⟨n, hn, hm⟩ | hset
      · exact .inl (.inl ⟨n, List.mem_append_left _ hn, hm⟩)
      · rcases ho'.settled with (⟨n, hn, hm⟩ | hfound) | hset'
        · exact .inl (.inl ⟨n, List.mem_append_right _ hn, hm⟩)
        · exact .inl (.inr hfound)
        · exact .inr fun t ht => (hset t ht).orElse_behind (hset' _ (ht.put j))

theorem Candid.optional (h : r.Candid N m s o) :
    (optional r).Candid N' m s ⟨some o.found, o.stop, o.notes⟩ := by
  refine ⟨h.gives.optional, h.advanced, h.within, by simp, ?_⟩
  rcases h.settled with (hover | ⟨_, hm⟩) | hset
  · exact .inl (.inl hover)
  · exact .inl (.inr ⟨rfl, hm⟩)
  · exact .inr fun t ht => (hset t ht).optional

structure Loop.Candid (m : Nat) (r : Rule α) (s : State) (as : List α) (k : Nat)
    (notes : List Note) : Prop where
  loop : Loop r s as k notes
  advanced : s.cursor ≤ k
  within : k ≤ s.text.size
  settled : (∃ n ∈ notes, m ≤ n.1) ∨ m ≤ k ∨ ∀ t, s.Shares m t → Loop r t as k notes

theorem Loop.Candid.stop {j : Nat} {notes : List Note} (h : r.Candid N m s ⟨none, j, notes⟩) :
    Loop.Candid m r s [] j notes := by
  refine ⟨.stop h.gives, h.advanced, h.within, ?_⟩
  exact h.settled_none.imp id fun hset => .inr fun t ht => .stop (hset t ht)

theorem Loop.Candid.step {a : α} {as : List α} {j : Nat} {notes more : List Note}
    (h : r.Candid N m s ⟨some a, j, notes⟩) (hlt : s.cursor < j)
    (hl : Loop.Candid m r { s with cursor := j } as k more) :
    Loop.Candid m r s (a :: as) k (notes ++ more) := by
  refine ⟨.step h.gives hlt h.within hl.loop, Nat.le_trans h.advanced hl.advanced, hl.within, ?_⟩
  rcases h.settled with (⟨n, hn, hm⟩ | ⟨_, hm⟩) | hset
  · exact .inl ⟨n, List.mem_append_left _ hn, hm⟩
  · exact .inr (.inl (Nat.le_trans hm hl.advanced))
  · rcases hl.settled with ⟨n, hn, hm⟩ | hm | hset'
    · exact .inl ⟨n, List.mem_append_right _ hn, hm⟩
    · exact .inr (.inl hm)
    · rcases Nat.lt_or_ge j m with hj | hj
      · refine .inr (.inr fun t ht => .step (hset t ht) ?_ ?_ (hset' _ (ht.put j)))
        · rw [ht.cursor]
          exact hlt
        · exact ht.le_size (Nat.le_of_lt hj) h.within
      · exact .inr (.inl (Nat.le_trans hj hl.advanced))

theorem Loop.Candid.gives {as : List α} {notes : List Note} (h : Loop.Candid m r s as k notes) :
    (many r).Candid N m s ⟨some as, k, notes⟩ := by
  refine ⟨h.loop.gives, h.advanced, h.within, by simp, ?_⟩
  rcases h.settled with hover | hm | hset
  · exact .inl (.inl hover)
  · exact .inl (.inr ⟨rfl, hm⟩)
  · exact .inr fun t ht => (hset t ht).gives

theorem candid_many (h : ∀ j, j ≤ s.text.size → ∃ o, r.Candid N m { s with cursor := j } o ∧
    ∀ a, o.found = some a → j < o.stop) (hs : s.cursor ≤ s.text.size) :
    ∃ o, (many r).Candid N' m s o := by
  suffices hloop : ∃ as k notes, Loop.Candid m r s as k notes by
    obtain ⟨as, k, notes, hl⟩ := hloop
    exact ⟨_, hl.gives⟩
  induction hn : s.left using Nat.strongRecOn generalizing s with
  | ind n ih =>
    obtain ⟨⟨found, j, notes⟩, hr, hmoves⟩ := h s.cursor hs
    cases found with
    | none => exact ⟨_, _, _, .stop hr⟩
    | some a =>
      have hlt : s.cursor < j := hmoves a rfl
      have hin : j ≤ s.text.size := hr.within
      have hleft : State.left { s with cursor := j } < n := by
        simp only [State.left] at hn ⊢
        omega
      obtain ⟨as, k, more, hl⟩ := ih _ hleft (s := { s with cursor := j }) h hin rfl
      exact ⟨_, _, _, .step hr hlt hl⟩

end Rule

end FuncScript

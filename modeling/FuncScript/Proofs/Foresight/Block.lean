import FuncScript.Proofs.Foresight.Plan
import FuncScript.Proofs.Nesting.Block

/-!
Blocks, which look ahead for their keywords. No look ahead reaches past the END that closes a block,
so that a block that is closed depends on nothing behind it. One that is not closed is gone through
up to the end of the text, or up to a BEGIN that lies too deep, and notes that.
-/

namespace FuncScript

open Nesting (BeginsAt inside beginsAt_add halts_at_begin halts_char stumbles_block)
open Phrase (skip skip_iff)

variable {α β : Type} {s t : State} {d k m n : Nat}

namespace Rule

variable {r : Rule α} {o o' : Outcome α}

theorem Gives.agree (h : r.Gives s o) (h' : r.Gives s o') : o.found = o'.found ∧ o.stop = o'.stop := by
  obtain ⟨hfound, hstate⟩ := Prod.mk.inj ((h s.failures).symm.trans (h' s.failures))
  exact ⟨hfound, congrArg State.cursor hstate⟩

theorem candid_keyword (q : Keyword) (hs : s.cursor ≤ s.text.size) :
    ∃ o, (keyword q).Candid True m s o ∧ o.found.isSome = q.startsAt s.rest ∧
      (o.found.isSome = true → o.stop = s.cursor + q.letters.length) := by
  obtain ⟨o, ho⟩ := (Plan.keyword q).exists_candid _ s ((Plan.compositional_candid _).keyword q) rfl hs
  rw [Plan.rule_keyword] at ho
  obtain ⟨o', hg, -, hr⟩ := reads_keyword (P := False) (s := s) q
  obtain ⟨hfound, hstop⟩ := ho.gives.agree hg
  refine ⟨o, ho, by rw [hfound, found_keyword hr], fun hsome => ?_⟩
  rw [hfound] at hsome
  obtain ⟨u, hu⟩ := Option.isSome_iff_exists.mp hsome
  obtain ⟨w, y, -, hw, hat⟩ := hr.sound u hu
  rw [hstop, hat, Keyword.length_of_word hw]

theorem candid_missing (hs : s.Room d n) (hin : s.cursor ≤ s.text.size)
    (hb : Keyword.blockBegin.startsAt s.rest = false) :
    ∃ notes, (blockWithin n).Candid True m s ⟨none, s.cursor, notes⟩ := by
  cases n with
  | zero =>
    change ∃ notes, (blockAround never).Candid True m s ⟨none, s.cursor, notes⟩
    have hle : s.limit ≤ s.depth := by
      rw [hs.limit, hs.depth]
      exact Nat.le_refl d
    exact ⟨_, candid_nested_of_le hin hle⟩
  | succ n =>
    change ∃ notes, (blockAround (blockWithin n)).Candid True m s ⟨none, s.cursor, notes⟩
    rw [blockAround_eq]
    obtain ⟨⟨found, j, notes⟩, hword, hfound, -⟩ := candid_keyword (m := m) (s := s.deeper) .blockBegin hin
    change found.isSome = Keyword.blockBegin.startsAt s.rest at hfound
    rw [hb, Option.isSome_eq_false_iff, Option.isNone_iff_eq_none] at hfound
    subst hfound
    exact ⟨notes, (hword.bind_none.attempt hin).nested hs.lt⟩

end Rule

namespace Foresight

open Rule (bodyStep blockWithin bodyOf)

theorem startsAt_shared {q : Keyword} (hq : q.IsFence) (ht : s.Shares m t) (hle : s.cursor ≤ k)
    (hm : k + 3 ≤ m) (hend : Keyword.blockEnd.startsAt (State.rest { s with cursor := k }) = true) :
    q.startsAt t.rest = q.startsAt s.rest := by
  obtain ⟨e, y, he, hw⟩ := Keyword.startsAt_iff.mp hend
  have hthree : e.length = 3 := Keyword.length_of_word hw
  have hdrop : s.rest.drop (k - s.cursor) = e ++ y := by
    rw [← he, State.rest, State.rest, List.drop_drop]
    congr 1
    exact Nat.add_sub_cancel' hle
  have hsplit : s.rest = (s.rest.take (k - s.cursor) ++ e) ++ y := by
    rw [List.append_assoc, ← hdrop, List.take_append_drop]
  have hlen := List.length_take_le (k - s.cursor) s.rest
  have hrest := ht.rest hsplit (by rw [List.length_append]; omega)
  rw [hrest, Keyword.startsAt_append hq hw]
  conv => rhs; rw [hsplit]
  rw [Keyword.startsAt_append hq hw]

theorem startsAt_of_shared {q : Keyword} (ht : s.Shares m t) (hm : s.cursor + q.letters.length ≤ m)
    (h : q.startsAt s.rest = true) : q.startsAt t.rest = true := by
  obtain ⟨w, y, he, hw⟩ := Keyword.startsAt_iff.mp h
  rw [← Keyword.length_of_word hw] at hm
  exact Keyword.startsAt_iff.mpr ⟨w, _, ht.rest he hm, hw⟩

/-- The body is run through up to an END, and no look ahead goes past that. -/
structure Closes (m n : Nat) (s : State) (as : List Unit) (k : Nat) (notes : List Note) : Prop where
  loop : Rule.Loop (bodyStep (blockWithin n)) s as k notes
  advanced : s.cursor ≤ k
  ends : Keyword.blockEnd.startsAt (State.rest { s with cursor := k }) = true
  settled : (∃ x ∈ notes, m ≤ x.1) ∨ m < k + 3 ∨
    ∀ t, s.Shares m t → Rule.Loop (bodyStep (blockWithin n)) t as k notes

def Starves (n : Nat) (s : State) : Prop :=
  ∃ as j notes i more, Rule.Loop (bodyStep (blockWithin n)) s as j notes ∧
    (Rule.keyword .blockEnd).Gives { s with cursor := j } ⟨none, i, more⟩ ∧
      ∃ x ∈ notes ++ more, s.text.size ≤ x.1

def BlockEnds (m n : Nat) (s : State) : Prop :=
  (∃ span j notes, span.stop ≤ j ∧ (blockWithin n).Candid True m s ⟨some span, j, notes⟩) ∨
  (∃ notes, (blockWithin n).Gives s ⟨none, s.cursor, notes⟩ ∧ ∃ x ∈ notes, s.text.size ≤ x.1) ∨
  ∃ k, (blockWithin n).Stumbles s k ∧ BeginsAt s k

def BodyEnds (m n : Nat) (s : State) : Prop :=
  (∃ as k notes, Closes m n s as k notes) ∨ Starves n s ∨
  ∃ k, Rule.Halts (bodyStep (blockWithin n)) (Rule.keyword .blockEnd) s k ∧ BeginsAt s k

variable {notes more : List Note} {as : List Unit} {j : Nat} {c : Char} {x w y : List Char}

theorem Starves.step {u : Unit} (h : Starves n { s with cursor := j })
    (hg : (bodyStep (blockWithin n)).Gives s ⟨some u, j, notes⟩) (hlt : s.cursor < j)
    (hin : j ≤ s.text.size) : Starves n s := by
  obtain ⟨as, i, more, l, last, hl, hend, x, hx, hsize⟩ := h
  refine ⟨_, i, _, l, last, .step hg hlt hin hl, hend, x, ?_, hsize⟩
  rw [List.append_assoc]
  exact List.mem_append_right _ hx

theorem Closes.step {u : Unit} {N : Prop} (h : Closes m n { s with cursor := j } as k more)
    (hg : (bodyStep (blockWithin n)).Candid N m s ⟨some u, j, notes⟩) (hlt : s.cursor < j) :
    Closes m n s (u :: as) k (notes ++ more) := by
  have hjk : j ≤ k := h.advanced
  refine ⟨.step hg.gives hlt hg.within h.loop, Nat.le_trans hg.advanced hjk, h.ends, ?_⟩
  rcases hg.settled with (⟨x, hx, hm⟩ | ⟨_, hm⟩) | hset
  · exact .inl ⟨x, List.mem_append_left _ hx, hm⟩
  · have hmk : m ≤ k := Nat.le_trans hm hjk
    exact .inr (.inl (by omega))
  · rcases h.settled with ⟨x, hx, hm⟩ | hm | hset'
    · exact .inl ⟨x, List.mem_append_right _ hx, hm⟩
    · exact .inr (.inl hm)
    · rcases Nat.lt_or_ge m (k + 3) with hm | hm
      · exact .inr (.inl hm)
      · refine .inr (.inr fun t ht => .step (hset t ht) ?_ ?_ (hset' _ (ht.put j)))
        · rw [ht.cursor]
          exact hlt
        · exact ht.le_size (by omega) hg.within

theorem candid_bodyStep {N : Prop} {span : Span}
    (h : (blockWithin n).Candid N m s ⟨some span, j, notes⟩) :
    (bodyStep (blockWithin n)).Candid N m s ⟨some (), j, notes⟩ := by
  refine ⟨(Rule.gives_map h.gives).orElse_some, h.advanced, h.within, by simp, ?_⟩
  exact h.settled.imp id fun hset t ht => (Rule.gives_map (hset t ht)).orElse_some

theorem word_of_block {span : Span} (hs : s.Room d n)
    (hg : (blockWithin n).Gives s ⟨some span, j, notes⟩) :
    ∃ w y, s.rest = w ++ y ∧ w ≠ [] ∧ skip (Grammar.block n) w () ∧ j = s.cursor + w.length := by
  obtain ⟨o, ho, -, hr⟩ := inside hs
  obtain ⟨hfound, hstop⟩ := (Rule.gives_map (g := fun _ => ()) hg).agree ho
  obtain ⟨w, y, he, hw, hat⟩ := hr.sound () hfound.symm
  obtain ⟨raw, hraw⟩ := skip_iff.mp hw
  exact ⟨w, y, he, List.ne_nil_of_length_pos (Grammar.length_of_block_pos hraw), hw, hstop.trans hat⟩

theorem fails_end (hat : BeginsAt s 0) : (Rule.keyword .blockEnd).Fails s := by
  cases hr : s.rest with
  | nil =>
    rw [BeginsAt, hr] at hat
    exact absurd hat (by decide)
  | cons c x =>
    rw [BeginsAt, hr] at hat
    exact (Rule.reads_keyword (P := False) .blockEnd).fails (Rule.begins_word rfl) hr
      (Rule.not_both_letters (Rule.letter_of_startsAt rfl hat))

theorem closes_end (hs : s.Room d n) (hin : s.cursor ≤ s.text.size)
    (he : Keyword.blockEnd.startsAt s.rest = true) : ∃ notes, Closes m n s [] s.cursor notes := by
  have hb : Keyword.blockBegin.startsAt s.rest = false :=
    Bool.eq_false_iff.mpr fun hb => Keyword.not_both hb he
  obtain ⟨notes, hmiss⟩ := Rule.candid_missing (m := m) hs hin hb
  refine ⟨notes, .stop (Rule.gives_bodyStep_fence (Rule.gives_map hmiss.gives) (.inr he)),
    Nat.le_refl _, he, ?_⟩
  rcases hmiss.settled_none with hover | hset
  · exact .inl hover
  · rcases Nat.lt_or_ge m (s.cursor + 3) with hm | hm
    · exact .inr (.inl hm)
    · refine .inr (.inr fun t ht => ?_)
      have hg := Rule.gives_map (g := fun _ => ()) (hset t ht)
      rw [← ht.cursor] at hg ⊢
      exact .stop (Rule.gives_bodyStep_fence hg (.inr (startsAt_of_shared ht hm he)))

theorem closes_char (hs : s.Room d n) (hin : s.cursor ≤ s.text.size) (hr : s.rest = c :: x)
    (hb : Keyword.blockBegin.startsAt s.rest = false)
    (he : Keyword.blockEnd.startsAt s.rest = false) (h : Closes m n (s.moved 1) as k more) :
    ∃ notes, Closes m n s (() :: as) k notes := by
  obtain ⟨notes, hmiss⟩ := Rule.candid_missing (m := m) hs hin hb
  have hlt : s.cursor + 1 ≤ s.text.size := State.cursor_add_le (w := [c]) hr (by simp)
  have hle : s.cursor + 1 ≤ k := h.advanced
  have hg := Rule.gives_bodyStep_char (Rule.gives_map hmiss.gives) hr hb he
  refine ⟨notes ++ more, .step hg (Nat.lt_succ_self _) hlt h.loop, by omega, h.ends, ?_⟩
  rcases hmiss.settled_none with ⟨y, hy, hm⟩ | hset
  · exact .inl ⟨y, List.mem_append_left _ hy, hm⟩
  · rcases h.settled with ⟨y, hy, hm⟩ | hm | hset'
    · exact .inl ⟨y, List.mem_append_right _ hy, hm⟩
    · exact .inr (.inl hm)
    · rcases Nat.lt_or_ge m (k + 3) with hm | hm
      · exact .inr (.inl hm)
      · refine .inr (.inr fun t ht => ?_)
        have hfence : ∀ q : Keyword, q.IsFence → q.startsAt t.rest = q.startsAt s.rest :=
          fun q hq => startsAt_shared hq ht (by omega) hm h.ends
        have hg' := Rule.gives_map (g := fun _ => ()) (hset t ht)
        rw [← ht.cursor] at hg'
        have hstep := Rule.gives_bodyStep_char hg' (ht.rest (w := [c]) hr (by simp; omega))
          ((hfence _ (.inl rfl)).trans hb) ((hfence _ (.inr rfl)).trans he)
        exact .step hstep (Nat.lt_succ_self _) (by rw [ht.cursor]; exact ht.le_size (by omega) hlt)
          (hset' _ (ht.moved 1))

theorem starves_nil (hs : s.Room d n) (hin : s.cursor ≤ s.text.size) (hr : s.rest = []) :
    Starves n s := by
  obtain ⟨notes, hmiss⟩ := Rule.candid_missing (m := 0) hs hin (by rw [hr]; rfl)
  have hlen := State.length_rest s
  rw [hr, State.left, List.length_nil] at hlen
  obtain ⟨⟨found, i, more⟩, hend, hfound, -⟩ := Rule.candid_keyword (m := 0) .blockEnd hin
  have hnone : found = none := by
    change found.isSome = Keyword.blockEnd.startsAt s.rest at hfound
    rw [hr] at hfound
    exact Option.isNone_iff_eq_none.mp (Option.isSome_eq_false_iff.mp hfound)
  subst hnone
  refine ⟨[], s.cursor, _, i, more, .stop (Rule.gives_bodyStep_end (Rule.gives_map hmiss.gives) hr),
    hend.gives, (s.cursor, .anyChar), by simp, by simp only; omega⟩

theorem body_ends_begin (hs : s.Room d n) (hat : BeginsAt s 0) (hblock : BlockEnds m n s)
    (hbehind : ∀ j, s.cursor < j → j ≤ s.text.size → BodyEnds m n { s with cursor := j }) :
    BodyEnds m n s := by
  rcases hblock with ⟨span, j, notes, -, hfound⟩ | ⟨notes, hg, x, hx, hsize⟩ | ⟨k, hk, hat'⟩
  · obtain ⟨w, y, hr, hne, hw, rfl⟩ := word_of_block hs hfound.gives
    have hlt : s.cursor < s.cursor + w.length := Nat.lt_add_of_pos_right (List.length_pos_iff.mpr hne)
    have hstep := candid_bodyStep hfound
    rcases hbehind _ hlt hfound.within with ⟨as, k, more, hclose⟩ | hstarve | ⟨k, hk, hat'⟩
    · exact .inl ⟨_, _, _, hclose.step hstep hlt⟩
    · exact .inr (.inl (hstarve.step hstep.gives hlt hfound.within))
    · obtain ⟨notes', hg, hle⟩ := (inside hs).tries.passes (a := ()) hr hw (by simp)
      refine .inr (.inr ⟨_, hk.step hg.orElse_some hr hne fun x hx => ?_, beginsAt_add hat'⟩)
      exact Nat.le_trans (hle x hx) (by omega)
  · obtain ⟨more, hfail, -⟩ := fails_end hat
    have hstop := Rule.gives_bodyStep_fence (Rule.gives_map hg) (.inl hat)
    exact .inr (.inl ⟨[], s.cursor, notes, s.cursor, more, .stop hstop, hfail, x,
      List.mem_append_left _ hx, hsize⟩)
  · exact .inr (.inr ⟨k, halts_at_begin hk hat, hat'⟩)

theorem body_ends_char (hs : s.Room d n) (hin : s.cursor ≤ s.text.size) (hr : s.rest = c :: x)
    (hb : Keyword.blockBegin.startsAt s.rest = false)
    (he : Keyword.blockEnd.startsAt s.rest = false) (h : BodyEnds m n (s.moved 1)) :
    BodyEnds m n s := by
  rcases h with ⟨as, k, more, hclose⟩ | hstarve | ⟨k, hk, hat⟩
  · obtain ⟨notes, hclose⟩ := closes_char hs hin hr hb he hclose
    exact .inl ⟨_, _, _, hclose⟩
  · obtain ⟨notes, hmiss⟩ := Rule.candid_missing (m := m) hs hin hb
    have hstep := Rule.gives_bodyStep_char (Rule.gives_map hmiss.gives) hr hb he
    have hlt : s.cursor + 1 ≤ s.text.size := State.cursor_add_le (w := [c]) hr (by simp)
    exact .inr (.inl (hstarve.step hstep (Nat.lt_succ_self _) hlt))
  · exact .inr (.inr ⟨_, halts_char hs hr hb he hk hat, beginsAt_add hat⟩)

theorem body_ends (hs : s.Room d n) (hin : s.cursor ≤ s.text.size)
    (hinner : ∀ j, j ≤ s.text.size → BeginsAt { s with cursor := j } 0 →
      BlockEnds m n { s with cursor := j }) : BodyEnds m n s := by
  -- by how much of the text is left, as a block inside takes more than one character
  induction hl : s.left using Nat.strongRecOn generalizing s with
  | ind l ih =>
    have hbehind : ∀ j, s.cursor < j → j ≤ s.text.size → BodyEnds m n { s with cursor := j } := by
      intro j hj hsize
      refine ih _ ?_ ⟨hs.depth, hs.limit⟩ hsize hinner rfl
      simp only [State.left] at hl ⊢
      omega
    by_cases hend : Keyword.blockEnd.startsAt s.rest = true
    · obtain ⟨notes, hclose⟩ := closes_end hs hin hend
      exact .inl ⟨_, _, _, hclose⟩
    by_cases hat : BeginsAt s 0
    · exact body_ends_begin hs hat (hinner s.cursor hin hat) hbehind
    have hend' := Bool.eq_false_iff.mpr hend
    have hbegin : Keyword.blockBegin.startsAt s.rest = false := Bool.eq_false_iff.mpr hat
    cases hr : s.rest with
    | nil => exact .inr (.inl (starves_nil hs hin hr))
    | cons c x =>
      have hlt : s.cursor + 1 ≤ s.text.size := State.cursor_add_le (w := [c]) hr (by simp)
      exact body_ends_char hs hin hr hbegin hend' (hbehind _ (Nat.lt_succ_self _) hlt)

theorem Closes.within (h : Closes m n s as k notes) : k ≤ s.text.size := by
  obtain ⟨e, y, he, hw⟩ := Keyword.startsAt_iff.mp h.ends
  have hthree : e.length = 3 := Keyword.length_of_word hw
  have hle := State.cursor_add_le he (List.ne_nil_of_length_pos (by omega))
  exact Nat.le_trans (Nat.le_add_right _ _) hle

theorem Closes.candid (h : Closes m n s as k notes) :
    ∃ span j more, span.stop ≤ j ∧
      (bodyOf (blockWithin n)).Candid True m s ⟨some span, j, more⟩ := by
  obtain ⟨⟨found, j, more⟩, hword, hfound, hstop⟩ :=
    Rule.candid_keyword (m := m) (s := { s with cursor := k }) .blockEnd h.within
  dsimp only at hfound hstop
  rw [h.ends] at hfound
  obtain ⟨⟨⟩, rfl⟩ := Option.isSome_iff_exists.mp hfound
  have hj : j = k + 3 := hstop rfl
  have hle : s.cursor ≤ j := Nat.le_trans h.advanced (by omega)
  refine ⟨_, j, _, ?_, Rule.gives_bodyOf h.loop hword.gives, hle, hword.within, by simp, ?_⟩
  · dsimp only
    omega
  rcases h.settled with ⟨x, hx, hm⟩ | hm | hset
  · exact .inl (.inl ⟨x, List.mem_append_left _ hx, hm⟩)
  · exact .inl (.inr ⟨rfl, by dsimp only; omega⟩)
  · rcases hword.settled with (⟨x, hx, hm⟩ | ⟨_, hm⟩) | hset'
    · exact .inl (.inl ⟨x, List.mem_append_right _ hx, hm⟩)
    · exact .inl (.inr ⟨rfl, hm⟩)
    · right
      intro t ht
      rw [← ht.cursor]
      exact Rule.gives_bodyOf (hset t ht) (hset' _ (ht.put k))

theorem block_ends : ∀ (n d : Nat) (s : State), s.Room d n → s.cursor ≤ s.text.size →
    BeginsAt s 0 → BlockEnds m n s
  | 0, d, s, hs, _, hat => by
    refine .inr (.inr ⟨0, ?_, hat⟩)
    change (Rule.blockAround Rule.never).Stumbles s 0
    exact Rule.stumbles_nested (by rw [hs.limit, hs.depth]; exact Nat.le_refl d)
  | n + 1, d, s, hs, hin, hat => by
    change (∃ span j notes, span.stop ≤ j ∧
        (Rule.blockAround (blockWithin n)).Candid True m s ⟨some span, j, notes⟩) ∨
      (∃ notes, (Rule.blockAround (blockWithin n)).Gives s ⟨none, s.cursor, notes⟩ ∧ _) ∨ _
    obtain ⟨⟨found, j, notes⟩, hword, hfound, hstop⟩ :=
      Rule.candid_keyword (m := m) (s := s.deeper) .blockBegin hin
    dsimp only at hfound hstop
    rw [show Keyword.blockBegin.startsAt s.deeper.rest = true from hat] at hfound
    obtain ⟨⟨⟩, rfl⟩ := Option.isSome_iff_exists.mp hfound
    obtain rfl : j = s.cursor + 5 := hstop rfl
    have hbody : BodyEnds m n { s.deeper with cursor := s.cursor + 5 } := by
      have hroom : State.Room { s.deeper with cursor := s.cursor + 5 } (d + 1) n :=
        ⟨hs.deeper.depth, hs.deeper.limit⟩
      apply body_ends hroom hword.within
      intro j hj hat'
      exact block_ends n (d + 1) _ ⟨hroom.depth, hroom.limit⟩ hj hat'
    rw [Rule.blockAround_eq]
    rcases hbody with ⟨as, k, more, hclose⟩ | ⟨as, k, more, i, last, hl, hend, hsize⟩ | ⟨k, hk, hat'⟩
    · left
      obtain ⟨span, j, more, hspan, hbody⟩ := hclose.candid
      have hwhole : (Rule.keyword .blockBegin >>= fun _ => bodyOf (blockWithin n)).Candid True m
        s.deeper _ := hword.bind_some hbody
      exact ⟨span, j, _, hspan, (hwhole.attempt hin).nested hs.lt⟩
    · right
      left
      obtain ⟨x, hx, hsize⟩ := hsize
      have hwhole := hword.gives.bind_some (f := fun _ => bodyOf (blockWithin n))
        (Rule.gives_bodyOf hl hend)
      exact ⟨_, hwhole.attempt.nested hs.lt, x, List.mem_append_right _ hx, hsize⟩
    · right
      right
      obtain ⟨opening, z, hr, ho⟩ := Keyword.startsAt_iff.mp hat
      have hfive : opening.length = 5 := Keyword.length_of_word ho
      refine ⟨opening.length + k, stumbles_block hs hr ho ?_, ?_⟩
      · rw [hfive]
        exact hk
      · rw [hfive]
        exact beginsAt_add (s := s.deeper) hat'

end Foresight

end FuncScript

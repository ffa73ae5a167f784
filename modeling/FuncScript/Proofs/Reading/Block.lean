import FuncScript.Proofs.Reading.Body
import FuncScript.Proofs.Reading.Configuration
import FuncScript.Rule.Script

namespace FuncScript

open Phrase (skip skip_iff viable_skip_iff)

variable {α : Type} {P : Prop} {x y : List Char} {i j m n : Nat} {s : State}

namespace Rule

theorem found_keyword {k : Keyword} {o : Outcome Unit}
    (h : Reading P Never (Grammar.word k) x i o) : o.found.isSome = k.startsAt x := by
  cases hk : k.startsAt x with
  | true =>
    obtain ⟨w, y, he, hw⟩ := Keyword.startsAt_iff.mp hk
    rw [(h.complete w y () he hw (by simp)).1]
    rfl
  | false =>
    cases hf : o.found with
    | none => rfl
    | some u =>
      obtain ⟨w, y, he, hw, _⟩ := h.sound u hf
      rw [Keyword.startsAt_iff.mpr ⟨w, y, he, hw⟩] at hk
      simp at hk

theorem gives_notAhead (k : Keyword) (s : State) : (notAhead (keyword k)).Gives s
    ⟨if k.startsAt s.rest then none else some (), s.cursor, []⟩ := by
  obtain ⟨o, hg, _, hr⟩ := reads_keyword (P := False) (s := s) k
  rw [← found_keyword hr]
  exact hg.notAhead

theorem gives_bodyChar_fence
    (h : Keyword.blockBegin.startsAt s.rest = true ∨ Keyword.blockEnd.startsAt s.rest = true) :
    bodyChar.Gives s ⟨none, s.cursor, []⟩ := by
  have hb := gives_notAhead .blockBegin s
  have he := gives_notAhead .blockEnd s
  have hbody : (notAhead (keyword .blockBegin) >>= fun _ => notAhead (keyword .blockEnd) >>=
      fun _ => anyChar).Gives s ⟨none, s.cursor, []⟩ := by
    cases hB : Keyword.blockBegin.startsAt s.rest with
    | true =>
      rw [hB] at hb
      exact hb.bind_none
    | false =>
      have hE : Keyword.blockEnd.startsAt s.rest = true := by simpa [hB] using h
      rw [hB] at hb
      rw [hE] at he
      have hrest : (notAhead (keyword .blockEnd) >>= fun _ => anyChar).Gives s
          ⟨none, s.cursor, []⟩ := he.bind_none
      exact hb.bind_some (o := ⟨none, s.cursor, []⟩) hrest
  exact hbody.attempt

theorem gives_bodyChar {o : Outcome Char} (hb : Keyword.blockBegin.startsAt s.rest = false)
    (he : Keyword.blockEnd.startsAt s.rest = false) (h : anyChar.Gives s o)
    (hs : o.found = none → o.stop = s.cursor) : bodyChar.Gives s o := by
  have hb' := gives_notAhead .blockBegin s
  have he' := gives_notAhead .blockEnd s
  rw [hb] at hb'
  rw [he] at he'
  have hrest : (notAhead (keyword .blockEnd) >>= fun _ => anyChar).Gives s o :=
    he'.bind_some h
  have hbody : (notAhead (keyword .blockBegin) >>= fun _ => notAhead (keyword .blockEnd) >>=
      fun _ => anyChar).Gives s o := hb'.bind_some hrest
  have ha := hbody.attempt
  obtain ⟨found, j, notes⟩ := o
  cases found with
  | none =>
    obtain rfl : j = s.cursor := hs rfl
    exact ha
  | some c => exact ha

variable {inner : Rule Span} {notes : List Note}

def bodyStep (inner : Rule Span) : Rule Unit := Rule.orElse (do let _ ← inner) (do let _ ← bodyChar)

theorem gives_bodyStep_fence (h : (do let _ ← inner : Rule Unit).Gives s ⟨none, s.cursor, notes⟩)
    (hf : Keyword.blockBegin.startsAt s.rest = true ∨ Keyword.blockEnd.startsAt s.rest = true) :
    (bodyStep inner).Gives s ⟨none, s.cursor, notes⟩ := by
  have hstep := h.orElse_none (gives_map (g := fun _ => ()) (gives_bodyChar_fence hf))
  rw [List.append_nil] at hstep
  exact hstep

theorem gives_bodyStep_char {c : Char}
    (h : (do let _ ← inner : Rule Unit).Gives s ⟨none, s.cursor, notes⟩)
    (hr : s.rest = c :: x) (hb : Keyword.blockBegin.startsAt s.rest = false)
    (he : Keyword.blockEnd.startsAt s.rest = false) :
    (bodyStep inner).Gives s ⟨some (), s.cursor + 1, notes⟩ := by
  have hany : anyChar.Gives s ⟨some c, s.cursor + 1, []⟩ := gives_terminal_some hr rfl
  have hchar := gives_map (g := fun _ => ()) (gives_bodyChar hb he hany (by simp))
  have hstep := h.orElse_none hchar
  rw [List.append_nil] at hstep
  exact hstep

theorem gives_bodyStep_end (h : (do let _ ← inner : Rule Unit).Gives s ⟨none, s.cursor, notes⟩)
    (hr : s.rest = []) :
    (bodyStep inner).Gives s ⟨none, s.cursor, notes ++ [(s.cursor, .anyChar)]⟩ := by
  have hany : anyChar.Gives s ⟨none, s.cursor, [(s.cursor, .anyChar)]⟩ :=
    gives_terminal_none (by simp [hr])
  exact h.orElse_none (gives_map (g := fun _ => ())
    (gives_bodyChar (by rw [hr]; rfl) (by rw [hr]; rfl) hany fun _ => rfl))

def Inside (P : Prop) (inner : Rule Span) (m : Nat) (s : State) : Prop :=
  (do let _ ← inner : Rule Unit).Reads P Never (skip (Grammar.block m)) s

def LoopReads (P : Prop) (inner : Rule Span) (m : Nat) (s : State) : Prop :=
  ∃ as k notes o, Loop (bodyStep inner) s as k notes ∧ s.cursor ≤ k ∧
    (keyword .blockEnd).Gives { s with cursor := k } o ∧ (o.found = none → o.notes ≠ []) ∧
    (o.found = some () → o.stop = k + 3) ∧
    Reading P Never (skip (Grammar.body m)) s.rest s.cursor ⟨o.found, o.stop, notes ++ o.notes⟩

variable {notes₁ more : List Note}

theorem loopReads_stop
    (h₁ : (do let _ ← inner : Rule Unit).Gives s ⟨none, s.cursor, notes₁⟩)
    (hc : bodyChar.Gives s ⟨none, s.cursor, more⟩)
    (h : ∀ o, Reading P Never (Grammar.word .blockEnd) s.rest s.cursor o →
      Reading P Never (skip (Grammar.body m)) s.rest s.cursor
        ⟨o.found, o.stop, notes₁ ++ more ++ o.notes⟩) : LoopReads P inner m s := by
  obtain ⟨o, hg, hn, hr⟩ := reads_keyword (P := P) (s := s) .blockEnd
  refine ⟨[], s.cursor, _, o, .stop (h₁.orElse_none hc.bind_none), Nat.le_refl _, hg,
    fun hf => (hn hf).1, ?_, h o hr⟩
  intro hf
  obtain ⟨w, _, _, hw, hj⟩ := hr.sound () hf
  rw [hj, Keyword.length_of_word hw]
  rfl

theorem LoopReads.step {w y : List Char} (he : s.rest = w ++ y) (hw : w ≠ [])
    (hstep : (bodyStep inner).Gives s ⟨some (), s.cursor + w.length, notes₁⟩)
    (h : LoopReads P inner m (s.moved w.length))
    (hr : ∀ o, Reading P Never (skip (Grammar.body m)) y (s.cursor + w.length) o →
      Reading P Never (skip (Grammar.body m)) s.rest s.cursor
        ⟨o.found, o.stop, notes₁ ++ o.notes⟩) : LoopReads P inner m s := by
  obtain ⟨as, k, notes, o, hl, hk, hg, hn, hs, hread⟩ := h
  rw [State.rest_moved_of_append he] at hread
  refine ⟨() :: as, k, _, o, Loop.step_word hstep he hw hl, ?_, hg, hn, hs, ?_⟩
  · simp only [State.moved] at hk
    omega
  · have h' := hr _ hread
    simp only [List.append_assoc] at h' ⊢
    exact h'

theorem letter_of_startsAt {k : Keyword} {u c : Char} {us t : List Char} (hk : k.letters = u :: us)
    (h : k.startsAt (c :: t) = true) : (CharClass.letter u).contains c = true := by
  rw [Keyword.startsAt, hk, Keyword.startsAt.go, Bool.and_eq_true] at h
  exact h.1

theorem not_both_letters {c : Char} (hB : (CharClass.letter 'B').contains c = true) :
    ¬ (CharClass.letter 'E').contains c = true := by
  rcases Phrase.contains_letter_iff.mp hB with rfl | rfl <;> decide

theorem found_end {o : Outcome Unit}
    (ho : Reading P Never (Grammar.word .blockEnd) s.rest s.cursor o)
    (hE : Keyword.blockEnd.startsAt s.rest = false) : o.found = none := by
  have hsome := found_keyword ho
  rw [hE] at hsome
  simpa using hsome

section Missing

variable (hg₁ : (do let _ ← inner : Rule Unit).Gives s ⟨none, s.cursor, notes₁⟩)
  (h₁ : Reading P Never (skip (Grammar.block m)) s.rest s.cursor ⟨none, s.cursor, notes₁⟩)

include hg₁ h₁

theorem loopReads_end (hE : Keyword.blockEnd.startsAt s.rest = true) :
    LoopReads P inner m s := by
  apply loopReads_stop hg₁ (gives_bodyChar_fence (.inr hE))
  intro o ho
  obtain ⟨closing, y, he, hw⟩ := Keyword.startsAt_iff.mp hE
  rw [List.append_nil]
  rw [he] at ho h₁ hE ⊢
  apply ho.body_end hw
  apply h₁.placed.le_of_begins ((begins_block m).bind _)
  intro d t hd hd'
  rw [hd] at hE
  exact not_both_letters hd' (letter_of_startsAt rfl hE)

theorem loopReads_begin (hB : Keyword.blockBegin.startsAt s.rest = true)
    (hE : Keyword.blockEnd.startsAt s.rest = false) (hm : P → s.rest.length + 1 < m) :
    LoopReads P inner m s := by
  apply loopReads_stop hg₁ (gives_bodyChar_fence (.inl hB))
  intro o ho
  obtain ⟨opening, y, he, hw⟩ := Keyword.startsAt_iff.mp hB
  have hnone : Reading P Never (withBlock m) s.rest s.cursor ⟨none, o.stop, notes₁⟩ :=
    h₁.bind_none (follows_block m) (by simp)
  rw [found_end ho hE]
  rw [he] at hnone hB ho ⊢
  apply hnone.body_block hw
  · intro hP
    have := hm hP
    omega
  · intro n hn
    simp [hn]
  · intro n hn
    simp only [List.append_nil, List.mem_append] at hn
    rcases hn with hn | hn
    · exact .inl hn
    · right
      apply ho.placed.le_of_begins (begins_word rfl) _ n hn
      intro d t hd hd'
      rw [hd] at hB
      exact not_both_letters (letter_of_startsAt rfl hB) hd'

theorem loopReads_nil (hr : s.rest = []) (hm : P → s.rest.length + 1 < m) :
    LoopReads P inner m s := by
  have hB : Keyword.blockBegin.startsAt s.rest = false := by rw [hr]; rfl
  have hE : Keyword.blockEnd.startsAt s.rest = false := by rw [hr]; rfl
  have hany : anyChar.Gives s ⟨none, s.cursor, [(s.cursor, .anyChar)]⟩ :=
    gives_terminal_none (by simp [hr])
  apply loopReads_stop hg₁ (gives_bodyChar hB hE hany fun _ => rfl)
  intro o ho
  have hf := found_end ho hE
  rw [hr] at ho h₁ ⊢
  apply ho.body_nil h₁ hf
  intro hP
  have := hm hP
  omega

theorem loopReads_char {c : Char} (hr : s.rest = c :: x)
    (hB : Keyword.blockBegin.startsAt s.rest = false)
    (hE : Keyword.blockEnd.startsAt s.rest = false) (hm : P → s.rest.length + 1 < m)
    (h : LoopReads P inner m (s.moved 1)) : LoopReads P inner m s := by
  apply LoopReads.step (w := [c]) hr (by simp) (gives_bodyStep_char hg₁ hr hB hE) h
  intro o ho
  rw [hr] at h₁ hB hE hm ⊢
  apply ho.body_char h₁ hB hE
  intro hP
  have := hm hP
  rw [List.length_cons] at this
  omega

end Missing

theorem loopReads_block {w y : List Char}
    (hg₁ : (do let _ ← inner : Rule Unit).Gives s ⟨some (), s.cursor + w.length, notes₁⟩)
    (h₁ : Reading P Never (skip (Grammar.block m)) s.rest s.cursor
      ⟨some (), s.cursor + w.length, notes₁⟩)
    (he : s.rest = w ++ y) (hne : w ≠ []) (hw : skip (Grammar.block m) w ())
    (hm : P → s.rest.length + 1 < m) (h : LoopReads P inner m (s.moved w.length)) :
    LoopReads P inner m s := by
  obtain ⟨raw, hraw⟩ := Phrase.skip_iff.mp hw
  have hB := Grammar.startsAt_of_block hraw y
  rw [← he] at hB
  obtain ⟨opening, z, hopening, hword⟩ := Keyword.startsAt_iff.mp hB
  apply h.step he hne hg₁.orElse_some
  intro o ho
  rw [he] at h₁
  have hboth := h₁.bind hw ho (follows_block m) (by simp) fun _ => settled_skip_block m
  rw [← he, hopening] at hboth
  rw [hopening]
  apply hboth.body_block hword
  · intro hP
    have := hm hP
    omega
  · exact fun n hn => hn
  · exact fun n hn => .inl hn

theorem loop_body (hinner : ∀ k, Inside P inner m (s.moved k)) (hm : P → s.rest.length + 1 < m) :
    LoopReads P inner m s := by
  induction hn : s.rest.length using Nat.strongRecOn generalizing s with
  | ind n ih =>
    -- On what is left of the text, since a step takes a whole block or one character.
    have hih : ∀ {w y}, s.rest = w ++ y → w ≠ [] → LoopReads P inner m (s.moved w.length) := by
      intro w y he hw
      have hlen := congrArg List.length he
      have hpos := List.length_pos_iff.mpr hw
      have hrest : (s.moved w.length).rest = y := State.rest_moved_of_append he
      rw [List.length_append] at hlen
      refine ih _ (by rw [hrest]; omega) ?_ ?_ rfl
      · intro k
        rw [State.moved_moved]
        exact hinner _
      · intro hP
        have := hm hP
        rw [hrest]
        omega
    obtain ⟨⟨found, j, notes₁⟩, hg₁, hn₁, h₁⟩ := hinner 0
    simp only [State.moved, Nat.add_zero] at hg₁ hn₁ h₁
    cases found with
    | some _ =>
      obtain ⟨w, y, he, hw, rfl⟩ := h₁.sound () rfl
      have hne : w ≠ [] := by
        obtain ⟨c, t, rfl, _⟩ := (begins_block m).bind _ w () hw
        simp
      exact loopReads_block hg₁ h₁ he hne hw hm (hih he hne)
    | none =>
      obtain rfl : j = s.cursor := (hn₁ rfl).2
      cases hE : Keyword.blockEnd.startsAt s.rest with
      | true => exact loopReads_end hg₁ h₁ hE
      | false =>
        cases hB : Keyword.blockBegin.startsAt s.rest with
        | true => exact loopReads_begin hg₁ h₁ hB hE hm
        | false =>
          cases hr : s.rest with
          | nil => exact loopReads_nil hg₁ h₁ hr hm
          | cons c x => exact loopReads_char hg₁ h₁ hr hB hE hm (hih (w := [c]) hr (by simp))

theorem attempt_slice (r : Rule Span) : attempt r >>= slice = attempt (r >>= slice) := by
  funext s
  rcases h : r s with ⟨_ | span, s'⟩
  · rw [bind_of_none (attempt_of_none h), attempt_of_none (bind_of_none h)]
  · rw [bind_of_some (attempt_of_some h)]
    exact (attempt_of_some ((bind_of_some h).trans rfl)).symm

theorem nested_slice (r : Rule Span) : nested r >>= slice = nested (r >>= slice) := by
  funext s
  change andThen (nested r) slice s = nested (andThen r slice) s
  unfold andThen nested
  by_cases h : s.limit ≤ s.depth
  · simp [h, fail]
  · simp only [h, if_false]
    rcases h' : r { s with depth := s.depth + 1 } with ⟨_ | span, s'⟩ <;> simp [slice]

theorem slice_skip (r : Rule Span) :
    (r >>= slice >>= fun _ => pure ()) = (do let _ ← r : Rule Unit) := by
  funext s
  change andThen (andThen r slice) (fun _ => succeed ()) s = andThen r (fun _ => succeed ()) s
  unfold andThen
  rcases h : r s with ⟨_ | span, s'⟩ <;> simp [slice]

theorem Inside.of_slice (h : (inner >>= slice).Reads P Never (Grammar.block m) s) :
    Inside P inner m s := by
  have hmap := h.map fun _ => ()
  rw [slice_skip] at hmap
  exact hmap

def bodyOf (inner : Rule Span) : Rule Span := do
  let start ← cursor
  let _ ← many (bodyStep inner)
  let stop ← cursor
  keyword .blockEnd
  return ⟨start, stop⟩

theorem blockAround_eq (inner : Rule Span) :
    blockAround inner = nested (attempt (keyword .blockBegin >>= fun _ => bodyOf inner)) :=
  rfl

theorem Gives.from_cursor {f : Nat → Rule α} {o : Outcome α} (h : (f s.cursor).Gives s o) :
    (cursor >>= f).Gives s o :=
  (gives_cursor s).bind_some h

theorem gives_slice (span : Span) (s : State) : (slice span).Gives s
    ⟨some (s.text.extract span.start span.stop).toList, s.cursor, []⟩ := fun _ => rfl

theorem extract_rest {k : Nat} {raw z : List Char} (h : s.rest = raw ++ z)
    (hk : k = s.cursor + raw.length) : (s.text.extract s.cursor k).toList = raw := by
  rw [Array.toList_extract, List.extract_eq_take_drop, hk, Nat.add_sub_cancel_left]
  change s.rest.take raw.length = raw
  rw [h, List.take_left]

theorem gives_bodyOf {as : List Unit} {k : Nat} {o : Outcome Unit}
    (hl : Loop (bodyStep inner) s as k notes)
    (hg : (keyword .blockEnd).Gives { s with cursor := k } o) : (bodyOf inner).Gives s
      ⟨o.found.map fun _ => ⟨s.cursor, k⟩, o.stop, notes ++ o.notes⟩ := by
  have h := (gives_cursor s).bind_some (f := fun start => many (bodyStep inner) >>= fun _ =>
    cursor >>= fun stop => keyword .blockEnd >>= fun _ => pure (⟨start, stop⟩ : Span))
    (hl.gives.bind_some ((gives_cursor _).bind_some (gives_map hg)))
  simp only [List.nil_append] at h
  exact h

theorem tries_bodyOf (h : LoopReads P inner m s) :
    (bodyOf inner >>= slice).Tries P Never (Grammar.body m) s := by
  obtain ⟨as, k, notes, o, hl, hk, hg, hn, hs, hr⟩ := h
  have hbody := gives_bodyOf hl hg
  have hskip : Reading P Never (skip (Grammar.body m)) s.rest s.cursor
      ⟨(o.found.map fun _ => (s.text.extract s.cursor k).toList).map fun _ => (), o.stop,
        notes ++ o.notes⟩ := by
    cases hf : o.found <;> simpa [hf] using hr
  have hread := hskip.of_skip (by
    intro a w y raw ha he hj hw
    obtain ⟨⟨⟩, hf, rfl⟩ := Option.map_eq_some_iff.mp ha
    have hlen := Grammar.length_of_body hw
    obtain ⟨closing, rfl, _⟩ := hw
    rw [List.append_assoc] at he
    have := hs hf
    exact (extract_rest he (by omega)).symm)
  cases hf : o.found with
  | none =>
    rw [hf] at hbody hread
    refine ⟨_, hbody.bind_none, ?_, hread⟩
    simp [hn hf]
  | some _ =>
    rw [hf] at hbody hread
    refine ⟨_, hbody.bind_some (gives_slice _ _), by simp, ?_⟩
    simpa using hread

theorem reads_blockAround (hd : s.depth < s.limit)
    (hinner : 0 < s.left → ∀ k, 0 < k → Inside P inner m (s.deeper.moved k))
    (hm : P → s.rest.length ≤ m) :
    (blockAround inner >>= slice).Reads P Never (Grammar.block (m + 1)) s := by
  rw [blockAround_eq, nested_slice, attempt_slice, LawfulMonad.bind_assoc, Grammar.block_succ]
  apply Reads.nested hd
  apply Tries.attempt
  apply (reads_keyword .blockBegin).tries.bind_never
  · intro w y _ hw hb
    have h5 : w.length = 5 := Keyword.length_of_word hb
    have hlen : s.left = w.length + y.length := by
      rw [← List.length_append, ← hw]
      exact (State.length_rest s).symm
    apply tries_bodyOf
    apply loop_body
    · intro k
      rw [State.moved_moved]
      exact hinner (by omega) _ (by omega)
    · intro hP
      have hle := hm hP
      rw [State.length_rest] at hle
      rw [State.rest_moved_of_append hw]
      omega
  · exact fun _ => settled_word _
  · exact fun _ => viable_body_nil m
  · exact fun _ b _ hb => ⟨b, hb⟩

theorem reads_blockWithin : ∀ (n M : Nat) (s : State), s.limit - s.depth = n → Ample M s →
    (P → Roomy s) → (blockWithin n >>= slice).Reads P Never (Grammar.block M) s
  | 0, M, s, hn, hM, hP => by
    have h0 : M = 0 := by
      rcases hM with hM | ⟨_, hM⟩ <;> omega
    subst h0
    have hg : (blockWithin 0 >>= slice).Gives s
        ⟨none, s.cursor, [(s.cursor, tooDeep s.limit)]⟩ := by
      change (blockAround never >>= slice).Gives s _
      unfold blockAround
      exact (gives_nested_of_le (by omega)).bind_none
    refine ⟨_, hg, by simp, by simp, ?_, ?_, placed_of_empty fun ⟨_, _, h⟩ => h.elim⟩
    · intro w y a _ ha
      exact ha.elim
    · intro p
      have := (hP p).1
      omega
  | n + 1, M, s, hn, hM, hP => by
    obtain ⟨m, rfl⟩ : ∃ m, M = m + 1 := ⟨M - 1, by rcases hM with hM | ⟨hM, _⟩ <;> omega⟩
    change (blockAround (blockWithin n) >>= slice).Reads P Never (Grammar.block (m + 1)) s
    apply reads_blockAround (by omega)
    · intro hl k hk
      apply Inside.of_slice
      apply reads_blockWithin n m _ _ (hM.deeper hl hk) fun p => (hP p).deeper hl hk
      simp only [State.moved, State.deeper]
      omega
    · intro p
      have hroomy := (hP p).1
      have hlen := State.length_rest s
      rcases hM with hM | ⟨hM, _⟩ <;> omega

theorem reads_block (hM : Ample M s) (hP : P → Roomy s) :
    (block >>= slice).Reads P Never (Grammar.block M) s := by
  apply Reads.congr (reads_blockWithin _ M s rfl hM hP)
  exact fun _ => rfl

theorem settled_block (n : Nat) : (Grammar.block n).Settled Never := by
  apply settled_of_reading
  intro x raw hx
  obtain ⟨o, _, _, hr⟩ := reads_block (P := False) (M := n) (s := { text := x.toArray, limit := n })
    (.inl rfl) False.elim
  exact ⟨_, o, by simpa [State.rest] using hr⟩

end Rule

end FuncScript

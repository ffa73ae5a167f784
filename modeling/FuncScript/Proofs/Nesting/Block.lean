import FuncScript.Proofs.Levels
import FuncScript.Proofs.Nesting.Crossing
import FuncScript.Proofs.Nesting.Limit

/-!
Blocks where fewer levels are left than they need. A block that is refused leaves its BEGIN where it
stands, which is neither a character of the body nor the END of the block around it.
-/

namespace FuncScript.Nesting

open Phrase (one_bind_iff contains_letter_iff skip_iff viable_skip_iff)
open Rule (Halts Stumbles Inside bodyStep)

variable {d n k M : Nat} {s : State} {w v y raw closing : List Char} {c : Char}
  {marks : List Opening} {p : Place}

theorem crosses_behind : ∀ u : List Char, Crosses .behind u v [] .behind
  | [] => crosses_nil _ _
  | _ :: u => Crosses.cons rfl (crosses_behind u)

theorem crosses_char (hb : Keyword.blockBegin.startsAt (c :: v) = false)
    (he : Keyword.blockEnd.startsAt (c :: v) = false) : Crosses (.body d) [c] v [] (.body d) := by
  have hnext : (Place.body d).next (c :: v) = .body d := by simp [Place.next, hb, he]
  have h := crosses_step (p := .body d) (c := c) (v := v) (by simp [Place.opens, hb])
  rwa [hnext] at h

def Plain (c : Char) : Prop :=
  (CharClass.letter 'B').contains c = false ∧ (CharClass.letter 'E').contains c = false

theorem Plain.not_startsAt (h : Plain c) (v : List Char) :
    Keyword.blockBegin.startsAt (c :: v) = false ∧ Keyword.blockEnd.startsAt (c :: v) = false := by
  constructor <;> apply Bool.eq_false_iff.mpr <;> intro hs
  · exact Bool.eq_false_iff.mp h.1 (Rule.letter_of_startsAt rfl hs)
  · exact Bool.eq_false_iff.mp h.2 (Rule.letter_of_startsAt rfl hs)

theorem crosses_plain : ∀ {u : List Char}, (∀ c ∈ u, Plain c) →
    Crosses (.body d) u v [] (.body d)
  | [], _ => crosses_nil _ _
  | c :: u, h => by
    obtain ⟨hc, hu⟩ := List.forall_mem_cons.mp h
    obtain ⟨hb, he⟩ := hc.not_startsAt (u ++ v)
    exact (crosses_char hb he).quiet (crosses_plain hu)

theorem plain_of_letter {l : Char} (hl : l ∈ ['D', 'G', 'I', 'N'])
    (hc : (CharClass.letter l).contains c = true) : Plain c := by
  simp only [List.mem_cons, List.not_mem_nil, or_false] at hl
  rcases hl with rfl | rfl | rfl | rfl <;> rcases contains_letter_iff.mp hc with rfl | rfl <;>
    exact ⟨by decide, by decide⟩

theorem letters_of_begin (h : Grammar.word .blockBegin w ()) : ∃ b e g i l, w = [b, e, g, i, l] ∧
    (CharClass.letter 'B').contains b = true ∧ (CharClass.letter 'E').contains e = true ∧
      Plain g ∧ Plain i ∧ Plain l ∧ (CharClass.letter 'N').contains g = false := by
  change Grammar.letters ['B', 'E', 'G', 'I', 'N'] w () at h
  obtain ⟨b, _, rfl, hb, h⟩ := one_bind_iff.mp h
  obtain ⟨e, _, rfl, he, h⟩ := one_bind_iff.mp h
  obtain ⟨g, _, rfl, hg, h⟩ := one_bind_iff.mp h
  obtain ⟨i, _, rfl, hi, h⟩ := one_bind_iff.mp h
  obtain ⟨l, _, rfl, hl, rfl, -⟩ := one_bind_iff.mp h
  refine ⟨b, e, g, i, l, rfl, hb, he, plain_of_letter (by decide) hg, plain_of_letter (by decide) hi,
    plain_of_letter (by decide) hl, ?_⟩
  rcases contains_letter_iff.mp hg with rfl | rfl <;> decide

theorem letters_of_end (h : Grammar.word .blockEnd w ()) : ∃ e l f, w = [e, l, f] ∧
    Plain l ∧ Plain f := by
  change Grammar.letters ['E', 'N', 'D'] w () at h
  obtain ⟨e, _, rfl, -, h⟩ := one_bind_iff.mp h
  obtain ⟨l, _, rfl, hl, h⟩ := one_bind_iff.mp h
  obtain ⟨f, _, rfl, hf, rfl, -⟩ := one_bind_iff.mp h
  exact ⟨e, l, f, rfl, plain_of_letter (by decide) hl, plain_of_letter (by decide) hf⟩

theorem crosses_begin (h : Grammar.word .blockBegin w ()) :
    Crosses (.body d) w v [⟨0, d + 1⟩] (.body (d + 1)) := by
  have hstarts := Keyword.startsAt_iff.mpr ⟨w, v, rfl, h⟩
  obtain ⟨b, e, g, i, l, rfl, -, he, hg, hi, hl, hgn⟩ := letters_of_begin h
  change Keyword.blockBegin.startsAt (b :: ([e, g, i, l] ++ v)) = true at hstarts
  have hnext : (Place.body d).next (b :: ([e, g, i, l] ++ v)) = .body (d + 1) := by
    rw [Place.next, if_pos hstarts]
  have hopens : (Place.body d).opens (b :: ([e, g, i, l] ++ v)) = some (d + 1) := by
    rw [Place.opens, if_pos hstarts]
  have hfirst := crosses_open hopens
  rw [hnext] at hfirst
  have hsecond : Crosses (.body (d + 1)) [e] ([g, i, l] ++ v) [] (.body (d + 1)) := by
    apply crosses_char
    · apply Bool.eq_false_iff.mpr
      intro hs
      exact Rule.not_both_letters (Rule.letter_of_startsAt rfl hs) he
    · simp [Keyword.startsAt, show Keyword.blockEnd.letters = ['E', 'N', 'D'] from rfl,
        Keyword.startsAt.go, hgn]
  have hrest : Crosses (.body (d + 1)) [g, i, l] v [] (.body (d + 1)) := by
    apply crosses_plain
    simp only [List.forall_mem_cons]
    exact ⟨hg, hi, hl, by simp⟩
  exact hfirst.append (hsecond.quiet hrest)

theorem crosses_end (h : Grammar.word .blockEnd w ()) :
    Crosses (.body d) w v [] (Place.body d).leave := by
  have hstarts := Keyword.startsAt_iff.mpr ⟨w, v, rfl, h⟩
  have hnone : Keyword.blockBegin.startsAt (w ++ v) = false :=
    Bool.eq_false_iff.mpr fun hb => Keyword.not_both hb hstarts
  obtain ⟨e, l, f, rfl, hl, hf⟩ := letters_of_end h
  change Keyword.blockEnd.startsAt (e :: ([l, f] ++ v)) = true at hstarts
  change Keyword.blockBegin.startsAt (e :: ([l, f] ++ v)) = false at hnone
  have hnext : (Place.body d).next (e :: ([l, f] ++ v)) = (Place.body d).leave := by
    rw [Place.next, if_neg (Bool.eq_false_iff.mp hnone), if_pos hstarts]
  have hfirst := crosses_step (p := .body d) (c := e) (v := [l, f] ++ v)
    (by rw [Place.opens, if_neg (Bool.eq_false_iff.mp hnone)])
  rw [hnext] at hfirst
  apply hfirst.quiet
  rw [Place.leave]
  split
  · exact crosses_behind _
  · apply crosses_plain
    simp only [List.forall_mem_cons]
    exact ⟨hl, hf, by simp⟩

/-- A block that is looked for in vain notes nothing behind the next BEGIN: that word holds its first
letter only once. -/
theorem noted_le {x : List Char} {i : Nat} {o : Outcome Unit} {m : Nat}
    (h : Placed Never (Phrase.skip (Grammar.block m)) (c :: x) i o)
    (hB : Keyword.blockBegin.startsAt (c :: x) = false)
    (hk : Keyword.blockBegin.startsAt (x.drop k) = true) : ∀ n ∈ o.notes, n.1 ≤ i + (1 + k) := by
  intro n hn
  apply Classical.byContradiction
  intro hlt
  obtain ⟨b, t, hx⟩ : ∃ b t, x.drop k = b :: t := by
    cases hx : x.drop k with
    | nil => rw [hx] at hk; exact absurd hk (by decide)
    | cons b t => exact ⟨b, t, rfl⟩
  have hlen := congrArg List.length hx
  rw [List.length_drop, List.length_cons] at hlen
  -- What is known to begin a block is cut off inside BEGIN, and so has less than five letters.
  let u := (c :: x).take (min 5 (k + 2))
  have hu : u.length = min 5 (k + 2) := by
    rw [List.length_take, List.length_cons]
    omega
  have hv : (Grammar.block m).Viable u := by
    apply viable_skip_iff.mp
    refine h.begun n hn u _ (List.take_append_drop _ _).symm ?_ (by omega) (by omega)
    exact List.ne_nil_of_length_pos (by omega)
  have hB' : Keyword.blockBegin.startsAt u = false := by
    apply Keyword.not_startsAt_of_append (y := (c :: x).drop (min 5 (k + 2)))
    rwa [List.take_append_drop]
  obtain ⟨e, r, hword⟩ := Grammar.partial_of_viable_block hv hB'
  have hfive := Keyword.length_of_word hword
  rw [List.length_append, List.length_cons, hu,
    show Keyword.blockBegin.letters.length = 5 from rfl] at hfive
  have hmem : b ∈ x.take (k + 1) := by
    rw [List.mem_take_iff_getElem]
    refine ⟨k, by omega, ?_⟩
    have hget : (x.drop k)[0]? = some b := by rw [hx]; rfl
    rw [List.getElem?_drop, Nat.add_zero] at hget
    exact (List.getElem?_eq_some_iff.mp hget).2
  have hcut : u = c :: x.take (k + 1) := by
    simp only [u, show min 5 (k + 2) = k + 2 by omega, List.take_succ_cons]
  rw [hcut] at hword
  obtain ⟨b', e', g, i', l, he, -, hE, hg, hi, hl, -⟩ := letters_of_begin hword
  rw [List.cons_append, List.cons.injEq] at he
  have hb : b ∈ [e', g, i', l] := he.2 ▸ List.mem_append_left _ hmem
  have hletter : (CharClass.letter 'B').contains b = true := by
    rw [hx] at hk
    exact Rule.letter_of_startsAt rfl hk
  simp only [List.mem_cons, List.not_mem_nil, or_false] at hb
  rcases hb with rfl | rfl | rfl | rfl
  · exact Rule.not_both_letters hletter hE
  · exact Bool.eq_false_iff.mp hg.1 hletter
  · exact Bool.eq_false_iff.mp hi.1 hletter
  · exact Bool.eq_false_iff.mp hl.1 hletter

theorem inside (h : s.Room d n) : Inside False (Rule.blockWithin n) n s :=
  .of_slice (Rule.reads_blockWithin n n s h.levels (.inl h.levels) False.elim)

def BeginsAt (s : State) (k : Nat) : Prop := Keyword.blockBegin.startsAt (s.rest.drop k) = true

theorem beginsAt_add {i : Nat} (h : BeginsAt (s.moved i) k) : BeginsAt s (i + k) := by
  rwa [BeginsAt, State.rest_moved, List.drop_drop] at h

theorem halts_at_begin (h : (Rule.blockWithin n).Stumbles s k) (hs : BeginsAt s 0) :
    Halts (bodyStep (Rule.blockWithin n)) (Rule.keyword .blockEnd) s k := by
  obtain ⟨notes, hg, hb⟩ := h
  have hstep : (bodyStep (Rule.blockWithin n)).Stumbles s k :=
    ⟨notes, Rule.gives_bodyStep_fence (Rule.gives_map hg) (.inl hs), hb⟩
  obtain ⟨more, hend, hle⟩ : (Rule.keyword .blockEnd).Fails s := by
    cases hr : s.rest with
    | nil =>
      rw [BeginsAt, hr] at hs
      exact absurd hs (by decide)
    | cons c t =>
      rw [BeginsAt, hr] at hs
      exact (Rule.reads_keyword (P := False) .blockEnd).fails (Rule.begins_word rfl) hr
        (Rule.not_both_letters (Rule.letter_of_startsAt rfl hs))
  exact hstep.halts hend fun n hn => Nat.le_add_right_of_le (hle n hn)

theorem halts_char {x : List Char} (hs : s.Room d n) (hr : s.rest = c :: x)
    (hb : Keyword.blockBegin.startsAt s.rest = false)
    (he : Keyword.blockEnd.startsAt s.rest = false)
    (h : Halts (bodyStep (Rule.blockWithin n)) (Rule.keyword .blockEnd) (s.moved 1) k)
    (hat : BeginsAt (s.moved 1) k) :
    Halts (bodyStep (Rule.blockWithin n)) (Rule.keyword .blockEnd) s (1 + k) := by
  obtain ⟨⟨found, stop, notes⟩, hg, hback, hread⟩ := inside hs
  obtain rfl : found = none := found_inside hread hb
  obtain ⟨-, rfl⟩ := hback rfl
  apply Halts.step (w := [c]) h (Rule.gives_bodyStep_char hg hr hb he) hr (by simp)
  have hbehind : (s.moved 1).rest = x := State.rest_moved_of_append (w := [c]) hr
  rw [hr] at hread hb
  rw [BeginsAt, hbehind] at hat
  exact noted_le hread.placed hb hat

structure WeighedBlock (d : Nat) (w raw : List Char) (marks : List Opening) : Prop where
  crosses : ∀ y, Crosses (.body d) w y marks (Place.body (d + 1)).leave
  judged : ∀ n s y, s.Room d n → s.rest = w ++ y → Judged s.limit (Grammar.block n w raw)
    (fun k => (Rule.blockWithin n).Stumbles s k ∧ BeginsAt s k) marks

theorem startsAt_contents (h : Grammar.word .blockEnd closing ()) {k : Keyword} (hk : k.IsFence)
    (hs : k.startsAt (c :: (v ++ closing)) = false) (y : List Char) :
    k.startsAt (c :: (v ++ (closing ++ y))) = false := by
  rw [← hs]
  have happ := Keyword.startsAt_append hk h (c :: v) y
  simpa using happ

theorem leave_body (hd : 0 < d) : (Place.body (d + 1)).leave = .body d := by
  rw [Place.leave, if_neg (by omega)]
  rfl

structure WeighedContents (d : Nat) (closing raw : List Char) (marks : List Opening) : Prop where
  crosses : ∀ y, Crosses (.body d) raw (closing ++ y) marks (.body d)
  judged : ∀ n s y, s.Room d n → s.rest = raw ++ (closing ++ y) →
    Judged s.limit (Grammar.Contents (fun u => ∃ r, Grammar.block n u r) closing raw)
      (fun k => Halts (bodyStep (Rule.blockWithin n)) (Rule.keyword .blockEnd) s k ∧
        BeginsAt s k) marks

theorem weighedContents_nil : WeighedContents d closing [] [] :=
  ⟨fun _ => crosses_nil _ _, fun _ _ _ _ _ => judged_nil .nil⟩

theorem WeighedContents.block {u v r : List Char} {first rest : List Opening} (hd : 0 < d)
    (hu : Grammar.block M u r) (hfirst : WeighedBlock d u r first)
    (hrest : WeighedContents d closing v rest) :
    WeighedContents d closing (u ++ v) (first ++ rest.map (Opening.behind u.length)) := by
  constructor
  · intro y
    have hin := hfirst.crosses (v ++ (closing ++ y))
    rw [leave_body hd] at hin
    exact hin.append (hrest.crosses y)
  · intro n s y hs hr
    rw [List.append_assoc] at hr
    have hbehind : (s.moved u.length).rest = v ++ (closing ++ y) := State.rest_moved_of_append hr
    have hbegin : Keyword.blockBegin.startsAt s.rest = true := by
      rw [hr]
      exact Grammar.startsAt_of_block hu _
    apply Judged.append (F := Grammar.block n u r)
    · apply (hfirst.judged n s _ hs hr).imp id
      rintro k ⟨hk, hat⟩
      exact ⟨halts_at_begin hk hbegin, hat⟩
    · intro hfits
      obtain ⟨notes, hg, hle⟩ :=
        (inside hs).tries.passes (a := ()) hr (skip_iff.mpr ⟨r, hfits⟩) (by simp)
      apply (hrest.judged n _ y (hs.moved _) hbehind).behind
      · exact .block ⟨r, hfits⟩
      · rintro k ⟨hk, hat⟩
        refine ⟨hk.step hg.orElse_some hr ?_ ?_, beginsAt_add hat⟩
        · exact List.ne_nil_of_length_pos (Grammar.length_of_block_pos hu)
        · exact fun n hn => Nat.le_trans (hle n hn) (by omega)

theorem WeighedContents.char {v : List Char} {marks : List Opening}
    (hc : Grammar.word .blockEnd closing ())
    (hb : Keyword.blockBegin.startsAt (c :: (v ++ closing)) = false)
    (he : Keyword.blockEnd.startsAt (c :: (v ++ closing)) = false)
    (hrest : WeighedContents d closing v marks) :
    WeighedContents d closing (c :: v) (marks.map (Opening.behind 1)) := by
  constructor
  · intro y
    exact (crosses_char (startsAt_contents hc (.inl rfl) hb y)
      (startsAt_contents hc (.inr rfl) he y)).append_quiet (hrest.crosses y)
  · intro n s y hs hr
    have hbehind : (s.moved 1).rest = v ++ (closing ++ y) :=
      State.rest_moved_of_append (w := [c]) hr
    have hb' : Keyword.blockBegin.startsAt s.rest = false := by
      rw [hr]
      exact startsAt_contents hc (.inl rfl) hb y
    have he' : Keyword.blockEnd.startsAt s.rest = false := by
      rw [hr]
      exact startsAt_contents hc (.inr rfl) he y
    apply (hrest.judged n _ y (hs.moved 1) hbehind).behind
    · exact .char hb he
    · rintro k ⟨hk, hat⟩
      exact ⟨halts_char hs hr hb' he' hk hat, beginsAt_add hat⟩

theorem weighed_contents (hd : 0 < d) (hc : Grammar.word .blockEnd closing ())
    (hinner : ∀ u r, Grammar.block M u r → ∃ marks, WeighedBlock d u r marks)
    (h : Grammar.Contents (fun u => ∃ r, Grammar.block M u r) closing raw) :
    ∃ marks, WeighedContents d closing raw marks := by
  induction h with
  | nil => exact ⟨[], weighedContents_nil⟩
  | block hu _ ih =>
    obtain ⟨r, hu⟩ := hu
    obtain ⟨first, hfirst⟩ := hinner _ r hu
    obtain ⟨rest, hrest⟩ := ih
    exact ⟨_, hrest.block hd hu hfirst⟩
  | char hb he _ ih =>
    obtain ⟨marks, hrest⟩ := ih
    exact ⟨_, hrest.char hc hb he⟩

theorem stumbles_block {opening z : List Char} (hs : s.Room d (n + 1))
    (hr : s.rest = opening ++ z) (ho : Grammar.word .blockBegin opening ())
    (h : Halts (bodyStep (Rule.blockWithin n)) (Rule.keyword .blockEnd)
      (s.deeper.moved opening.length) k) :
    (Rule.blockWithin (n + 1)).Stumbles s (opening.length + k) := by
  change (Rule.blockAround (Rule.blockWithin n)).Stumbles s _
  rw [Rule.blockAround_eq]
  have hword : (Rule.keyword .blockBegin).Passes s.deeper () opening.length :=
    (Rule.reads_keyword (P := False) .blockBegin).tries.passes (s := s.deeper) hr ho (by simp)
  have hbody : (Rule.bodyOf (Rule.blockWithin n)).Trips (s.deeper.moved opening.length) k := by
    obtain ⟨j, notes, hg, hb⟩ := h.trips (f := fun _ => Rule.cursor >>= fun stop =>
      Rule.keyword .blockEnd >>= fun _ => pure (⟨s.cursor + opening.length, stop⟩ : Span))
      fun _ _ _ _ hg => Rule.Gives.from_cursor hg.bind_none
    exact ⟨j, notes, Rule.Gives.from_cursor hg, hb⟩
  exact (hword.trips hbody).attempt.nested hs.lt

theorem weighed_block : ∀ {M d : Nat} {w raw : List Char}, Grammar.block M w raw →
    ∃ marks, WeighedBlock d w raw marks
  | 0, _, _, _, h => h.elim
  | M + 1, d, w, raw, h => by
    obtain ⟨opening, closing, rfl, ho, hc, hcontents⟩ := h
    obtain ⟨marks, hbody⟩ := weighed_contents (Nat.succ_pos d) hc
      (fun _ _ hu => weighed_block hu) hcontents
    refine ⟨⟨0, d + 1⟩ :: marks.map (Opening.behind opening.length), ?_, ?_⟩
    · intro y
      have hin := (crosses_begin (d := d) ho).append (hbody.crosses y)
      simpa using hin.append (crosses_end (v := y) hc)
    · intro n s y hs hr
      have hat : BeginsAt s 0 := by
        rw [BeginsAt, hr]
        exact Keyword.startsAt_iff.mpr ⟨opening, raw ++ (closing ++ y), by simp, ho⟩
      cases n with
      | zero =>
        apply judged_first
        · rw [hs.limit]
        · refine ⟨?_, hat⟩
          change (Rule.blockAround Rule.never).Stumbles s 0
          exact Rule.stumbles_nested (by rw [hs.limit, hs.depth]; exact Nat.le_refl d)
      | succ n =>
        apply Judged.cons
        · rw [hs.limit]
          simp only
          omega
        · have hr' : s.rest = opening ++ (raw ++ (closing ++ y)) := by simpa using hr
          have hin : (s.deeper.moved opening.length).rest = raw ++ (closing ++ y) :=
            State.rest_moved_of_append (s := s.deeper) hr'
          apply (hbody.judged n _ y (hs.deeper.moved _) hin).behind
          · exact fun hfits => ⟨opening, closing, rfl, ho, hc, hfits⟩
          · rintro k ⟨hk, hk'⟩
            exact ⟨stumbles_block hs hr' ho hk, beginsAt_add (s := s.deeper) hk'⟩

end FuncScript.Nesting

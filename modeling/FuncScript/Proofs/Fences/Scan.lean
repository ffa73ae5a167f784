import FuncScript.Proofs.Moments

/-!
Blocks by counting. One run over what stands behind BEGIN, up one at each BEGIN and down one at each
END, finds the END that closes the block, and it keeps to the limit just where the rule for blocks,
which looks for a block at every character, does.
-/

namespace FuncScript

namespace Fences

inductive Mark where
  | opening
  | closing
  | other
  deriving DecidableEq, Repr

namespace Mark

def width : Mark → Nat
  | opening => 5
  | closing => 3
  | other => 1

def count (counter : Nat) : Mark → Nat
  | opening => counter + 1
  | closing => counter - 1
  | other => counter

def of (text : List Char) : Mark :=
  if Keyword.blockBegin.startsAt text then opening
  else if Keyword.blockEnd.startsAt text then closing
  else other

end Mark

/-- The marks of a text whose first characters belong to a mark that came before. -/
def marksBehind : Nat → List Char → List Mark
  | _, [] => []
  | n + 1, _ :: text => marksBehind n text
  | 0, c :: text => Mark.of (c :: text) :: marksBehind ((Mark.of (c :: text)).width - 1) text

def marks : List Char → List Mark := marksBehind 0

/-- How many characters are passed until the counter is at zero, if it gets there before the end and
keeps to the limit on the way. -/
def scan (depth limit : Nat) : Nat → List Mark → Option Nat
  | 0, _ => some 0
  | _ + 1, [] => none
  | counter + 1, m :: ms =>
    if depth + (counter + 1) ≤ limit then
      (scan depth limit (m.count (counter + 1)) ms).map (m.width + ·)
    else none

variable {depth limit counter n : Nat} {x y z w raw : List Char} {m : Mark} {ms : List Mark}

theorem marksBehind_eq : ∀ (n : Nat) (x : List Char), marksBehind n x = marks (x.drop n)
  | 0, _ => rfl
  | _ + 1, [] => rfl
  | n + 1, _ :: x => marksBehind_eq n x

theorem marks_cons (c : Char) (x : List Char) :
    marks (c :: x) = Mark.of (c :: x) :: marks ((c :: x).drop (Mark.of (c :: x)).width) := by
  have hwidth : (Mark.of (c :: x)).width = (Mark.of (c :: x)).width - 1 + 1 := by
    cases Mark.of (c :: x) <;> rfl
  rw [hwidth, List.drop_succ_cons]
  exact congrArg _ (marksBehind_eq _ _)

theorem marks_of (hx : x ≠ []) : marks x = Mark.of x :: marks (x.drop (Mark.of x).width) := by
  cases x with
  | nil => exact absurd rfl hx
  | cons c x => exact marks_cons c x

theorem marks_opening (h : Grammar.word .blockBegin w ()) (y : List Char) :
    marks (w ++ y) = .opening :: marks y := by
  have hlen : w.length = 5 := Keyword.length_of_word h
  have hof : Mark.of (w ++ y) = .opening := if_pos (Keyword.startsAt_iff.mpr ⟨w, y, rfl, h⟩)
  rw [marks_of (List.append_ne_nil_of_left_ne_nil (by simp [← List.length_pos_iff, hlen]) y), hof]
  exact congrArg (fun z => Mark.opening :: marks z) (List.drop_left' hlen)

theorem marks_closing (h : Grammar.word .blockEnd w ()) (y : List Char) :
    marks (w ++ y) = .closing :: marks y := by
  have hlen : w.length = 3 := Keyword.length_of_word h
  have hend : Keyword.blockEnd.startsAt (w ++ y) = true := Keyword.startsAt_iff.mpr ⟨w, y, rfl, h⟩
  have hbegin : ¬ Keyword.blockBegin.startsAt (w ++ y) = true := fun hb => Keyword.not_both hb hend
  have hof : Mark.of (w ++ y) = .closing := by rw [Mark.of, if_neg hbegin, if_pos hend]
  rw [marks_of (List.append_ne_nil_of_left_ne_nil (by simp [← List.length_pos_iff, hlen]) y), hof]
  exact congrArg (fun z => Mark.closing :: marks z) (List.drop_left' hlen)

theorem marks_other {c : Char} (hb : Keyword.blockBegin.startsAt (c :: x) = false)
    (he : Keyword.blockEnd.startsAt (c :: x) = false) : marks (c :: x) = .other :: marks x := by
  have hof : Mark.of (c :: x) = .other := by simp [Mark.of, hb, he]
  rw [marks_cons, hof]
  rfl

@[simp] theorem scan_zero (ms : List Mark) : scan depth limit 0 ms = some 0 := by
  cases ms <;> rfl

theorem scan_cons (h : depth + (counter + 1) ≤ limit) : scan depth limit (counter + 1) (m :: ms) =
    (scan depth limit (m.count (counter + 1)) ms).map (m.width + ·) := if_pos h

theorem le_limit_of_scan (h : scan depth limit (counter + 1) ms = some n) :
    depth + (counter + 1) ≤ limit := by
  cases ms with
  | nil => simp [scan] at h
  | cons m ms =>
    apply Classical.byContradiction
    intro hlt
    simp [scan, if_neg hlt] at h

theorem map_add_map (k l : Nat) (o : Option Nat) :
    (o.map (l + ·)).map (k + ·) = o.map (k + l + ·) := by
  simp [Function.comp_def, Nat.add_assoc]

theorem scan_opening (h : Grammar.word .blockBegin w ()) (hle : depth + (counter + 1) ≤ limit)
    (y : List Char) : scan depth limit (counter + 1) (marks (w ++ y)) =
      (scan depth limit (counter + 2) (marks y)).map (w.length + ·) := by
  rw [marks_opening h, scan_cons hle, Keyword.length_of_word h]
  rfl

theorem scan_closing (h : Grammar.word .blockEnd w ()) (hle : depth + (counter + 1) ≤ limit)
    (y : List Char) : scan depth limit (counter + 1) (marks (w ++ y)) =
      (scan depth limit counter (marks y)).map (w.length + ·) := by
  rw [marks_closing h, scan_cons hle, Keyword.length_of_word h]
  rfl

theorem scan_other {c : Char} (hb : Keyword.blockBegin.startsAt (c :: x) = false)
    (he : Keyword.blockEnd.startsAt (c :: x) = false) (hle : depth + (counter + 1) ≤ limit) :
    scan depth limit (counter + 1) (marks (c :: x)) =
      (scan depth limit (counter + 1) (marks x)).map (1 + ·) := by
  rw [marks_other hb he, scan_cons hle]
  rfl

theorem scan_body {levels : Nat} (h : Grammar.body levels w raw)
    (hle : depth + (counter + 1) + levels ≤ limit) (y : List Char) :
    scan depth limit (counter + 1) (marks (w ++ y)) =
      (scan depth limit counter (marks y)).map (w.length + ·) := by
  -- On the length: the run goes through the block inside and then the rest, both with other counters.
  induction hn : w.length using Nat.strongRecOn generalizing w raw y counter levels with
  | ind k ih =>
    have hlimit : depth + (counter + 1) ≤ limit := by omega
    rcases Grammar.body_cases h y with ⟨-, hend, rfl⟩ | ⟨-, u, r, v, z, hu, hv, rfl, rfl⟩ |
      ⟨hb, he, c, v, z, hv, rfl, rfl⟩
    · rw [scan_closing hend hlimit, hn]
    · -- The block inside goes up by one and down again, and the rest of the body down once more.
      have hpos := Grammar.length_of_block_pos hu
      obtain ⟨levels, rfl⟩ := Nat.exists_eq_add_one.mpr (Grammar.pos_of_block hu)
      rw [Grammar.block_succ] at hu
      obtain ⟨opening, body, _, rfl, hopen, hbody⟩ := hu
      have hfive : opening.length = 5 := Keyword.length_of_word hopen
      simp only [List.length_append] at hn hpos
      have hinside : scan depth limit (counter + 2) (marks (body ++ (v ++ y))) =
          (scan depth limit (counter + 1) (marks (v ++ y))).map (body.length + ·) :=
        ih body.length (by omega) hbody (by omega) (v ++ y) rfl
      have hrest := ih v.length (by omega) hv hle y rfl
      rw [List.append_assoc, List.append_assoc, scan_opening hopen hlimit, hinside, hrest,
        map_add_map, map_add_map, hn]
    · rw [List.length_cons] at hn
      have hrest := ih v.length (by omega) hv hle y rfl
      rw [List.cons_append] at hb he ⊢
      rw [scan_other hb he hlimit, hrest, map_add_map, ← hn, Nat.add_comm 1]

theorem body_of_scan (h : scan depth limit (counter + 1) (marks x) = some n) :
    ∃ w y raw, x = w ++ y ∧ Grammar.body (limit - (depth + (counter + 1))) w raw := by
  induction hk : x.length using Nat.strongRecOn generalizing x counter n with
  | ind k ih =>
    have hle := le_limit_of_scan h
    cases hB : Keyword.blockBegin.startsAt x with
    | true =>
      obtain ⟨opening, z, rfl, hopen⟩ := Keyword.startsAt_iff.mp hB
      have hfive : opening.length = 5 := Keyword.length_of_word hopen
      rw [scan_opening hopen hle] at h
      obtain ⟨inside, hinside, -⟩ := Option.map_eq_some_iff.mp h
      have hdeep := le_limit_of_scan hinside
      rw [List.length_append] at hk
      obtain ⟨body, y, r, rfl, hbody⟩ := ih z.length (by omega) hinside rfl
      have hblock : Grammar.block (limit - (depth + (counter + 1))) (opening ++ body) r := by
        rw [show limit - (depth + (counter + 1)) = limit - (depth + (counter + 2)) + 1 by omega]
        exact Grammar.block_of_body hopen hbody
      -- Behind the block inside the counter is where it was, and the run goes on from there.
      rw [scan_body hbody (by omega)] at hinside
      obtain ⟨rest, hrest, -⟩ := Option.map_eq_some_iff.mp hinside
      rw [List.length_append] at hk
      obtain ⟨w, y, raw, rfl, hw⟩ := ih y.length (by omega) hrest rfl
      exact ⟨_, y, _, by simp, Grammar.body_block hblock hw⟩
    | false =>
      cases hE : Keyword.blockEnd.startsAt x with
      | true =>
        obtain ⟨w, y, rfl, hw⟩ := Keyword.startsAt_iff.mp hE
        exact ⟨w, y, [], rfl, Grammar.body_end hw⟩
      | false =>
        cases x with
        | nil => simp [marks, marksBehind, scan] at h
        | cons c x =>
          rw [scan_other hB hE hle] at h
          obtain ⟨rest, hrest, -⟩ := Option.map_eq_some_iff.mp h
          rw [List.length_cons] at hk
          obtain ⟨w, y, raw, rfl, hw⟩ := ih x.length (by omega) hrest rfl
          exact ⟨c :: w, y, _, rfl, Grammar.body_char hB hE hw⟩

theorem scan_eq_some_iff : scan depth limit 1 (marks z) = some n ↔
    depth < limit ∧ ∃ w y raw, z = w ++ y ∧ w.length = n ∧
      Grammar.body (limit - (depth + 1)) w raw := by
  constructor
  · intro h
    have hle := le_limit_of_scan h
    obtain ⟨w, y, raw, rfl, hw⟩ := body_of_scan h
    rw [scan_body hw (by omega), scan_zero] at h
    exact ⟨hle, w, y, raw, rfl, Option.some.inj h, hw⟩
  · rintro ⟨hlt, w, y, raw, rfl, rfl, hw⟩
    rw [scan_body hw (by omega), scan_zero]
    rfl

theorem body_of_block {levels : Nat} {u : List Char} (h : Grammar.word .blockBegin w ())
    (hu : Grammar.block levels u raw) (he : w ++ z = u ++ y) :
    ∃ l v, levels = l + 1 ∧ z = v ++ y ∧ Grammar.body l v raw := by
  obtain ⟨l, rfl⟩ := Nat.exists_eq_add_one.mpr (Grammar.pos_of_block hu)
  rw [Grammar.block_succ] at hu
  obtain ⟨opening, v, _, rfl, hopen, hv⟩ := hu
  have hlen : w.length = opening.length := by
    rw [Keyword.length_of_word h, Keyword.length_of_word hopen]
  rw [List.append_assoc] at he
  exact ⟨l, v, rfl, (List.append_inj he hlen).2, hv⟩

end Fences

variable {s t : State}

theorem Rule.cursor_of_keyword {k : Keyword} (h : keyword k s = (some (), t)) :
    t.cursor = s.cursor + k.letters.length := by
  obtain ⟨w, y, -, hw, hstop⟩ := (reads_keyword (P := False) k).tries.word_of_run h
  rw [← Keyword.length_of_word hw]
  exact hstop

namespace Plan

theorem fences_of_blockAround {inner : Plan Span} {span : Span}
    (h : (blockAround inner).rule s = (some span, t)) :
    span.start = s.cursor + 5 ∧ span.stop + 3 = t.cursor := by
  obtain ⟨s₀, h, ht, -⟩ := found_nested h
  obtain ⟨_, s₁, hopen, h⟩ := found_bind (found_attempt h)
  obtain ⟨_, _, hstart, h⟩ := found_bind h
  cases hstart
  obtain ⟨_, s₂, -, h⟩ := found_bind h
  obtain ⟨_, _, hstop, h⟩ := found_bind h
  cases hstop
  obtain ⟨_, s₃, hclose, hspan⟩ := found_bind h
  cases hspan
  rw [rule_keyword] at hopen hclose
  exact ⟨Rule.cursor_of_keyword hopen, ht ▸ (Rule.cursor_of_keyword hclose).symm⟩

theorem fences_of_block {span : Span} (h : block.rule s = (some span, t)) :
    span.start = s.cursor + 5 ∧ span.stop + 3 = t.cursor := by
  change (blockWithin (s.limit - s.depth)).rule s = _ at h
  cases hn : s.limit - s.depth <;> rw [hn] at h <;> exact fences_of_blockAround h

end Plan

namespace Rule

theorem block_slice (s : State) : (block >>= slice) s =
    ((block s).1.map fun span => ((block s).2.text.extract span.start span.stop).toList,
      (block s).2) := by
  rcases hrun : block s with ⟨_ | span, t⟩
  · exact bind_of_none hrun
  · exact bind_of_some hrun

theorem block_eq_scan (s : State) (h : Keyword.blockBegin.startsAt s.rest = true) :
    (∀ n, Fences.scan s.depth s.limit 1 (Fences.marks (s.rest.drop 5)) = some n →
      3 ≤ n ∧ Keyword.blockEnd.startsAt (s.rest.drop (5 + (n - 3))) = true ∧
        (block s).1 = some ⟨s.cursor + 5, s.cursor + 5 + (n - 3)⟩ ∧
          (block s).2.cursor = s.cursor + 5 + n) ∧
    (Fences.scan s.depth s.limit 1 (Fences.marks (s.rest.drop 5)) = none →
      (block s).1 = none ∧ (block s).2.cursor = s.cursor) := by
  obtain ⟨opening, z, hrest, hopen⟩ := Keyword.startsAt_iff.mp h
  have hfive : opening.length = 5 := Keyword.length_of_word hopen
  have hz : s.rest.drop 5 = z := by rw [hrest, List.drop_left' hfive]
  have hreads := reads_block (P := False) (s := s) (.inl rfl) False.elim
  rw [hz]
  constructor
  · intro n hn
    obtain ⟨hlt, w, y, raw, rfl, rfl, hbody⟩ := Fences.scan_eq_some_iff.mp hn
    have hword : Grammar.block (s.limit - s.depth) (opening ++ w) raw := by
      rw [show s.limit - s.depth = s.limit - (s.depth + 1) + 1 by omega, Grammar.block_succ]
      exact Phrase.bind_mk hopen hbody
    obtain ⟨hfound, hcursor⟩ := hreads.run_word (y := y) (by simp [hrest]) hword
    rw [block_slice] at hfound hcursor
    change (block s).2.cursor = _ at hcursor
    obtain ⟨span, hspan, -⟩ := Option.map_eq_some_iff.mp hfound
    have hrun : Plan.block.rule s = (some span, (block s).2) := by
      rw [Plan.rule_block]
      exact Prod.ext hspan rfl
    -- The grammar gives the text of the block; where it lies follows from its two keywords.
    obtain ⟨hstart, hend⟩ := Plan.fences_of_block hrun
    have hlen := Grammar.length_of_body hbody
    obtain ⟨closing, rfl, hclosing, -⟩ := hbody
    rw [List.length_append] at hcursor
    refine ⟨by omega, ?_, ?_, by omega⟩
    · rw [hlen, Nat.add_sub_cancel, ← List.drop_drop, hz, List.append_assoc, List.drop_left]
      exact Keyword.startsAt_iff.mpr ⟨closing, y, rfl, hclosing⟩
    · rw [hspan, Option.some.injEq]
      obtain ⟨start, stop⟩ := span
      simp only at hstart hend hcursor
      rw [Span.mk.injEq]
      omega
  · intro hnone
    have hmissing : ((block >>= slice) s).1 = none ∧ ((block >>= slice) s).2.cursor = s.cursor := by
      apply hreads.run_none
      intro u y raw he hword
      obtain ⟨levels, w, hlevels, rfl, hbody⟩ :=
        Fences.body_of_block hopen hword (hrest.symm.trans he)
      obtain rfl : levels = s.limit - (s.depth + 1) := by omega
      have hsome := Fences.scan_eq_some_iff.mpr ⟨by omega, w, y, raw, rfl, rfl, hbody⟩
      exact absurd (hnone.symm.trans hsome) (by simp)
    rw [block_slice] at hmissing
    exact ⟨Option.map_eq_none_iff.mp hmissing.1, hmissing.2⟩

theorem block_eq_scan_glued :
    let s : State := { text := "xBEGIN BeginEND append END".toList.toArray, cursor := 1, limit := 2 }
    Keyword.blockBegin.startsAt s.rest = true ∧
      Fences.scan s.depth s.limit 1 (Fences.marks (s.rest.drop 5)) = some 16 ∧
        (block s).1 = some ⟨6, 19⟩ ∧ (block s).2.cursor = 22 ∧
          (block { s with depth := 1 }).1 = none := by
  intro s
  have hbegin : Keyword.blockBegin.startsAt s.rest = true := by decide
  have hscan : Fences.scan s.depth s.limit 1 (Fences.marks (s.rest.drop 5)) = some 16 := by decide
  have hdeep : Fences.scan 1 s.limit 1 (Fences.marks (s.rest.drop 5)) = none := by decide
  obtain ⟨-, -, hspan, hcursor⟩ := (block_eq_scan s hbegin).1 16 hscan
  exact ⟨hbegin, hscan, hspan, hcursor, ((block_eq_scan { s with depth := 1 } hbegin).2 hdeep).1⟩

end Rule

end FuncScript

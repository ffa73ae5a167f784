import FuncScript.Proofs.Boundary
import FuncScript.Proofs.Fences.Scan
import FuncScript.Proofs.LineBreak.Text
import FuncScript.Proofs.RoundTrip

/-!
Texts that a script can have for its body. A text on one line in which each END closes a BEGIN and
each BEGIN is closed is kept as it is, between one blank and another, and no body is on more than one
line.
-/

namespace FuncScript

namespace Fences

/-- How many blocks are open at most, if each END closes a BEGIN and each BEGIN is closed. -/
def nesting : Nat → List Mark → Option Nat
  | 0, [] => some 0
  | _ + 1, [] => none
  | level, .opening :: ms => (nesting (level + 1) ms).map (max (level + 1))
  | 0, .closing :: _ => none
  | level + 1, .closing :: ms => nesting level ms
  | level, .other :: ms => nesting level ms

def extent : List Mark → Nat
  | [] => 0
  | m :: ms => m.width + extent ms

variable {depth limit level levels n : Nat} {b raw closing : List Char} {ms : List Mark}

theorem marks_induction {motive : List Char → Prop} (nil : motive [])
    (opening : ∀ w y, Grammar.word .blockBegin w () → motive y → motive (w ++ y))
    (closing : ∀ w y, Grammar.word .blockEnd w () → motive y → motive (w ++ y))
    (other : ∀ c x, Keyword.blockBegin.startsAt (c :: x) = false →
      Keyword.blockEnd.startsAt (c :: x) = false → motive x → motive (c :: x)) (x : List Char) :
    motive x := by
  induction hn : x.length using Nat.strongRecOn generalizing x with
  | ind n ih =>
    have hbehind : ∀ {k : Keyword} {w y}, Grammar.word k w () → x = w ++ y → 0 < k.letters.length →
        motive y := by
      intro k w y hw he hk
      have hlen := congrArg List.length he
      rw [List.length_append, Keyword.length_of_word hw] at hlen
      exact ih y.length (by omega) y rfl
    cases hB : Keyword.blockBegin.startsAt x with
    | true =>
      obtain ⟨w, y, he, hw⟩ := Keyword.startsAt_iff.mp hB
      exact he ▸ opening w y hw (hbehind hw he (by decide))
    | false =>
      cases hE : Keyword.blockEnd.startsAt x with
      | true =>
        obtain ⟨w, y, he, hw⟩ := Keyword.startsAt_iff.mp hE
        exact he ▸ closing w y hw (hbehind hw he (by decide))
      | false =>
        cases x with
        | nil => exact nil
        | cons c x =>
          rw [List.length_cons] at hn
          exact other c x hB hE (ih x.length (by omega) x rfl)

theorem extent_marks (x : List Char) : extent (marks x) = x.length := by
  induction x using marks_induction with
  | nil => rfl
  | opening w y hw ih =>
    rw [marks_opening hw, extent, ih, List.length_append, Keyword.length_of_word hw]
    rfl
  | closing w y hw ih =>
    rw [marks_closing hw, extent, ih, List.length_append, Keyword.length_of_word hw]
    rfl
  | other c x hb he ih =>
    rw [marks_other hb he, extent, ih, List.length_cons, Nat.add_comm]
    rfl

theorem marks_append_space (x t : List Char) :
    marks (x ++ ' ' :: t) = marks x ++ .other :: marks t := by
  induction x using marks_induction with
  | nil =>
    have hb : Keyword.blockBegin.startsAt (' ' :: t) = false := Keyword.startsAt_space (.inl rfl) [] t
    have he : Keyword.blockEnd.startsAt (' ' :: t) = false := Keyword.startsAt_space (.inr rfl) [] t
    exact marks_other hb he
  | opening w y hw ih => rw [List.append_assoc, marks_opening hw, marks_opening hw, ih, List.cons_append]
  | closing w y hw ih => rw [List.append_assoc, marks_closing hw, marks_closing hw, ih, List.cons_append]
  | other c x hb he ih =>
    have hb' := (Keyword.startsAt_space (.inl rfl) (c :: x) t).trans hb
    have he' := (Keyword.startsAt_space (.inr rfl) (c :: x) t).trans he
    rw [marks_other hb he, List.cons_append, List.cons_append, ← ih]
    exact marks_other hb' he'

theorem scan_append (h : nesting level ms = some n) (hn : depth + 1 + n ≤ limit)
    (hlevel : depth + 1 + level ≤ limit) (rest : List Mark) :
    scan depth limit (level + 1) (ms ++ rest) =
      (scan depth limit 1 rest).map (extent ms + ·) := by
  induction ms generalizing level n with
  | nil =>
    cases level with
    | zero => simp [extent]
    | succ level => simp [nesting] at h
  | cons m ms ih =>
    rw [List.cons_append, scan_cons (by omega), extent, ← map_add_map]
    congr 1
    cases m with
    | opening =>
      rw [nesting] at h
      obtain ⟨k, hk, rfl⟩ := Option.map_eq_some_iff.mp h
      exact ih hk (by omega) (by omega)
    | closing =>
      cases level with
      | zero => simp [nesting] at h
      | succ level => exact ih h hn (by omega)
    | other =>
      rw [nesting] at h
      exact ih h hn hlevel

theorem body_of_passed (hclosing : closing.length = 3)
    (h : scan depth limit 1 (marks (raw ++ closing)) = some (raw ++ closing).length) :
    Grammar.body (limit - (depth + 1)) (raw ++ closing) raw := by
  obtain ⟨-, w, y, raw', he, hlen, hbody⟩ := scan_eq_some_iff.mp h
  obtain rfl : y = [] := by
    have hsum : (raw ++ closing).length = w.length + y.length := by rw [he, List.length_append]
    exact List.eq_nil_of_length_eq_zero (by omega)
  rw [List.append_nil] at he
  rw [← he] at hbody
  obtain ⟨closing', hclosing', hword, -⟩ := id hbody
  have hsame : closing.length = closing'.length := by
    rw [hclosing, Keyword.length_of_word hword]
    rfl
  obtain ⟨rfl, -⟩ := List.append_inj' hclosing' hsame
  exact hbody

theorem body_of_nesting (h : nesting 0 (marks b) = some n) (hn : n ≤ levels) :
    Grammar.body levels ((' ' :: (b ++ [' '])) ++ "END".toList) (' ' :: (b ++ [' '])) := by
  -- The blanks keep a last part of a keyword in the text apart from the END behind it.
  have hmarks : marks ((' ' :: (b ++ [' '])) ++ "END".toList) =
      .other :: (marks b ++ [.other, .closing]) := by
    have hspace := marks_append_space b "END".toList
    rw [List.cons_append, List.append_assoc, List.singleton_append]
    exact (marks_append_space [] _).trans (congrArg (Mark.other :: ·) hspace)
  have hlast : scan 0 (levels + 1) 1 [.other, .closing] = some 4 := by
    rw [scan_cons (by omega)]
    change (scan 0 (levels + 1) 1 [.closing]).map (1 + ·) = _
    rw [scan_cons (by omega)]
    rfl
  have hscan : scan 0 (levels + 1) 1 (marks ((' ' :: (b ++ [' '])) ++ "END".toList)) =
      some ((' ' :: (b ++ [' '])) ++ "END".toList).length := by
    rw [hmarks, scan_cons (by omega)]
    change (scan 0 (levels + 1) (0 + 1) _).map (1 + ·) = _
    rw [scan_append h (by omega) (by omega), extent_marks, hlast]
    have hend : "END".toList.length = 3 := rfl
    simp only [Option.map_some, List.length_append, List.length_cons, List.length_nil, hend]
    congr 1
    omega
  exact body_of_passed rfl hscan

theorem joinLinesOnto_of_not_mem : ∀ (x acc : List Char), '\n' ∉ x →
    Body.joinLinesOnto acc x = acc.reverse ++ x
  | [], acc, _ => (List.append_nil _).symm
  | c :: x, acc, h => by
    have hc : '\n' ≠ c := List.ne_of_not_mem_cons h
    have hx : '\n' ∉ x := List.not_mem_of_not_mem_cons h
    have hhead : x.head? ≠ some '\n' := fun hx' => hx (List.mem_of_head? hx')
    rw [Body.joinLinesOnto_of_ne hc.symm fun _ => hhead, joinLinesOnto_of_not_mem x _ hx]
    simp

theorem not_mem_joinLinesOnto (x acc : List Char) (h : '\n' ∉ acc) :
    '\n' ∉ Body.joinLinesOnto acc x := by
  induction acc, x using Body.joinLinesOnto.induct with
  | case1 acc => rwa [Body.joinLinesOnto, List.mem_reverse]
  | case2 acc rest ih | case3 acc rest ih =>
    rw [Body.joinLinesOnto]
    exact ih h
  | case4 acc c rest hbreak hc ih =>
    have hc' : '\n' ≠ c := fun he => hc he.symm
    rw [Body.joinLinesOnto]
    · exact ih (List.not_mem_cons_of_ne_of_not_mem hc' h)
    · exact hbreak
    · exact hc

theorem tidy_between_spaces (h : '\n' ∉ b) : Body.tidy (' ' :: (b ++ [' '])) = b := by
  have hleading : Body.dropLeading (' ' :: (b ++ [' '])) = b ++ [' '] := rfl
  have htrailing : Body.dropTrailing (b ++ [' ']) = b := by
    rw [LineBreak.dropTrailing_concat]
    exact List.reverse_reverse b
  rw [Body.tidy, hleading, htrailing]
  exact joinLinesOnto_of_not_mem b [] h

theorem not_mem_tidy (raw : List Char) : '\n' ∉ Body.tidy raw :=
  not_mem_joinLinesOnto _ [] List.not_mem_nil

end Fences

namespace Script

variable {options : Options} {n : Nat}

theorem script_embedded {b : List Char} {levels : Nat} (hb : '\n' ∉ b)
    (h : Fences.nesting 0 (Fences.marks b) = some n) (hn : n + 1 ≤ levels) :
    Grammar.script levels ("FUNC F () BEGIN ".toList ++ (b ++ " END @k=\"v\";".toList))
      ⟨"F", [], String.ofList b, [("k", "v")]⟩ := by
  obtain ⟨m, rfl⟩ := Nat.exists_eq_add_one.mpr (show 0 < levels by omega)
  have hname : IsName "F" := ⟨'F', [], by decide, by decide, by simp⟩
  have hempty : (Value.object []).Expressible :=
    .object List.nodup_nil (by simp) (by simp)
  have hbegin : Grammar.word .blockBegin "BEGIN".toList () :=
    Keyword.word_of_startsAt (by decide) (by decide)
  have hblock : Grammar.block (m + 1)
      ("BEGIN".toList ++ ((' ' :: (b ++ [' '])) ++ "END".toList)) (' ' :: (b ++ [' '])) :=
    Grammar.block_of_body hbegin (Fences.body_of_nesting h (by omega))
  have hone : (Value.object []).nesting ≤ m + 1 := by simp [Value.nesting, Value.fieldsNesting]
  have hscript := script_written hname hempty hone hblock
  rw [Fences.tidy_between_spaces hb] at hscript
  have hquote : Quoted.quote ['v'] = ['"', 'v', '"'] := by decide
  simpa [Value.text, hquote] using hscript

/-- A balanced text on one line is read back from a script around it by all options that allow one
level more than it has, and what is read of any script is on one line. -/
theorem parse_embedded (options : Options) :
    (∀ (b : String) (n : Nat), options.startRule = none ∨ options.startRule = some startRule →
      '\n' ∉ b.toList → Fences.nesting 0 (Fences.marks b.toList) = some n →
        n + 1 ≤ options.maxDepth →
          parse options ("FUNC F () BEGIN " ++ b ++ " END @k=\"v\";") =
            .ok ⟨"F", [], b, [("k", "v")]⟩) ∧
    ∀ (text : String) (d : Definition), parse options text = .ok d → '\n' ∉ d.body.toList := by
  constructor
  · intro b n h hb hnesting hn
    rw [parse_ok_iff_read h, read_ok_iff]
    have hscript := script_embedded hb hnesting hn
    rw [String.ofList_toList] at hscript
    rw [String.toList_append, String.toList_append, List.append_assoc]
    exact hscript
  · intro text d hd
    have h := start_of_ok hd
    rw [parse_ok_iff_read h, read_ok_iff] at hd
    obtain ⟨_, _, _, raw, _, -, -, -, hraw, -⟩ := parts_of_script hd
    rw [hraw, String.toList_ofList]
    exact Fences.not_mem_tidy raw

theorem parse_embedded_glued :
    let b := "\tBeginEND \rap @a=\"q\"; bEGI EN "
    '\n' ∉ b.toList ∧ Fences.nesting 0 (Fences.marks b.toList) = some 1 ∧
      parse ⟨none, 2⟩ ("FUNC F () BEGIN " ++ b ++ " END @k=\"v\";") = .ok ⟨"F", [], b, [("k", "v")]⟩ ∧
        '\n' ∉ b.toList := by
  intro b
  have hb : '\n' ∉ b.toList := by decide
  have hnesting : Fences.nesting 0 (Fences.marks b.toList) = some 1 := by decide
  have hok := (parse_embedded ⟨none, 2⟩).1 b 1 (.inl rfl) hb hnesting (Nat.le_refl 2)
  exact ⟨hb, hnesting, hok, (parse_embedded ⟨none, 2⟩).2 _ _ hok⟩

end Script

end FuncScript

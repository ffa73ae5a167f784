import FuncScript.Proofs.Complaints

/-!
The end of a script. No script begins another: what stands behind one is refused where it starts, and
a text that breaks off inside one is refused where it ends.
-/

namespace FuncScript.Script

variable {options : Options} {text : String} {x y : List Char} {d : Definition} {M : Nat}
  {e : SyntaxError} {o : Outcome Definition}

theorem exists_outcome (h : 0 < M) (x : List Char) :
    ∃ o, Rule.definition.Gives (start M x) o ∧ Reading False Never (Grammar.script M) x 0 o := by
  obtain ⟨o, hg, _, hr, _⟩ := @exists_reading False M M x (.inl rfl) False.elim
  exact ⟨o, hg, hr h⟩

theorem script_ne_nil (h : Grammar.script M x d) : x ≠ [] := by
  rintro rfl
  obtain ⟨_, _, _, he, _, hword⟩ := h
  obtain ⟨_, rfl⟩ := List.append_eq_nil_iff.mp he.symm
  exact ((Rule.begins_word (k := .func) rfl).bind _).not_nil d hword

theorem start_of_ok (h : parse options text = .ok d) :
    options.startRule = none ∨ options.startRule = some startRule := by
  unfold parse at h
  split at h
  · next rule hrule =>
    split at h
    · next heq => exact .inr (heq ▸ hrule)
    · simp at h
  · next hrule => exact .inl hrule

theorem furthest_lt_of_script (hr : Reading False Never (Grammar.script M) (x ++ y) 0 o)
    (hd : Grammar.script M x d) : (FailureLog.noteAll {} o.notes).furthest < x.length := by
  have hremains := FailureLog.remains_noteAll o.notes
  by_cases hn : o.notes = []
  · rw [hremains.fresh hn]
    exact List.length_pos_iff.mpr (script_ne_nil hd)
  · obtain ⟨n, hmem, hat⟩ := hremains.reached hn
    obtain ⟨hle, hgo⟩ := hr.placed.inside x y d rfl hd (by simp) n hmem
    have hne : n.1 ≠ 0 + x.length := fun h => (hgo h).elim fun _ => id
    omega

theorem read_append (hd : Grammar.script M x d) (hy : y ≠ []) : ∃ e,
    read M (x ++ y).toArray = .error e ∧ e.expected = [.endOfInput] ∧
      e.location.start.offset = x.length ∧ e.found = y.head? := by
  obtain ⟨o, hg, hr⟩ := exists_outcome (Grammar.pos_of_script hd) (x ++ y)
  obtain ⟨hf, hs⟩ := hr.complete x y d rfl hd (by simp)
  rw [Nat.zero_add] at hs
  have hlen := List.length_pos_iff.mpr hy
  let log := (FailureLog.noteAll {} o.notes).force o.stop .endOfInput
  have hread : read M (x ++ y).toArray = .error (syntaxError (x ++ y).toArray log) := by
    rw [read_eq hg, hf]
    dsimp only
    rw [if_neg (by rw [List.length_append]; omega)]
  have hlt := furthest_lt_of_script hr hd
  have hfurthest : log.furthest = x.length := by
    rw [FailureLog.furthest_force, hs]
    omega
  have hexpected : log.expected = [.endOfInput] := by
    simp only [log, FailureLog.force]
    rw [if_neg (by omega), if_pos (by omega)]
  refine ⟨_, hread, ?_, ?_, ?_⟩
  · change SyntaxError.unique log.expected = _
    rw [hexpected]
    rfl
  · rw [start_syntaxError, hfurthest]
    rw [hfurthest, List.size_toArray, List.length_append]
    omega
  · change (x ++ y).toArray[log.furthest]? = _
    rw [hfurthest, List.getElem?_toArray, List.getElem?_append_right (Nat.le_refl _), Nat.sub_self,
      List.head?_eq_getElem?]

theorem furthest_of_viable (hg : Rule.definition.Gives (start M x) o)
    (hr : Reading False Never (Grammar.script M) x 0 o) (hv : (Grammar.script M).Viable x)
    (hs : ∀ d, o.found = some d → o.stop < x.length) :
    (FailureLog.noteAll {} (complaints o)).furthest = x.length := by
  have hle := furthest_complaints_le hg hs
  obtain ⟨n, hn, hat⟩ : ∃ n ∈ complaints o, n.1 = x.length := by
    rcases hr.placed.touches hv with ⟨n, hn, hat⟩ | ⟨hsome, hat⟩
    · refine ⟨n, ?_, by omega⟩
      unfold complaints
      split
      · exact List.mem_append_left _ hn
      · exact hn
    · obtain ⟨d, hd⟩ := Option.isSome_iff_exists.mp hsome
      have := hs d hd
      omega
  have := (FailureLog.remains_noteAll (complaints o)).furthest n hn
  omega

theorem not_script_of_append (hd : Grammar.script M (x ++ y) d) (hy : y ≠ []) (d' : Definition) :
    ¬ Grammar.script M x d' := by
  intro hx
  obtain ⟨c, t, rfl⟩ := List.exists_cons_of_ne_nil hy
  exact ((Rule.settled_script M).goes c ⟨x, d', hx, t, d, by simpa using hd⟩).elim

/-- A text that is accepted begins no other that is. Behind it only the end is expected; in front of
its end the end comes too soon. -/
theorem parse_boundary (options : Options) (text : String) (d : Definition)
    (h : parse options text = .ok d) :
    (∀ more : String, more ≠ "" → ∃ e, parse options (text ++ more) = .error (.malformed e) ∧
      e.expected = [.endOfInput] ∧ e.location.start.offset = text.length ∧
        e.found = more.toList.head?) ∧
    ∀ before behind : String, text = before ++ behind → behind ≠ "" →
      ∃ e, parse options before = .error (.malformed e) ∧ e.found = none ∧
        e.location.start.offset = before.length := by
  have hstart := start_of_ok h
  have hd := (parse_ok_iff options text d hstart).mp h
  constructor
  · intro more hmore
    obtain ⟨e, hread, hexpected, hoffset, hfound⟩ :=
      read_append hd (y := more.toList) (by simpa using hmore)
    refine ⟨e, ?_, hexpected, by rw [hoffset, String.length_toList], hfound⟩
    rw [parse_eq hstart, String.toList_append, hread]
    rfl
  · rintro before behind rfl hbehind
    rw [String.toList_append] at hd
    obtain ⟨e, he⟩ := exists_malformed hstart fun d' hd' =>
      not_script_of_append hd (by simpa using hbehind) d' ((parse_ok_iff options before d' hstart).mp hd')
    obtain ⟨o, hg, hr⟩ := exists_outcome (Grammar.pos_of_script hd) before.toList
    obtain ⟨rfl, hs⟩ := parse_malformed hg he
    have hfurthest := furthest_of_viable hg hr ⟨_, d, hd⟩ hs
    refine ⟨_, he, ?_, ?_⟩
    · change before.toList.toArray[(FailureLog.noteAll {} (complaints o)).furthest]? = none
      rw [hfurthest]
      simp
    · rw [start_syntaxError (hfurthest ▸ Nat.le_refl _), hfurthest, String.length_toList]

theorem parse_boundary_of_short :
    (∃ d, parse ⟨none, 1⟩ "FUNC f() BEGIN END @k=\"v\";" = .ok d) ∧
      (∃ e, parse ⟨none, 1⟩ "FUNC f() BEGIN END @k=\"v\"; x" = .error (.malformed e) ∧
        e.expected = [.endOfInput] ∧ e.location.start.offset = 26 ∧ e.found = some ' ') ∧
      ∃ e, parse ⟨none, 1⟩ "FUNC f() BEG" = .error (.malformed e) ∧ e.found = none ∧
        e.location.start.offset = 12 := by
  have hrun : (parse ⟨none, 1⟩ "FUNC f() BEGIN END @k=\"v\";").toBool = true := by decide +kernel
  cases hp : parse ⟨none, 1⟩ "FUNC f() BEGIN END @k=\"v\";" with
  | error e => simp [hp, Except.toBool] at hrun
  | ok d =>
    obtain ⟨hbehind, hbefore⟩ := parse_boundary ⟨none, 1⟩ _ d hp
    exact ⟨⟨d, rfl⟩, hbehind " x" (by decide),
      hbefore "FUNC f() BEG" "IN END @k=\"v\";" (by decide) (by decide)⟩

end FuncScript.Script

import FuncScript.Proofs.Reading.Script
import FuncScript.Script

/-!
Reading a script succeeds on the words of the grammar and on nothing else, and gives what the word
denotes.
-/

namespace FuncScript.Script

variable {P : Prop} {maxDepth M : Nat} {x : List Char} {text : String} {d : Definition}

def start (maxDepth : Nat) (x : List Char) : State := { text := x.toArray, limit := maxDepth }

theorem rest_start (maxDepth : Nat) (x : List Char) : (start maxDepth x).rest = x := by
  simp [start, State.rest]

theorem read_eq {o : Outcome Definition} (h : Rule.definition.Gives (start maxDepth x) o) :
    read maxDepth x.toArray =
      match o.found with
      | some d =>
        if x.length ≤ o.stop then .ok d
        else .error (syntaxError x.toArray
          ((FailureLog.noteAll {} o.notes).force o.stop .endOfInput))
      | none => .error (syntaxError x.toArray (FailureLog.noteAll {} o.notes)) := by
  have hrun : Rule.definition { text := x.toArray, limit := maxDepth } =
      (o.found,
        { start maxDepth x with cursor := o.stop, failures := FailureLog.noteAll {} o.notes }) :=
    h {}
  unfold read
  rw [hrun]
  cases o.found <;> simp

theorem exists_reading (hM : Ample M (start maxDepth x)) (hP : P → Roomy (start maxDepth x)) :
    ∃ o, Rule.definition.Gives (start maxDepth x) o ∧ (o.found = none → o.notes ≠ []) ∧
      (0 < M → Reading P Never (Grammar.script M) x 0 o) ∧ (M = 0 → o.found = none) := by
  by_cases h : 0 < M
  · obtain ⟨o, hg, hn, hr⟩ := Rule.reads_definition h hM hP
    rw [rest_start] at hr
    exact ⟨o, hg, fun hf => (hn hf).1, fun _ => hr, fun h0 => by omega⟩
  · have hle : (start maxDepth x).limit ≤ (start maxDepth x).depth := by
      rcases hM with hM | ⟨_, hM⟩ <;> omega
    obtain ⟨o, hg, hf, hn⟩ := Rule.refuses_definition hle
    exact ⟨o, hg, fun _ => hn, fun h' => absurd h' h, fun _ => hf⟩

theorem read_ok_iff : read maxDepth x.toArray = .ok d ↔ Grammar.script maxDepth x d := by
  obtain ⟨o, hg, _, hr, hnone⟩ := @exists_reading False maxDepth maxDepth x (.inl rfl) False.elim
  rw [read_eq hg]
  constructor
  · intro h
    cases hf : o.found with
    | none => simp [hf] at h
    | some d' =>
      have hpos : 0 < maxDepth := by
        apply Nat.pos_of_ne_zero
        intro h0
        simp [hnone h0] at hf
      obtain ⟨w, y, rfl, hw, hs⟩ := (hr hpos).sound d' hf
      rw [hf] at h
      simp only at h
      split at h
      · next hle =>
        obtain rfl : d' = d := by simpa using h
        rw [List.length_append, hs] at hle
        obtain rfl : y = [] := List.eq_nil_of_length_eq_zero (by omega)
        simpa using hw
      · simp at h
  · intro h
    obtain ⟨hf, hs⟩ := (hr (Grammar.pos_of_script h)).complete x [] d (by simp) h (by simp)
    simp [hf, hs]

theorem parse_eq {options : Options}
    (h : options.startRule = none ∨ options.startRule = some startRule) (text : String) :
    parse options text = (read options.maxDepth text.toList.toArray).mapError .malformed := by
  rcases h with h | h <;> simp [parse, h]

theorem mapError_ok_iff {r : Except SyntaxError Definition} :
    r.mapError ScriptError.malformed = .ok d ↔ r = .ok d := by
  constructor
  · intro h
    cases r with
    | ok d' =>
      cases h
      rfl
    | error e => cases h
  · rintro rfl
    rfl

theorem mapError_malformed_iff {r : Except SyntaxError Definition} {e : SyntaxError} :
    r.mapError ScriptError.malformed = .error (.malformed e) ↔ r = .error e := by
  constructor
  · intro h
    cases r with
    | ok d => cases h
    | error e' =>
      cases h
      rfl
  · rintro rfl
    rfl

theorem toOption_eq_some_iff {r : Except ScriptError Definition} :
    r.toOption = some d ↔ r = .ok d := by
  cases r <;> simp [Except.toOption]

theorem parse_ok_iff_read {options : Options}
    (h : options.startRule = none ∨ options.startRule = some startRule) :
    parse options text = .ok d ↔ read options.maxDepth text.toList.toArray = .ok d := by
  rw [parse_eq h, mapError_ok_iff]

theorem exists_malformed {options : Options}
    (h : options.startRule = none ∨ options.startRule = some startRule)
    (hn : ∀ d, parse options text ≠ .ok d) : ∃ e, parse options text = .error (.malformed e) := by
  have heq := parse_eq h text
  cases hr : read options.maxDepth text.toList.toArray with
  | ok d =>
    rw [hr] at heq
    exact absurd heq (hn d)
  | error e =>
    rw [hr] at heq
    exact ⟨e, heq⟩

/-- All that a refusal can be explained by: a definition that was found should have been the end. -/
def complaints (o : Outcome Definition) : List Note :=
  match o.found with
  | some _ => o.notes ++ [(o.stop, .endOfInput)]
  | none => o.notes

theorem noteAll_complaints (o : Outcome Definition) :
    FailureLog.noteAll {} (complaints o) =
      match o.found with
      | some _ => (FailureLog.noteAll {} o.notes).force o.stop .endOfInput
      | none => FailureLog.noteAll {} o.notes := by
  have hreporting : ∀ (notes : List Note) (log : FailureLog),
      (log.noteAll notes).reporting = log.reporting := by
    intro notes
    induction notes with
    | nil => exact fun _ => rfl
    | cons n notes ih => exact fun log => (ih _).trans (FailureLog.record_reporting log n.1 n.2)
  unfold complaints
  cases o.found with
  | none => rfl
  | some d =>
    dsimp only
    rw [FailureLog.noteAll_append]
    change (FailureLog.noteAll {} o.notes).record o.stop .endOfInput = _
    rw [FailureLog.record, hreporting]
    rfl

theorem read_eq_complaints {o : Outcome Definition}
    (h : Rule.definition.Gives (start maxDepth x) o) :
    read maxDepth x.toArray =
      match o.found with
      | some d =>
        if x.length ≤ o.stop then .ok d
        else .error (syntaxError x.toArray (FailureLog.noteAll {} (complaints o)))
      | none => .error (syntaxError x.toArray (FailureLog.noteAll {} (complaints o))) := by
  rw [read_eq h, noteAll_complaints]
  cases o.found <;> rfl

theorem read_error_iff {e : SyntaxError} {o : Outcome Definition}
    (hg : Rule.definition.Gives (start maxDepth x) o) : read maxDepth x.toArray = .error e ↔
      e = syntaxError x.toArray (FailureLog.noteAll {} (complaints o)) ∧
        ∀ d, o.found = some d → o.stop < x.length := by
  rw [read_eq_complaints hg]
  cases hf : o.found with
  | none => simp [eq_comm]
  | some d =>
    dsimp only
    split
    · next hle => simp [Nat.not_lt.mpr hle]
    · next hlt => simp [eq_comm, Nat.lt_of_not_le hlt]

theorem parse_malformed_iff {options : Options} {e : SyntaxError} :
    parse options text = .error (.malformed e) ↔
      (options.startRule = none ∨ options.startRule = some startRule) ∧
        read options.maxDepth text.toList.toArray = .error e := by
  unfold parse
  cases hs : options.startRule with
  | none => simp [mapError_malformed_iff]
  | some rule => by_cases hrule : rule = startRule <;> simp [hrule, mapError_malformed_iff]

theorem malformed_of_run (options : Options) (text : String) (p : SyntaxError → Prop)
    [DecidablePred p] (h : (match parse options text with
      | .ok _ => false
      | .error (.invalidStartRule _) => false
      | .error (.malformed e) => decide (p e)) = true) :
    ∃ e, parse options text = .error (.malformed e) ∧ p e := by
  cases hp : parse options text with
  | ok d => simp [hp] at h
  | error r =>
    cases r with
    | invalidStartRule rule => simp [hp] at h
    | malformed e =>
      rw [hp] at h
      exact ⟨e, rfl, of_decide_eq_true h⟩

theorem parse_malformed {options : Options} {e : SyntaxError} {o : Outcome Definition}
    (hg : Rule.definition.Gives (start options.maxDepth text.toList) o)
    (h : parse options text = .error (.malformed e)) :
    e = syntaxError text.toList.toArray (FailureLog.noteAll {} (complaints o)) ∧
      ∀ d, o.found = some d → o.stop < text.toList.length :=
  (read_error_iff hg).mp (parse_malformed_iff.mp h).2

/-- A text is accepted exactly if it is a script, and then the result is what the script denotes. -/
theorem parse_ok_iff (options : Options) (text : String) (d : Definition)
    (h : options.startRule = none ∨ options.startRule = some startRule) :
    parse options text = .ok d ↔ Grammar.script options.maxDepth text.toList d := by
  rw [parse_ok_iff_read h, read_ok_iff]

theorem parse_ok_iff_of_short :
    let text := "func f(a=[1],b=true,\na=-0.5)BEGIN\nx\ny END @k=\"\\u0041\\n\";"
    let d : Definition := ⟨"f", [("a", .number ⟨0xBFE0000000000000⟩), ("b", .boolean true)], "xy",
      [("k", "A\n")]⟩
    parse ⟨none, 2⟩ text = .ok d ∧ Grammar.script 2 text.toList d ∧
      ∀ d', parse ⟨none, 1⟩ text ≠ .ok d' ∧ ¬ Grammar.script 1 text.toList d' := by
  intro text d
  have hrun : (parse ⟨none, 2⟩ text).toOption = some d := by decide +kernel
  have hflat : (parse ⟨none, 1⟩ text).toOption = none := by decide +kernel
  have hok := toOption_eq_some_iff.mp hrun
  have hnot : ∀ d', parse ⟨none, 1⟩ text ≠ .ok d' := by
    intro d' h
    rw [h] at hflat
    cases hflat
  exact ⟨hok, (parse_ok_iff ⟨none, 2⟩ text d (.inl rfl)).mp hok,
    fun d' => ⟨hnot d', fun h => hnot d' ((parse_ok_iff ⟨none, 1⟩ text d' (.inl rfl)).mpr h)⟩⟩

end FuncScript.Script

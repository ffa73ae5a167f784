import FuncScript.Proofs.Complaints
import FuncScript.Proofs.Levels

/-!
Where a text is refused, and for what. The place is the end of the longest beginning that some
script shares, and what is expected there is what scripts go on with.
-/

namespace FuncScript.Script

open Phrase (IsBlank)

variable {options : Options} {text : String} {e : SyntaxError} {o : Outcome Definition}
  {u y : List Char} {d : Definition} {M : Nat}

/-- The text is a script, for some number of levels. -/
def Accepted (u : List Char) : Prop := ∃ m d, parse { maxDepth := m } (String.ofList u) = .ok d

def Viable (u : List Char) : Prop := ∃ t, Accepted (u ++ t)

theorem accepted_iff : Accepted u ↔ ∃ m d, Grammar.script m u d := by
  have h : ∀ m d, parse { maxDepth := m } (String.ofList u) = .ok d ↔ Grammar.script m u d := by
    intro m d
    rw [parse_ok_iff_read (.inl rfl), String.toList_ofList, read_ok_iff]
  simp only [Accepted, h]

theorem viable_iff : Viable u ↔ ∃ m, (Grammar.script m).Viable u := by
  constructor
  · rintro ⟨t, ht⟩
    obtain ⟨m, d, hd⟩ := accepted_iff.mp ht
    exact ⟨m, t, d, hd⟩
  · rintro ⟨m, t, d, hd⟩
    exact ⟨t, accepted_iff.mpr ⟨m, d, hd⟩⟩

structure ExactWithin (M : Nat) (x : List Char) (e : SyntaxError) : Prop where
  viable : (Grammar.script M).Viable (x.take e.location.start.offset)
  stuck : e.location.start.offset < x.length →
    ¬ (Grammar.script M).Viable (x.take (e.location.start.offset + 1))
  expected : ∀ c, ¬ IsBlank c → ((Grammar.script M).Viable (x.take e.location.start.offset ++ [c]) ↔
    ∃ y ∈ e.expected, y.admits c = true)
  ended : .endOfInput ∈ e.expected ↔ ∃ d, Grammar.script M (x.take e.location.start.offset) d

theorem horizon_of_found (hh : Horizon (Grammar.script M) u y 0 o) {w z : List Char}
    (hw : Grammar.script M w d) (he : u ++ y = w ++ z) : u = w := by
  obtain ⟨t, rfl, -⟩ := hh.begins ⟨[], d, by simpa using hw⟩ he
  cases t with
  | nil => simp
  | cons c t =>
    have hlonger : (Grammar.script M).Viable (w ++ [c]) := by
      apply Phrase.Viable.of_append (t := t)
      simpa using hh.viable
    exact ((Rule.settled_script M).goes c ⟨w, d, hw, hlonger⟩).elim

theorem furthest_of_horizon (hh : Horizon (Grammar.script M) u y 0 o)
    (hstop : ∀ d, o.found = some d → o.stop = u.length) :
    (FailureLog.noteAll {} (complaints o)).furthest = u.length := by
  have hremains := FailureLog.remains_noteAll (complaints o)
  have hmem : ∀ n ∈ complaints o, n ∈ o.notes ∨ n.1 = u.length := by
    intro n hn
    unfold complaints at hn
    cases hf : o.found with
    | none => exact .inl (by simpa [hf] using hn)
    | some d =>
      rw [hf] at hn
      rcases List.mem_append.mp hn with hn | hn
      · exact .inl hn
      · obtain rfl := List.mem_singleton.mp hn
        exact .inr (hstop d hf)
  have hle : ∀ n ∈ complaints o, n.1 ≤ u.length := by
    intro n hn
    rcases hmem n hn with hn | hn
    · have := hh.noted_le n hn
      omega
    · omega
  obtain ⟨n, hn, hat⟩ : ∃ n ∈ complaints o, n.1 = u.length := by
    unfold complaints
    cases hf : o.found with
    | none =>
      rcases hh.reached with ⟨n, hn, hat⟩ | ⟨hsome, -⟩
      · exact ⟨n, hn, by omega⟩
      · simp [hf] at hsome
    | some d => exact ⟨(o.stop, .endOfInput), by simp, hstop d hf⟩
  obtain ⟨n', hn', hat'⟩ := hremains.reached (List.ne_nil_of_mem hn)
  have hlast := hremains.furthest n hn
  have hlast' := hle n' hn'
  omega

theorem admits_of_horizon (hh : Horizon (Grammar.script M) u y 0 o)
    (hstop : ∀ d, o.found = some d → o.stop = u.length) {c : Char} (hc : ¬ IsBlank c) :
    (Grammar.script M).Viable (u ++ [c]) ↔
      ∃ x ∈ (FailureLog.noteAll {} (complaints o)).expected, x.admits c = true := by
  rw [← hh.noted_iff c hc]
  have hfurthest := furthest_of_horizon hh hstop
  have hexpected (x : Expectation) : x ∈ (FailureLog.noteAll {} (complaints o)).expected ↔
      (u.length, x) ∈ complaints o := by
    rw [(FailureLog.remains_noteAll (complaints o)).mem_expected, hfurthest]
  constructor
  · rintro ⟨n, hn, hat, ha⟩
    refine ⟨n.2, (hexpected n.2).mpr ?_, ha⟩
    have hn' : (u.length, n.2) ∈ o.notes := by
      rwa [← show n.1 = u.length by omega]
    unfold complaints
    split
    · exact List.mem_append_left _ hn'
    · exact hn'
  · rintro ⟨x, hx, ha⟩
    have hx' := (hexpected x).mp hx
    unfold complaints at hx'
    split at hx'
    · rcases List.mem_append.mp hx' with hx' | hx'
      · exact ⟨_, hx', by simp, ha⟩
      · obtain ⟨-, rfl⟩ := Prod.mk.inj (List.mem_singleton.mp hx')
        simp [Expectation.admits] at ha
    · exact ⟨_, hx', by simp, ha⟩

theorem exactWithin (hruns : ShortRuns text.toList) (hdepth : text.toList.length < options.maxDepth)
    (hM : options.maxDepth ≤ M) (h : parse options text = .error (.malformed e)) :
    ExactWithin M text.toList e := by
  have hample : Ample M (start options.maxDepth text.toList) :=
    .inr ⟨by simpa [start] using hM, by simpa [start, State.left] using hdepth⟩
  have hroomy : Roomy (start options.maxDepth text.toList) :=
    ⟨by simpa [start, State.left] using hdepth, by rwa [rest_start]⟩
  obtain ⟨o, hg, hn, hread, _⟩ := exists_reading (P := True) hample fun _ => hroomy
  have hr := hread (Nat.lt_of_lt_of_le (Nat.zero_lt_of_lt hdepth) hM)
  obtain ⟨rfl, hs⟩ := parse_malformed hg h
  obtain ⟨u, y, hx, hh⟩ := (hr.exact trivial).horizon
  -- A definition that was found stands in the text up to the horizon.
  have hword : ∀ d, o.found = some d → Grammar.script M u d ∧ o.stop = u.length := by
    intro d hd
    obtain ⟨w, z, he, hw, hstop⟩ := hr.sound d hd
    obtain rfl := horizon_of_found hh hw (hx.symm.trans he)
    exact ⟨hw, by omega⟩
  have hstop := fun d hd => (hword d hd).2
  have hoffset : (syntaxError text.toList.toArray
      (FailureLog.noteAll {} (complaints o))).location.start.offset = u.length :=
    (start_syntaxError (furthest_complaints_le hg hs)).trans (furthest_of_horizon hh hstop)
  have htake : text.toList.take u.length = u := by rw [hx, List.take_left]
  have hexpected : ∀ x, x ∈ (syntaxError text.toList.toArray
      (FailureLog.noteAll {} (complaints o))).expected ↔
        x ∈ (FailureLog.noteAll {} (complaints o)).expected := fun _ => SyntaxError.mem_unique
  constructor
  · rw [hoffset, htake]
    exact hh.viable
  · rw [hoffset]
    intro hlt
    cases y with
    | nil => simp [hx] at hlt
    | cons c t =>
      have htake' : text.toList.take (u.length + 1) = u ++ [c] := by
        rw [hx, List.take_length_add_append]
        rfl
      rw [htake']
      exact hh.stuck c t rfl
  · intro c hc
    simp only [hoffset, htake, hexpected]
    exact admits_of_horizon hh hstop hc
  · simp only [hoffset, htake, hexpected]
    constructor
    · intro hend
      rcases fits_complaints hg hend with hfit | ⟨-, hsome, -⟩
      · exact absurd rfl hfit.inner
      · obtain ⟨d, hd⟩ := Option.isSome_iff_exists.mp hsome
        exact ⟨d, (hword d hd).1⟩
    · rintro ⟨d, hd⟩
      obtain ⟨hsome, -⟩ := (hr.exact trivial).maximal u y d hx hd
      obtain ⟨d', hd'⟩ := Option.isSome_iff_exists.mp hsome
      rw [(FailureLog.remains_noteAll (complaints o)).mem_expected, furthest_of_horizon hh hstop]
      simp [complaints, hd', hstop d' hd']

/-- The place of an error ends the longest beginning of a script, and its expectations are the
characters that go on from there, blanks left aside. -/
structure Exact (text : List Char) (e : SyntaxError) : Prop where
  viable : Viable (text.take e.location.start.offset)
  stuck : e.location.start.offset < text.length →
    ¬ Viable (text.take (e.location.start.offset + 1))
  longest : ∀ n, n ≤ text.length → Viable (text.take n) → n ≤ e.location.start.offset
  expected : ∀ c, ¬ IsBlank c → (Viable (text.take e.location.start.offset ++ [c]) ↔
    ∃ x ∈ e.expected, x.admits c = true)
  ended : .endOfInput ∈ e.expected ↔ Accepted (text.take e.location.start.offset)

theorem Viable.of_append {t : List Char} (h : Viable (u ++ t)) : Viable u := by
  obtain ⟨v, hv⟩ := h
  exact ⟨t ++ v, by simpa using hv⟩

theorem parse_malformed_exact (options : Options) (text : String) (e : SyntaxError)
    (hruns : ShortRuns text.toList) (hdepth : text.length < options.maxDepth)
    (h : parse options text = .error (.malformed e)) : Exact text.toList e := by
  rw [← String.length_toList] at hdepth
  have hwithin : ∀ m, ExactWithin (max m options.maxDepth) text.toList e := fun m =>
    exactWithin hruns hdepth (Nat.le_max_right ..) h
  -- The options allow for more levels than the text can use, so more levels change nothing.
  have hraise : ∀ {m u}, (Grammar.script m).Viable u →
      (Grammar.script (max m options.maxDepth)).Viable u := by
    rintro m u ⟨t, d, hd⟩
    exact ⟨t, d, Grammar.script_mono (Nat.le_max_left ..) hd⟩
  have hstuck : e.location.start.offset < text.toList.length →
      ¬ Viable (text.toList.take (e.location.start.offset + 1)) := by
    intro hlt hv
    obtain ⟨m, hm⟩ := viable_iff.mp hv
    exact (hwithin m).stuck hlt (hraise hm)
  constructor
  · exact viable_iff.mpr ⟨_, (hwithin 0).viable⟩
  · exact hstuck
  · intro n hn hv
    apply Classical.byContradiction
    intro hlt
    have htake : text.toList.take n = text.toList.take (e.location.start.offset + 1) ++
        (text.toList.take n).drop (e.location.start.offset + 1) := by
      conv => lhs; rw [← List.take_append_drop (e.location.start.offset + 1) (text.toList.take n)]
      rw [List.take_take, Nat.min_eq_left (by omega)]
    rw [htake] at hv
    exact hstuck (by omega) hv.of_append
  · intro c hc
    rw [viable_iff]
    constructor
    · rintro ⟨m, hm⟩
      exact ((hwithin m).expected c hc).mp (hraise hm)
    · intro hx
      exact ⟨_, ((hwithin 0).expected c hc).mpr hx⟩
  · rw [accepted_iff]
    constructor
    · intro hend
      exact ⟨_, (hwithin 0).ended.mp hend⟩
    · rintro ⟨m, d, hd⟩
      exact (hwithin m).ended.mpr ⟨d, Grammar.script_mono (Nat.le_max_left ..) hd⟩

theorem parse_malformed_exact_of_bracket :
    ∃ e, parse {} "FUNC f(a=1]" = .error (.malformed e) ∧ e.location.start.offset = 10 ∧
      ShortRuns "FUNC f(a=1]".toList ∧ "FUNC f(a=1]".length < ({} : Options).maxDepth ∧
        Exact "FUNC f(a=1]".toList e := by
  have hruns : ShortRuns "FUNC f(a=1]".toList := by
    intro ds hds _
    have hle := hds.length_le
    have hlen : "FUNC f(a=1]".toList.length = 11 := by decide +kernel
    omega
  have hdepth : "FUNC f(a=1]".length < ({} : Options).maxDepth := by decide +kernel
  obtain ⟨e, hp, hat⟩ := malformed_of_run {} "FUNC f(a=1]"
    (fun e => e.location.start.offset = 10) (by decide +kernel)
  exact ⟨e, hp, hat, hruns, hdepth, parse_malformed_exact {} "FUNC f(a=1]" e hruns hdepth hp⟩

end FuncScript.Script

import FuncScript.Proofs.Acceptance
import FuncScript.Proofs.Honesty
import FuncScript.Proofs.Notes
import FuncScript.Proofs.Places

/-!
What a refusal says of the text: the place, the character found there, what was expected, and the
message all belong together.
-/

namespace FuncScript

variable {log : FailureLog} {x : Expectation} {text : Array Char}

def Expectation.Met (x : Expectation) : Option Char → Prop
  | some c => x.admits c = true
  | none => x = .endOfInput

structure SyntaxError.Consistent (e : SyntaxError) (text : List Char) : Prop where
  within : e.location.start.offset ≤ text.length
  found : e.found = text[e.location.start.offset]?
  found_eq_none : e.found = none ↔ e.location.start.offset = text.length
  stop : e.location.stop.offset = e.location.start.offset + if e.found.isSome then 1 else 0
  start_marks : e.location.start.Marks text
  stop_marks : e.location.stop.Marks text
  expected_ne_nil : e.expected ≠ []
  expected_nodup : e.expected.Nodup
  unmet : ∀ x ∈ e.expected, ¬ x.Met e.found
  message : e.message = buildMessage e.expected e.found
  presentable : Presentable e.message.toList

namespace Script

/-- A place of the text, and what no text goes on with there. -/
structure Refusal (text : Array Char) (log : FailureLog) : Prop where
  within : log.furthest ≤ text.size
  expected_ne_nil : log.expected ≠ []
  unmet : ∀ x ∈ log.expected, ¬ x.Met text[log.furthest]?
  presentable : ∀ x ∈ log.expected, Presentable x.describe.toList

theorem stop_le {k : Nat} (h : k ≤ text.size) :
    (if text[k]?.isSome then k + 1 else k) ≤ text.size := by
  split
  · next hsome =>
    obtain ⟨c, hc⟩ := Option.isSome_iff_exists.mp hsome
    exact (Array.getElem?_eq_some_iff.mp hc).1
  · exact h

theorem location_syntaxError (h : log.furthest ≤ text.size) :
    (syntaxError text log).location =
      ⟨PositionCache.arrival text log.furthest, PositionCache.arrival text
        (if text[log.furthest]?.isSome then log.furthest + 1 else log.furthest)⟩ := by
  refine (PositionCache.location_ofLength text text.size log.furthest _).trans ?_
  rw [Nat.min_eq_left h, Nat.min_eq_left (stop_le h)]

theorem start_syntaxError (h : log.furthest ≤ text.size) :
    (syntaxError text log).location.start.offset = log.furthest := by
  rw [location_syntaxError h]
  rfl

theorem syntaxError_congr {text' : Array Char} (h : ∀ i ≤ log.furthest, text'[i]? = text[i]?)
    (hlt : log.furthest < text.size) : syntaxError text' log = syntaxError text log := by
  have hfound : text'[log.furthest]? = text[log.furthest]? := h _ (Nat.le_refl _)
  have hsome : text[log.furthest]? = some text[log.furthest] := Array.getElem?_eq_getElem hlt
  have hlt' : log.furthest < text'.size := (Array.getElem?_eq_some_iff.mp (hfound.trans hsome)).1
  have hplace : ∀ n ≤ log.furthest + 1,
      PositionCache.arrival text' n = PositionCache.arrival text n := by
    intro n hn
    have hreached : LineColumn.reached text' n = LineColumn.reached text n :=
      LineColumn.reached_congr n fun i hi => h i (by omega)
    rw [PositionCache.arrival, PositionCache.arrival, hreached]
  have hlocation : (syntaxError text' log).location = (syntaxError text log).location := by
    rw [location_syntaxError (Nat.le_of_lt hlt'), location_syntaxError (Nat.le_of_lt hlt), hfound,
      hsome, Option.isSome_some, if_pos rfl, hplace _ (Nat.le_succ _), hplace _ (Nat.le_refl _)]
  calc syntaxError text' log
      = .of log.expected text'[log.furthest]? (syntaxError text' log).location := rfl
    _ = .of log.expected text[log.furthest]? (syntaxError text log).location := by
      rw [hfound, hlocation]

theorem Refusal.consistent (h : Refusal text log) (hs : text.size + 1 < 2 ^ 32) :
    (syntaxError text log).Consistent text.toList := by
  have hlocation := location_syntaxError h.within
  have hstart := start_syntaxError h.within
  have hfound : (syntaxError text log).found = text[log.furthest]? := rfl
  have hne : SyntaxError.unique log.expected ≠ [] := by
    intro hu
    obtain ⟨x, hx⟩ := List.exists_mem_of_ne_nil _ h.expected_ne_nil
    have := SyntaxError.mem_unique.mpr hx
    simp [hu] at this
  constructor
  · rw [hstart, Array.length_toList]
    exact h.within
  · rw [hstart, hfound, Array.getElem?_toList]
  · rw [hstart, hfound, Array.getElem?_eq_none_iff, Array.length_toList]
    have := h.within
    omega
  · rw [hstart, hfound, hlocation]
    dsimp only [PositionCache.arrival]
    split <;> rfl
  · rw [hlocation]
    exact PositionCache.marks_arrival hs h.within
  · rw [hlocation]
    exact PositionCache.marks_arrival hs (stop_le h.within)
  · exact hne
  · exact SyntaxError.nodup_unique log.expected
  · intro x hx
    rw [hfound]
    exact h.unmet x (SyntaxError.mem_unique.mp hx)
  · rfl
  · exact SyntaxError.presentable_buildMessage hne
      (fun x hx => h.presentable x (SyntaxError.mem_unique.mp hx)) _

section

variable {o : Outcome Definition} {maxDepth : Nat} {chars : List Char}

theorem honest_notes (hg : Rule.definition.Gives (start maxDepth chars) o) :
    (FailureLog.noteAll {} o.notes).Honest chars.toArray := by
  have hstart : State.Honest chars.toArray (start maxDepth chars) :=
    ⟨rfl, Nat.zero_le _, FailureLog.honest_empty _⟩
  have h := (Rule.keeps_definition hstart).failures
  have hrun := hg {}
  change Rule.definition (start maxDepth chars) = _ at hrun
  rwa [hrun] at h

theorem furthest_complaints_le (hg : Rule.definition.Gives (start maxDepth chars) o)
    (hs : ∀ d, o.found = some d → o.stop < chars.length) :
    (FailureLog.noteAll {} (complaints o)).furthest ≤ chars.length := by
  have hw : (FailureLog.noteAll {} o.notes).furthest ≤ chars.length := (honest_notes hg).within
  rw [noteAll_complaints]
  cases hf : o.found with
  | none => exact hw
  | some d =>
    have hlt := hs d hf
    dsimp only
    rw [FailureLog.furthest_force]
    omega

theorem fits_complaints (hg : Rule.definition.Gives (start maxDepth chars) o)
    (hx : x ∈ (FailureLog.noteAll {} (complaints o)).expected) :
    x.Fits chars.toArray (FailureLog.noteAll {} (complaints o)).furthest ∨
      x = .endOfInput ∧ o.found.isSome = true ∧
        (FailureLog.noteAll {} (complaints o)).furthest = o.stop := by
  rw [noteAll_complaints] at hx ⊢
  cases hf : o.found with
  | none =>
    rw [hf] at hx
    exact .inl ((honest_notes hg).fits x hx)
  | some d =>
    rw [hf] at hx
    rcases FailureLog.mem_expected_force hx with ⟨hx, heq⟩ | ⟨rfl, heq⟩
    · dsimp only
      rw [heq]
      exact .inl ((honest_notes hg).fits x hx)
    · exact .inr ⟨rfl, rfl, heq⟩

theorem refusal_complaints (hg : Rule.definition.Gives (start maxDepth chars) o)
    (hn : o.found = none → o.notes ≠ [])
    (hs : ∀ d, o.found = some d → o.stop < chars.length) :
    Refusal chars.toArray (FailureLog.noteAll {} (complaints o)) := by
  have hne : complaints o ≠ [] := by
    unfold complaints
    cases hf : o.found with
    | none => exact hn hf
    | some d => simp
  have hremains := FailureLog.remains_noteAll (complaints o)
  constructor
  · exact furthest_complaints_le hg hs
  · obtain ⟨n, hn', heq⟩ := hremains.reached hne
    have hlast : n.2 ∈ (FailureLog.noteAll {} (complaints o)).expected :=
      hremains.mem_expected.mpr (by rwa [← heq])
    exact List.ne_nil_of_mem hlast
  · intro y hy hmet
    rcases fits_complaints hg hy with hfit | ⟨rfl, hsome, heq⟩
    · cases hc : chars.toArray[(FailureLog.noteAll {} (complaints o)).furthest]? with
      | none =>
        rw [hc] at hmet
        exact hfit.inner hmet
      | some c =>
        rw [hc] at hmet
        exact Bool.false_ne_true ((hfit.refuses c hc).symm.trans hmet)
    · obtain ⟨d, hd⟩ := Option.isSome_iff_exists.mp hsome
      have hlt := hs d hd
      have hc : chars.toArray[o.stop]? = some chars[o.stop] := by
        rw [List.getElem?_toArray]
        exact List.getElem?_eq_getElem hlt
      rw [heq, hc] at hmet
      cases hmet
  · intro y hy
    rcases fits_complaints hg hy with hfit | ⟨rfl, _, _⟩
    · exact hfit.presentable
    · decide +kernel

end

theorem parse_malformed_consistent (options : Options) (text : String) (e : SyntaxError)
    (hlen : text.length < 2 ^ 32 - 1) (h : parse options text = .error (.malformed e)) :
    e.Consistent text.toList := by
  obtain ⟨o, hg, hn, _⟩ :=
    @exists_reading False options.maxDepth options.maxDepth text.toList (.inl rfl) False.elim
  obtain ⟨rfl, hs⟩ := parse_malformed hg h
  have hsize : text.toList.toArray.size + 1 < 2 ^ 32 := by
    rw [List.size_toArray, String.length_toList]
    omega
  exact (refusal_complaints hg hn hs).consistent hsize

theorem parse_malformed_consistent_of_bare :
    ∃ e, parse {} "FUNC" = .error (.malformed e) ∧ e.location.start.offset = 4 ∧
      e.expected = [.oneOf .nameStart] ∧ "FUNC".length < 2 ^ 32 - 1 ∧ e.Consistent "FUNC".toList := by
  have hlen : "FUNC".length < 2 ^ 32 - 1 := by decide +kernel
  obtain ⟨e, hp, hat, hexpected⟩ := malformed_of_run {} "FUNC"
    (fun e => e.location.start.offset = 4 ∧ e.expected = [.oneOf .nameStart]) (by decide +kernel)
  exact ⟨e, hp, hat, hexpected, hlen, parse_malformed_consistent {} "FUNC" e hlen hp⟩

end Script

end FuncScript

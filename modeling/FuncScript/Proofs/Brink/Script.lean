import FuncScript.Proofs.Brink.Block
import FuncScript.Proofs.Brink.Configuration
import FuncScript.Proofs.Brink.Crossing
import FuncScript.Proofs.Exactness
import FuncScript.Proofs.Foresight.Script

/-!
When the nesting limit is blamed. The error is at a place where a container or a block could stand,
but only one that lies too deep. It need not stand there: the limit is looked at before the text is.
-/

namespace FuncScript

open Grammar (fieldsBrink bodyBrink configurationBrink blockBrink)
open Nesting (openings depth)
open Phrase (either)

variable {s : State} {key : String} {fields : Entries Value} {n : Nat}

namespace Rule

theorem wants_behindConfiguration (hs : s.Room 0 n) :
    (Nesting.behindConfiguration key fields).Wants (Phrase.blanks >>= fun _ => blockBrink n) s := by
  have htags : annotations.Mild :=
    Plan.rule_annotations ▸ Plan.annotations.mild Plan.compositional_mild.annotations
  refine Wants.blanks_bind fun k _ => (wants_block (hs.moved k)).bind_mild fun span => ?_
  exact mild_bind ((Plan.slice span).mild trivial) fun raw => mild_map htags

theorem wants_behindName (hs : s.Room 0 n) (hsolid : Solid s.rest) :
    (Nesting.behindName key).Wants (either (configurationBrink n) do
      let _ ← Grammar.configuration n
      Phrase.blanks
      blockBrink n) s := by
  have hconfiguration := reads_configuration (P := False) (.inl hs.levels) False.elim hsolid
  exact (wants_configuration hs hsolid).bind hconfiguration.tries fun w y fields _ _ =>
    wants_behindConfiguration (hs.moved w.length)

theorem wants_definition (hs : s.Room 0 n) :
    definition.Wants (either (fieldsBrink n) (bodyBrink n)) s := by
  rw [Nesting.definition_eq, fieldsBrink, bodyBrink, ← Phrase.bind_either]
  unfold Grammar.header
  simp only [LawfulMonad.bind_assoc]
  refine Wants.attempt (Wants.blanks_bind fun a _ => ?_)
  refine (mild_keyword .func).bind (reads_keyword (P := False) .func).tries fun w _ _ _ _ => ?_
  refine Wants.blanks_bind fun b _ => ?_
  refine mild_name.bind (tries_name (P := False)) fun v _ key _ _ => ?_
  refine Wants.blanks_bind fun c hsolid => ?_
  exact wants_behindName (((((hs.moved a).moved w.length).moved b).moved v.length).moved c) hsolid

end Rule

namespace Script

variable {x u : List Char} {e : SyntaxError} {c : Char} {M : Nat}

theorem confined_complaints {limit : Nat} {G : Nat → Prop} (o : Outcome Definition) :
    FailureLog.Confined limit G (FailureLog.noteAll {} o.notes)
      (FailureLog.noteAll {} (complaints o)) := by
  unfold complaints
  split
  · rw [FailureLog.noteAll_append]
    exact FailureLog.confined_record fun h => Expectation.noConfusion h
  · exact FailureLog.confined_refl _

theorem brink_of_error (h : read M x.toArray = .error e) (hlevel : Rule.tooDeep M ∈ e.expected) :
    either (fieldsBrink M) (bodyBrink M) (x.take e.location.start.offset) () := by
  obtain ⟨o, hg, -⟩ := @exists_reading False M M x (.inl rfl) False.elim
  have hat := start_of_error hg h
  obtain ⟨rfl, -⟩ := (read_error_iff hg).mp h
  have hwants := Rule.wants_definition (s := start M x) ⟨rfl, (Nat.zero_add M).symm⟩ {}
  rw [hg {}] at hwants
  rw [hat]
  rcases hwants.trans (confined_complaints o) (SyntaxError.mem_unique.mp hlevel) with
    ⟨hnever, -⟩ | hbehind
  · exact absurd hnever List.not_mem_nil
  · exact take_of_behind hbehind

theorem opening_of_refused (hbrink : either (fieldsBrink M) (bodyBrink M) u ())
    (hv : Viable (u ++ [c])) (hread : ∀ t, read M (u ++ c :: t).toArray = .error e)
    (hat : e.location.start.offset = u.length) (y : List Char) :
    ⟨u.length, M + 1⟩ ∈ openings (u ++ c :: y) := by
  have hno : ∀ t d, ¬ Grammar.script M (u ++ c :: t) d := by
    intro t d hd
    have hok := hread t
    rw [read_ok_iff.mpr hd] at hok
    cases hok
  obtain ⟨m, t, d, hd⟩ := viable_iff.mp hv
  rw [List.append_assoc, List.singleton_append] at hd
  have hdeep : M < depth (u ++ c :: t) :=
    Nat.lt_of_not_le fun hle => hno t d (Nesting.script_of_depth_le hd hle)
  obtain ⟨e', he', hdeep⟩ := Nesting.read_of_deep hd hdeep
  obtain rfl : e' = e := Except.error.inj (he'.symm.trans (hread t))
  obtain ⟨o, ho, hlevel, hplace, -⟩ := hdeep.opening
  obtain ⟨c', rest, hdrop, -, hopens⟩ := hdeep.found
  rw [hat, List.drop_left] at hdrop
  obtain ⟨rfl, rfl⟩ := List.cons.inj hdrop
  have hoffset : o.offset = u.length := hplace.symm.trans hat
  have hbracket : c = '(' ∨ c = '[' := by
    rcases hbrink with hfields | hbody
    · exact Nesting.bracket_of_opening hfields ho hoffset
    rcases hopens with hc | hc | hbegin
    · exact .inl hc
    · exact .inr hc
    · -- the letter alone does not open a block
      have hletter := Grammar.viable_bodyBrink_letter (Rule.letter_of_startsAt rfl hbegin) hbody
      obtain ⟨t', d', hd'⟩ := hletter
      rw [List.append_assoc, List.singleton_append] at hd'
      exact absurd hd' (hno t' d')
  rw [← hoffset, ← hlevel]
  exact Nesting.opening_of_bracket hbracket ho hoffset y

theorem opening_of_viable (h : read M x.toArray = .error e) (hlevel : Rule.tooDeep M ∈ e.expected)
    (hfound : e.found = some c) (hv : Viable (x.take (e.location.start.offset + 1))) :
    ⟨e.location.start.offset, M + 1⟩ ∈ openings x := by
  obtain ⟨hlt, hc⟩ := List.getElem?_eq_some_iff.mp ((found_of_error h).symm.trans hfound)
  have hlen := List.length_take_of_le (Nat.le_of_lt hlt)
  have hsplit := List.take_append_drop e.location.start.offset x
  rcases read_congr_or_begins h hfound with hcongr | ⟨-, hbody, hbegin⟩
  · rw [List.drop_eq_getElem_cons hlt, hc] at hsplit
    have htake : x.take (e.location.start.offset + 1) = x.take e.location.start.offset ++ [c] := by
      rw [List.take_succ_eq_append_getElem hlt, hc]
    rw [htake] at hv hcongr
    have hgo : ∀ t, read M (x.take e.location.start.offset ++ c :: t).toArray = .error e := by
      intro t
      apply hcongr
      rw [List.append_cons]
      exact List.take_left' (by rw [List.length_append, hlen, List.length_singleton])
    have hmem := opening_of_refused (brink_of_error h hlevel) hv hgo hlen.symm
      (x.drop (e.location.start.offset + 1))
    rwa [hlen, hsplit] at hmem
  · have hmem := Nesting.opening_of_bodyBrink hbody hbegin
    rwa [hlen, hsplit] at hmem

theorem found_of_opening {level : Nat} (h : read M x.toArray = .error e) (hfound : e.found = some c)
    (ho : ⟨e.location.start.offset, level⟩ ∈ openings x) :
    c = '(' ∨ c = '[' ∨ Keyword.blockBegin.startsAt (x.drop e.location.start.offset) = true := by
  obtain ⟨c', rest, hdrop, hopens⟩ := Nesting.opening_at ho
  rw [Nat.sub_zero] at hdrop
  have hsame : some c' = some c := by
    rw [← hfound, found_of_error h, ← List.head?_drop, hdrop, List.head?_cons]
  obtain rfl := Option.some.inj hsame
  rwa [hdrop]

def NeedsLevel (levels : Nat) (u : List Char) : Prop :=
  (∃ t d, parse { maxDepth := levels + 1 } (String.ofList (u ++ t)) = .ok d) ∧
    ∀ t d, parse { maxDepth := levels } (String.ofList (u ++ t)) ≠ .ok d

theorem needsLevel_iff : NeedsLevel M u ↔
    (Grammar.script (M + 1)).Viable u ∧ ¬ (Grammar.script M).Viable u := by
  have h : ∀ m t d, parse { maxDepth := m } (String.ofList (u ++ t)) = .ok d ↔
      Grammar.script m (u ++ t) d := by
    intro m t d
    rw [parse_ok_iff _ _ _ (.inl rfl), String.toList_ofList]
  simp only [NeedsLevel, h, Phrase.Viable, not_exists, ne_eq]

theorem needsLevel_of_brink (h : either (fieldsBrink M) (bodyBrink M) u ()) :
    ∃ opening ∈ ["(", "BEGIN"], NeedsLevel M (u ++ opening.toList) := by
  rcases h with h | h
  · refine ⟨"(", by simp, needsLevel_iff.mpr ⟨Grammar.viable_fieldsBrink h, ?_⟩⟩
    rintro ⟨t, d, hd⟩
    rw [List.append_assoc] at hd
    exact Nesting.not_script_of_opening (Nesting.opening_of_fieldsBrink h t) rfl hd
  · refine ⟨"BEGIN", by simp, needsLevel_iff.mpr ⟨Grammar.viable_bodyBrink h, ?_⟩⟩
    rintro ⟨t, d, hd⟩
    rw [List.append_assoc] at hd
    refine Nesting.not_script_of_opening (Nesting.opening_of_bodyBrink h ?_) rfl hd
    exact Keyword.startsAt_iff.mpr ⟨_, t, rfl, Grammar.letters_self _⟩

/-- What the limit is blamed for: something that is one level too deep can be opened at the place of
the error. It is opened there, or the text ends, or what stands there is wrong under any limit. -/
structure OutOfLevels (limit : Nat) (text : List Char) (e : SyntaxError) : Prop where
  opening : ∃ opening ∈ ["(", "BEGIN"],
    NeedsLevel limit (text.take e.location.start.offset ++ opening.toList)
  found : (⟨e.location.start.offset, limit + 1⟩ ∈ openings text ∧
      (e.found = some '(' ∨ e.found = some '[' ∨
        Keyword.blockBegin.startsAt (text.drop e.location.start.offset) = true)) ∨
    e.found = none ∨ ¬ Viable (text.take (e.location.start.offset + 1))

theorem parse_malformed_level (options : Options) (text : String) (e : SyntaxError)
    (h : parse options text = .error (.malformed e))
    (hlevel : .other ("nesting depth of at most " ++ toString options.maxDepth) ∈ e.expected) :
    OutOfLevels options.maxDepth text.toList e := by
  obtain ⟨-, hread⟩ := parse_malformed_iff.mp h
  refine ⟨needsLevel_of_brink (brink_of_error hread hlevel), ?_⟩
  cases hfound : e.found with
  | none => exact .inr (.inl rfl)
  | some c =>
    by_cases hv : Viable (text.toList.take (e.location.start.offset + 1))
    · have ho := opening_of_viable hread hlevel hfound hv
      refine .inl ⟨ho, ?_⟩
      rw [Option.some_inj, Option.some_inj]
      exact found_of_opening hread hfound ho
    · exact .inr (.inr hv)

theorem parse_malformed_level_of_array :
    ∃ e, parse { maxDepth := 1 } "FUNC F (a=[1]) BEGIN END @k=\"v\";" = .error (.malformed e) ∧
      e.found = some '[' ∧
      .other ("nesting depth of at most " ++ toString ({ maxDepth := 1 } : Options).maxDepth) ∈
        e.expected ∧
      OutOfLevels 1 "FUNC F (a=[1]) BEGIN END @k=\"v\";".toList e := by
  obtain ⟨e, h, hfound, hlevel⟩ := malformed_of_run { maxDepth := 1 }
    "FUNC F (a=[1]) BEGIN END @k=\"v\";" (fun e => e.found = some '[' ∧
      .other ("nesting depth of at most " ++ toString ({ maxDepth := 1 } : Options).maxDepth) ∈
        e.expected) (by decide +kernel)
  exact ⟨e, h, hfound, hlevel, parse_malformed_level { maxDepth := 1 } _ e h hlevel⟩

theorem not_parse_malformed_level : ¬ ∀ (options : Options) (text : String) (e : SyntaxError),
    parse options text = .error (.malformed e) →
    .other ("nesting depth of at most " ++ toString options.maxDepth) ∈ e.expected →
    e.found = some '(' ∨ e.found = some '[' ∨
      Keyword.blockBegin.startsAt (text.toList.drop e.location.start.offset) = true := by
  intro h
  obtain ⟨e, hp, hfound, hat, hlevel⟩ := malformed_of_run { maxDepth := 1 }
    "FUNC F (a=x) BEGIN END @k=\"v\";" (fun e => e.found = some 'x' ∧
      e.location.start.offset = 10 ∧
      .other ("nesting depth of at most " ++ toString ({ maxDepth := 1 } : Options).maxDepth) ∈
        e.expected) (by decide +kernel)
  rcases h _ _ e hp hlevel with hopen | hopen | hbegin
  · simp [hfound] at hopen
  · simp [hfound] at hopen
  · rw [hat] at hbegin
    exact absurd hbegin (by decide +kernel)

end Script

end FuncScript

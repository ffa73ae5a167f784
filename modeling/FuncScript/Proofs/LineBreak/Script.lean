import FuncScript.Proofs.LineBreak.Block
import FuncScript.Proofs.LineBreak.Complaint

/-!
A script means the same with either kind of line break. A text that is none is refused at the same
line and column, for the same reasons.
-/

namespace FuncScript

open LineBreak

variable {α β γ : Type} {s : State} {x : List Char} {i j k n : Nat}

theorem Rule.Twins.weaken {N : Prop} {R : α → β → Prop} {r : Rule α} {r' : Rule β}
    (h : r.Twins N R r' s) : r.Twins False R r' s := by
  obtain ⟨o, o', hg, hg', ht⟩ := h
  exact ⟨o, o', hg, hg', ht.found, ht.advanced, ht.within, ht.stop, ht.notes, False.elim⟩

namespace Plan

theorem twins_bind {p : Plan α} {f : α → Plan β} (h : p.Avoids breaks fun _ => False)
    (hs : s.cursor ≤ s.text.size) (hf : ∀ a j, j ≤ s.text.size →
      (f a).rule.Twins False (· = ·) (f a).rule { s with cursor := j }) :
    (bind p f).rule.Twins False (· = ·) (bind p f).rule s := by
  apply (p.twins h s hs).bind
  rintro a b j rfl _ hj
  exact hf a j hj

theorem twins_block (hs : s.cursor ≤ s.text.size) :
    block.rule.Twins False (Span.Twin s.text.toList) block.rule s := by
  obtain ⟨o, o', hg, hg', ht⟩ := (twins_blockWithin (s.limit - s.depth) s rfl hs).weaken
  exact ⟨o, o', hg, hg', ht⟩

theorem twins_slice {a b : Span} (h : a.Twin s.text.toList b) (hx : Bare s.text.toList)
    (hs : s.cursor ≤ s.text.size) :
    (Rule.slice a).Twins False (fun raw raw' => Body.tidy raw' = Body.tidy raw) (Rule.slice b) s := by
  refine ⟨_, _, Rule.gives_slice a s, Rule.gives_slice b s.crlf, .some ?_, Nat.le_refl _, hs, rfl, .nil,
    False.elim⟩
  have hcut : (s.crlf.text.extract b.start b.stop).toList =
      crlf (s.text.extract a.start a.stop).toList := by
    obtain ⟨n, hn⟩ := Nat.exists_eq_add_of_le h.le
    rw [Array.toList_extract, Array.toList_extract, List.extract_eq_take_drop,
      List.extract_eq_take_drop, h.start, h.stop, hn, Nat.add_sub_cancel_left]
    change ((crlf s.text.toList).drop _).take _ = _
    rw [drop_shift, take_shift]
  rw [hcut]
  apply tidy_crlf
  apply hx.part
  rw [Array.toList_extract, List.extract_eq_take_drop]
  exact (List.take_prefix _ _).isInfix.trans (List.drop_suffix _ _).isInfix

theorem twins_definition (hx : Bare s.text.toList) (hs : s.cursor ≤ s.text.size) :
    definition.rule.Twins False (· = ·) definition.rule s := by
  have hB : breaks ⊆ breaks := List.Subset.refl _
  have hQ := compositional_avoids (C := fun _ => False) hB
  apply Rule.Twins.attempt ?_ hs
  refine twins_bind trivial hs fun _ _ h₁ => ?_
  refine twins_bind (hQ.keyword .func) h₁ fun _ _ h₂ => ?_
  refine twins_bind trivial h₂ fun _ _ h₃ => ?_
  refine twins_bind hQ.name h₃ fun _ _ h₄ => ?_
  refine twins_bind trivial h₄ fun _ _ h₅ => ?_
  refine twins_bind (avoids_object hB) h₅ fun _ _ h₆ => ?_
  refine twins_bind trivial h₆ fun _ j h₇ => ?_
  refine (twins_block h₇).bind fun a b j hab _ h₈ => ?_
  refine Rule.Twins.bind (twins_slice hab hx h₈) fun raw raw' j hraw _ h₉ => ?_
  dsimp only
  rw [hraw]
  exact Plan.twins (map _ annotations) (hQ.map hQ.annotations) _ h₉

end Plan

namespace Script

variable {options : Options} {o o' : Outcome Definition} {M : Nat}

theorem crlf_start (M : Nat) (x : List Char) : (start M x).crlf = start M (crlf x) := by
  simp [start, State.crlf]

theorem exists_twins (M : Nat) (hx : Bare x) : ∃ o o', Rule.definition.Gives (start M x) o ∧
    Rule.definition.Gives (start M (crlf x)) o' ∧ o.Twin False (· = ·) (start M x) o' := by
  obtain ⟨o, o', hg, hg', ht⟩ := Plan.twins_definition (s := start M x) hx (Nat.zero_le _)
  rw [Plan.rule_definition] at hg hg'
  rw [crlf_start] at hg'
  exact ⟨o, o', hg, hg', ht⟩

theorem converted_complaints (ht : o.Twin False (· = ·) (start M x) o') :
    Converted x (complaints o) (complaints o') := by
  obtain ⟨found, j, notes⟩ := o
  obtain ⟨found', j', notes'⟩ := o'
  obtain ⟨hfound, -, -, hstop, hn, -⟩ := ht
  dsimp only at hfound hstop hn
  subst hstop
  cases hfound with
  | none => exact hn
  | some => exact hn.append (.note _ .nil)

def Alike (r r' : Except SyntaxError Definition) : Prop :=
  match r, r' with
  | .ok d, .ok d' => d' = d
  | .error e, .error e' => e'.expected = e.expected ∧
      e'.location.start.line = e.location.start.line ∧
      e'.location.start.column = e.location.start.column ∧
      e'.found = e.found.map fun c => if c = '\n' then '\r' else c
  | _, _ => False

theorem read_crlf (M : Nat) (hx : Bare x) :
    Alike (read M x.toArray) (read M (crlf x).toArray) := by
  obtain ⟨o, o', hg, hg', ht⟩ := exists_twins M hx
  have herror : (∀ d, o.found = some d → o.stop < x.length) →
      Alike (.error (syntaxError x.toArray (FailureLog.noteAll {} (complaints o))))
        (.error (syntaxError (crlf x).toArray (FailureLog.noteAll {} (complaints o')))) := by
    intro hs
    have hle := furthest_complaints_le hg hs
    obtain ⟨hat, he⟩ := (converted_complaints ht).furthest hle
    exact syntaxError_crlf hle hat he
  rw [read_eq_complaints hg, read_eq_complaints hg']
  have hfound := ht.found
  have hstop : o'.stop = shift x o.stop := ht.stop
  have hwithin : o.stop ≤ x.length := ht.within
  cases hf : o.found with
  | none =>
    rw [hf] at hfound
    cases hf' : o'.found with
    | none => exact herror fun d hd => by simp [hf] at hd
    | some d => simp [hf'] at hfound
  | some d =>
    rw [hf] at hfound
    cases hf' : o'.found with
    | none => simp [hf'] at hfound
    | some d' =>
      rw [hf', Option.rel_some_some] at hfound
      subst hfound
      -- Both definitions end at the end of their texts, or both before it.
      rcases Nat.lt_or_ge o.stop x.length with hlt | hge
      · have hlt' := shift_lt hlt (Nat.le_refl _)
        rw [shift_length, ← hstop] at hlt'
        simp only [Nat.not_le.mpr hlt, Nat.not_le.mpr hlt', if_false]
        exact herror fun _ _ => hlt
      · have hge' : (crlf x).length ≤ o'.stop := by
          rw [hstop, ← shift_length]
          exact shift_le hge
        simp only [hge, hge', if_true]
        rfl

theorem parse_crlf (options : Options) (text : String) (h : Bare text.toList) :
    (∀ d, parse options text = .ok d ↔
      parse options (String.ofList (crlf text.toList)) = .ok d) ∧
    ∀ e, parse options text = .error (.malformed e) →
      ∃ e', parse options (String.ofList (crlf text.toList)) = .error (.malformed e') ∧
        e'.expected = e.expected ∧
        e'.location.start.line = e.location.start.line ∧
        e'.location.start.column = e.location.start.column ∧
        e'.found = e.found.map fun c => if c = '\n' then '\r' else c := by
  by_cases hstart : options.startRule = none ∨ options.startRule = some startRule
  · have halike := read_crlf options.maxDepth h
    rw [parse_eq hstart, parse_eq hstart, String.toList_ofList]
    cases hr : read options.maxDepth text.toList.toArray with
    | ok d =>
      cases hr' : read options.maxDepth (crlf text.toList).toArray with
      | ok d' =>
        rw [hr, hr'] at halike
        obtain rfl : d' = d := halike
        refine ⟨fun _ => Iff.rfl, ?_⟩
        intro e he
        cases he
      | error e' => simp [hr, hr', Alike] at halike
    | error e =>
      cases hr' : read options.maxDepth (crlf text.toList).toArray with
      | ok d' => simp [hr, hr', Alike] at halike
      | error e' =>
        rw [hr, hr'] at halike
        refine ⟨fun d => by simp only [mapError_ok_iff, reduceCtorEq], ?_⟩
        rintro e₁ ⟨⟩
        exact ⟨e', rfl, halike⟩
  · obtain ⟨rule, hrule, hne⟩ : ∃ rule, options.startRule = some rule ∧ rule ≠ startRule := by
      cases hs : options.startRule with
      | none => exact absurd (.inl hs) hstart
      | some rule => exact ⟨rule, rfl, fun he => hstart (.inr (hs.trans (congrArg some he)))⟩
    simp [parse, hrule, hne]

theorem parse_crlf_of_broken :
    Bare "FUNC f(\n)\nBEGIN\nx\ny END\n@k=\"v\";".toList ∧
      ∃ d, parse {} "FUNC f(\n)\nBEGIN\nx\ny END\n@k=\"v\";" = .ok d ∧ d.body = "xy" ∧
        parse {} "FUNC f(\r\n)\r\nBEGIN\r\nx\r\ny END\r\n@k=\"v\";" = .ok d := by
  have hbare : Bare "FUNC f(\n)\nBEGIN\nx\ny END\n@k=\"v\";".toList :=
    bare_of_not_mem (by decide)
  have hrun : (match parse {} "FUNC f(\n)\nBEGIN\nx\ny END\n@k=\"v\";" with
    | .ok d => d.body == "xy"
    | .error _ => false) = true := by decide +kernel
  cases hp : parse {} "FUNC f(\n)\nBEGIN\nx\ny END\n@k=\"v\";" with
  | error e => simp [hp] at hrun
  | ok d =>
    rw [hp] at hrun
    exact ⟨hbare, d, rfl, eq_of_beq hrun, ((parse_crlf {} _ hbare).1 d).mp hp⟩

end Script

end FuncScript

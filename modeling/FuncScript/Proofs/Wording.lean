import Mathlib.Data.List.Infix
import FuncScript.SyntaxError

/-!
The words of a message. Descriptions and messages have no control characters, and they say
"nothing" only where they are given it.
-/

namespace FuncScript

abbrev IsControl (c : Char) : Prop := c.toNat < 0x20 ∨ (0x7F ≤ c.toNat ∧ c.toNat ≤ 0x9F)

def sayingNothing : List Char := "nothing".toList

/-- A text that can stand in a message as it is. -/
structure Presentable (text : List Char) : Prop where
  clean : ∀ c ∈ text, ¬ IsControl c
  telling : ¬ sayingNothing <:+: text

theorem clean_iff {text : List Char} : text.all (fun c => decide (¬ IsControl c)) = true ↔
    ∀ c ∈ text, ¬ IsControl c := by
  rw [List.all_eq_true]
  simp only [decide_eq_true_eq]

instance (text : List Char) : Decidable (Presentable text) :=
  decidable_of_iff (text.all (fun c => decide (¬ IsControl c)) = true ∧ ¬ sayingNothing <:+: text)
    ⟨fun h => ⟨clean_iff.mp h.1, h.2⟩, fun h => ⟨clean_iff.mpr h.clean, h.telling⟩⟩

theorem presentable_words : ∀ word ∈ ["", "or", "Expected", "but", "found.", "end of input",
    "any character", "finite number", "nesting depth of at most"], Presentable word.toList := by
  decide +kernel

variable {u v w : List Char} {c : Char}

theorem isInfix_seam (hc : c ∉ w) (h : w <:+: u ++ c :: v) : w <:+: u ∨ w <:+: v := by
  obtain ⟨s, t, h⟩ := h
  rw [List.append_assoc] at h
  rcases List.append_eq_append_iff.mp h with ⟨p, rfl, hp⟩ | ⟨p, rfl, hp⟩
  · rcases List.append_eq_append_iff.mp hp with ⟨q, rfl, _⟩ | ⟨q, rfl, hq⟩
    · exact .inl ⟨s, q, by simp⟩
    · cases q with
      | nil => exact .inl ⟨s, [], by simp⟩
      | cons d q =>
        obtain ⟨rfl, _⟩ := List.cons.inj hq
        simp at hc
  · cases p with
    | nil =>
      cases w with
      | nil => exact .inl (List.nil_infix)
      | cons d w =>
        obtain ⟨rfl, _⟩ := List.cons.inj hp
        simp at hc
    | cons d p =>
      obtain ⟨rfl, rfl⟩ := List.cons.inj hp
      exact .inr ⟨p, t, by simp⟩

namespace Presentable

theorem seam (hu : Presentable u) (hv : Presentable v) (hc : c ∉ sayingNothing)
    (hk : ¬ IsControl c) : Presentable (u ++ c :: v) := by
  constructor
  · intro d hd
    rcases List.mem_append.mp hd with hd | hd
    · exact hu.clean d hd
    · rcases List.mem_cons.mp hd with rfl | hd
      · exact hk
      · exact hv.clean d hd
  · intro h
    exact (isInfix_seam hc h).elim hu.telling hv.telling

theorem space (hu : Presentable u) (hv : Presentable v) : Presentable (u ++ ' ' :: v) :=
  hu.seam hv (by decide) (by decide)

theorem of_length (hu : ∀ c ∈ u, ¬ IsControl c) (h : u.length < 7) : Presentable u := by
  refine ⟨hu, fun hs => ?_⟩
  have hle := hs.length_le
  have hlen : sayingNothing.length = 7 := by decide +kernel
  omega

end Presentable

namespace Describe

theorem not_isControl_upper {n : Nat} (h : n < 16) : ¬ IsControl (Hex.upper n) := by
  have : ∀ k : Fin 16, ¬ IsControl (Hex.upper k) := by decide
  exact this ⟨n, h⟩

theorem control?_getD_clean (c : Char) : ∀ d ∈ (control? c).getD [c], ¬ IsControl d := by
  unfold control?
  split
  · exact clean_iff.mp (show ['\\', '0'].all (fun d => decide (¬ IsControl d)) = true by decide)
  split
  · exact clean_iff.mp (show ['\\', 't'].all (fun d => decide (¬ IsControl d)) = true by decide)
  split
  · exact clean_iff.mp (show ['\\', 'n'].all (fun d => decide (¬ IsControl d)) = true by decide)
  split
  · exact clean_iff.mp (show ['\\', 'r'].all (fun d => decide (¬ IsControl d)) = true by decide)
  split
  · intro d hd
    simp only [Option.getD_some, List.mem_cons, List.not_mem_nil, or_false] at hd
    rcases hd with rfl | rfl | rfl | rfl
    · decide
    · decide
    · exact not_isControl_upper (by omega)
    · exact not_isControl_upper (by omega)
  · next hc =>
    intro d hd
    obtain rfl := List.mem_singleton.mp hd
    exact hc

theorem inLiteral_clean (c : Char) : ∀ d ∈ inLiteral c, ¬ IsControl d := by
  unfold inLiteral
  split
  · exact clean_iff.mp (by decide)
  split
  · exact clean_iff.mp (by decide)
  · exact control?_getD_clean c

theorem quoted_clean (text : List Char) : ∀ d ∈ quoted text, ¬ IsControl d := by
  intro d hd
  simp only [quoted, List.mem_cons, List.mem_append, List.mem_flatMap, List.not_mem_nil,
    or_false] at hd
  rcases hd with rfl | ⟨c, _, hd⟩ | rfl
  · decide
  · exact inLiteral_clean c d hd
  · decide

theorem length_inLiteral_le (c : Char) : (inLiteral c).length ≤ 4 := by
  unfold inLiteral control?
  repeat' split
  all_goals
    simp only [Option.getD_some, Option.getD_none, List.length_cons, List.length_nil]
    omega

theorem presentable_quoted (c : Char) : Presentable (quoted [c]) := by
  apply Presentable.of_length (quoted_clean [c])
  have := length_inLiteral_le c
  simp [quoted]
  omega

end Describe

namespace SyntaxError

theorem eraseRepsBy_loop_acc (a : String) (rest acc : List String) :
    List.eraseRepsBy.loop (· == ·) a rest acc =
      acc.reverse ++ List.eraseRepsBy.loop (· == ·) a rest [] := by
  induction rest generalizing a acc with
  | nil => simp [List.eraseRepsBy.loop]
  | cons b rest ih =>
    unfold List.eraseRepsBy.loop
    split
    · exact ih a acc
    · rw [ih b (a :: acc), ih b [a], List.reverse_cons, List.append_assoc]
      rfl

theorem eraseReps_cons_cons (a b : String) (rest : List String) :
    (a :: b :: rest).eraseReps =
      if a = b then (b :: rest).eraseReps else a :: (b :: rest).eraseReps := by
  change List.eraseRepsBy.loop (· == ·) a (b :: rest) [] =
    if a = b then List.eraseRepsBy.loop (· == ·) b rest []
    else a :: List.eraseRepsBy.loop (· == ·) b rest []
  rw [List.eraseRepsBy.loop]
  by_cases hab : a = b
  · subst hab
    rw [beq_self_eq_true, if_pos rfl]
  · rw [beq_false_of_ne hab, if_neg hab]
    exact eraseRepsBy_loop_acc b rest [a]

theorem mem_eraseReps {d : String} {ds : List String} : d ∈ ds.eraseReps ↔ d ∈ ds := by
  induction ds with
  | nil => rfl
  | cons a rest ih =>
    cases rest with
    | nil => rfl
    | cons b rest =>
      rw [eraseReps_cons_cons]
      split
      · next hab => simp [ih, hab]
      · rw [List.mem_cons, ih, List.mem_cons (a := d) (b := a)]

theorem mem_descriptions {expected : List Expectation} {d : String} :
    d ∈ descriptions expected ↔ ∃ e ∈ expected, e.describe = d := by
  rw [descriptions, mem_eraseReps, List.mem_mergeSort, List.mem_map]

theorem descriptions_ne_nil {expected : List Expectation} (h : expected ≠ []) :
    descriptions expected ≠ [] := by
  obtain ⟨e, he⟩ := List.exists_mem_of_ne_nil expected h
  exact List.ne_nil_of_mem (mem_descriptions.mpr ⟨e, he, rfl⟩)

theorem presentable_series {a : String} {rest : List String} (ha : Presentable a.toList)
    (hr : ∀ d ∈ rest, Presentable d.toList) (hu : Presentable u) :
    Presentable (u ++ (alternatives.series a rest).toList) := by
  have hnil : Presentable [] := presentable_words "" (by simp)
  induction rest generalizing u a with
  | nil =>
    have hor : Presentable "or".toList := presentable_words _ (by simp)
    have h := hu.seam (hnil.space (hor.space ha)) (c := ',') (by decide) (by decide)
    simpa [alternatives.series] using h
  | cons b rest ih =>
    have hb := hr b (List.mem_cons_self ..)
    have h := hu.seam (hnil.space ha) (c := ',') (by decide) (by decide)
    have hs := ih hb (fun d hd => hr d (List.mem_cons_of_mem b hd)) h
    simpa [alternatives.series] using hs

theorem presentable_alternatives : ∀ {ds : List String}, ds ≠ [] →
    (∀ d ∈ ds, Presentable d.toList) → Presentable (alternatives ds).toList
  | [], h, _ => absurd rfl h
  | [a], _, h => h a (List.mem_cons_self ..)
  | [a, b], _, h => by
    have hor : Presentable "or".toList := presentable_words _ (by simp)
    have hab := (h a (by simp)).space (hor.space (h b (by simp)))
    simpa [alternatives] using hab
  | a :: b :: c :: rest, _, h => by
    have hs : Presentable (a.toList ++ (alternatives.series b (c :: rest)).toList) :=
      presentable_series (h b (by simp))
        (fun d hd => h d (List.mem_cons_of_mem a (List.mem_cons_of_mem b hd))) (h a (by simp))
    simpa [alternatives] using hs

theorem presentable_foundText (found : Option Char) : Presentable (foundText found).toList := by
  cases found with
  | none => exact presentable_words "end of input" (by simp)
  | some c =>
    simp only [foundText, String.toList_ofList]
    exact Describe.presentable_quoted c

theorem presentable_buildMessage {expected : List Expectation} (hne : expected ≠ [])
    (h : ∀ e ∈ expected, Presentable e.describe.toList) (found : Option Char) :
    Presentable (buildMessage expected found).toList := by
  have ha : Presentable (alternatives (descriptions expected)).toList := by
    apply presentable_alternatives (descriptions_ne_nil hne)
    intro d hd
    obtain ⟨e, he, rfl⟩ := mem_descriptions.mp hd
    exact h e he
  have hexpected : Presentable "Expected".toList := presentable_words _ (by simp)
  have hbut : Presentable "but".toList := presentable_words _ (by simp)
  have hfound : Presentable "found.".toList := presentable_words _ (by simp)
  have hm := hexpected.space (ha.space (hbut.space ((presentable_foundText found).space hfound)))
  simpa [buildMessage] using hm

end SyntaxError

end FuncScript

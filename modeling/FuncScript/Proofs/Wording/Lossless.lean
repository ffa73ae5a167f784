import Mathlib.Data.List.Sort
import FuncScript.Proofs.Wording
import FuncScript.Proofs.Wording.Codes

/-!
Messages read back. Two messages about formal expectations are equal when the same was expected, in
whatever order and however often, and the same was found, and only then.
-/

namespace FuncScript

namespace SyntaxError

variable {a b : String} {as bs : List String} {u v : List Char}

theorem pairwise_eraseReps {ds : List String} (h : ds.Pairwise (· ≤ ·)) :
    ds.eraseReps.Pairwise fun a b => a ≤ b ∧ a ≠ b := by
  induction ds with
  | nil => exact List.Pairwise.nil
  | cons a ds ih =>
    cases ds with
    | nil => exact List.pairwise_singleton _ a
    | cons b rest =>
      rw [eraseReps_cons_cons]
      obtain ⟨ha, hb⟩ := List.pairwise_cons.mp h
      split
      · exact ih hb
      · next hab =>
        apply List.pairwise_cons.mpr
        refine ⟨fun d hd => ?_, ih hb⟩
        have hmem := mem_eraseReps.mp hd
        refine ⟨ha d hmem, fun had => ?_⟩
        rcases List.mem_cons.mp hmem with hdb | hrest
        · exact hab (had.trans hdb)
        · have hbd := (List.pairwise_cons.mp hb).1 d hrest
          exact hab (String.le_antisymm (ha b (List.mem_cons_self ..)) (had ▸ hbd))

theorem pairwise_descriptions (expected : List Expectation) :
    (descriptions expected).Pairwise fun a b => a ≤ b ∧ a ≠ b := by
  apply pairwise_eraseReps
  have htrans : ∀ a b c : String,
      decide (a ≤ b) = true → decide (b ≤ c) = true → decide (a ≤ c) = true := by
    intro a b c hab hbc
    exact decide_eq_true (String.le_trans (of_decide_eq_true hab) (of_decide_eq_true hbc))
  have htotal : ∀ a b : String, (decide (a ≤ b) || decide (b ≤ a)) = true := by
    intro a b
    simpa using String.le_total a b
  have hsorted := List.pairwise_mergeSort htrans htotal (expected.map Expectation.describe)
  exact hsorted.imp of_decide_eq_true

theorem descriptions_eq_iff {xs ys : List Expectation} :
    descriptions xs = descriptions ys ↔
      ∀ d, (∃ e ∈ xs, e.describe = d) ↔ ∃ e ∈ ys, e.describe = d := by
  constructor
  · intro h d
    rw [← mem_descriptions, h, mem_descriptions]
  · intro h
    have hx := pairwise_descriptions xs
    have hy := pairwise_descriptions ys
    have hperm : (descriptions xs).Perm (descriptions ys) := by
      apply (List.perm_ext_iff_of_nodup (hx.imp And.right) (hy.imp And.right)).mpr
      intro d
      rw [mem_descriptions, mem_descriptions]
      exact h d
    apply hperm.eq_of_pairwise _ (hx.imp And.left) (hy.imp And.left)
    intro a b _ _ hab hba
    exact String.le_antisymm hab hba

theorem buildMessage_congr {xs ys : List Expectation} (h : ∀ e, e ∈ xs ↔ e ∈ ys)
    (found : Option Char) : buildMessage xs found = buildMessage ys found := by
  have hd : descriptions xs = descriptions ys := by
    apply descriptions_eq_iff.mpr
    intro d
    simp only [h]
  rw [buildMessage, hd, buildMessage]

def Described (d : String) : Prop := ∃ e : Expectation, e.Formal ∧ e.describe = d

theorem Described.append_inj (ha : Described a) (hb : Described b)
    (heq : a.toList ++ u = b.toList ++ v) : a = b ∧ u = v := by
  obtain ⟨e, he, rfl⟩ := ha
  obtain ⟨f, hf, rfl⟩ := hb
  obtain ⟨rfl, huv⟩ := he.describe_append_inj hf heq
  exact ⟨rfl, huv⟩

theorem Described.append_ne (ha : Described a) {c : Char} (hc : c ∉ ['"', '[', 'a', 'e']) :
    a.toList ++ u ≠ c :: v := by
  intro heq
  obtain ⟨e, he, rfl⟩ := ha
  have hinitial : some c = e.initial := by
    rw [← he.head_describe u, heq, List.head?_cons]
  cases e with
  | other d => exact he d rfl
  | _ =>
    obtain rfl := Option.some.inj hinitial
    exact hc (by decide)

theorem series_append_inj (ha : ∀ d ∈ a :: as, Described d) (hb : ∀ d ∈ b :: bs, Described d)
    (heq : (alternatives.series a as).toList ++ u = (alternatives.series b bs).toList ++ v) :
    a :: as = b :: bs ∧ u = v := by
  obtain ⟨hda, has⟩ := List.forall_mem_cons.mp ha
  obtain ⟨hdb, hbs⟩ := List.forall_mem_cons.mp hb
  induction as generalizing a b bs with
  | nil =>
    cases bs with
    | nil =>
      simp only [alternatives.series, String.toList_append, List.append_assoc] at heq
      obtain ⟨rfl, huv⟩ := hda.append_inj hdb (List.append_cancel_left heq)
      exact ⟨rfl, huv⟩
    | cons b' bs =>
      simp [alternatives.series] at heq
      exact absurd heq.symm (hdb.append_ne (by decide))
  | cons a' as ih =>
    cases bs with
    | nil =>
      simp [alternatives.series] at heq
      exact absurd heq (hda.append_ne (by decide))
    | cons b' bs =>
      simp only [alternatives.series, String.toList_append, List.append_assoc] at heq
      obtain ⟨rfl, hrest⟩ := hda.append_inj hdb (List.append_cancel_left heq)
      obtain ⟨hda', has'⟩ := List.forall_mem_cons.mp has
      obtain ⟨hdb', hbs'⟩ := List.forall_mem_cons.mp hbs
      obtain ⟨htail, huv⟩ := ih has hbs hrest hda' has' hdb' hbs'
      exact ⟨by rw [htail], huv⟩

def further : List String → String
  | [] => ""
  | [b] => " or " ++ b
  | b :: c :: rest => alternatives.series b (c :: rest)

theorem alternatives_cons (a : String) (as : List String) :
    alternatives (a :: as) = a ++ further as := by
  match as with
  | [] => rw [alternatives, further, String.append_empty]
  | [b] => rw [alternatives, further, String.append_assoc]
  | b :: c :: rest => rfl

theorem further_append_inj (has : ∀ d ∈ as, Described d) (hbs : ∀ d ∈ bs, Described d)
    (heq : (further as).toList ++ (" but ".toList ++ u) =
      (further bs).toList ++ (" but ".toList ++ v)) : as = bs ∧ u = v := by
  match as, bs with
  | [], [] => exact ⟨rfl, List.append_cancel_left heq⟩
  | [], [_] => simp [further] at heq
  | [], b :: c :: rest => simp [further, alternatives.series] at heq
  | [_], [] => simp [further] at heq
  | [a], [b] =>
    simp only [further, String.toList_append, List.append_assoc] at heq
    obtain ⟨rfl, huv⟩ := (has a (List.mem_cons_self ..)).append_inj (hbs b (List.mem_cons_self ..))
      (List.append_cancel_left heq)
    exact ⟨rfl, List.append_cancel_left huv⟩
  | [_], b :: c :: rest => simp [further, alternatives.series] at heq
  | a :: c :: rest, [] => simp [further, alternatives.series] at heq
  | a :: c :: rest, [_] => simp [further, alternatives.series] at heq
  | a :: a' :: as, b :: b' :: bs =>
    obtain ⟨hall, huv⟩ := series_append_inj has hbs heq
    exact ⟨hall, List.append_cancel_left huv⟩

theorem alternatives_append_inj (has : ∀ d ∈ as, Described d) (hbs : ∀ d ∈ bs, Described d)
    (heq : (alternatives as).toList ++ (" but ".toList ++ u) =
      (alternatives bs).toList ++ (" but ".toList ++ v)) : as = bs ∧ u = v := by
  have hnothing : alternatives [] = "nothing" := rfl
  cases as with
  | nil =>
    cases bs with
    | nil => exact ⟨rfl, List.append_cancel_left (List.append_cancel_left heq)⟩
    | cons b bs =>
      rw [alternatives_cons, String.toList_append, List.append_assoc, hnothing] at heq
      exact absurd heq.symm ((hbs b (List.mem_cons_self ..)).append_ne (by decide))
  | cons a as =>
    obtain ⟨ha, has'⟩ := List.forall_mem_cons.mp has
    rw [alternatives_cons, String.toList_append, List.append_assoc] at heq
    cases bs with
    | nil => exact absurd heq (ha.append_ne (by decide))
    | cons b bs =>
      obtain ⟨hb, hbs'⟩ := List.forall_mem_cons.mp hbs
      rw [alternatives_cons, String.toList_append, List.append_assoc] at heq
      obtain ⟨rfl, hrest⟩ := ha.append_inj hb heq
      obtain ⟨rfl, huv⟩ := further_append_inj has' hbs' hrest
      exact ⟨rfl, huv⟩

theorem foundText_inj {f g : Option Char} (h : foundText f = foundText g) : f = g := by
  have hend : ∀ c, foundText (some c) ≠ foundText none := by
    intro c hc
    have hhead := congrArg (fun s : String => s.toList.head?) hc
    simp [foundText, Describe.quoted] at hhead
  cases f with
  | none =>
    cases g with
    | none => rfl
    | some d => exact absurd h.symm (hend d)
  | some c =>
    cases g with
    | none => exact absurd h (hend c)
    | some d =>
      have hquoted : Describe.quoted [c] ++ [] = Describe.quoted [d] ++ [] :=
        congrArg (· ++ []) (String.ofList_injective h)
      obtain ⟨hcd, _⟩ := Describe.quoted_append_inj hquoted
      exact congrArg some (List.cons.inj hcd).1

theorem described_of_mem {xs : List Expectation} (hx : ∀ d, .other d ∉ xs) :
    ∀ d ∈ descriptions xs, Described d := by
  intro d hd
  obtain ⟨e, he, rfl⟩ := mem_descriptions.mp hd
  exact ⟨e, fun d h => hx d (h ▸ he), rfl⟩

theorem buildMessage_inj {xs ys : List Expectation} {f g : Option Char}
    (hx : ∀ d, .other d ∉ xs) (hy : ∀ d, .other d ∉ ys)
    (heq : buildMessage xs f = buildMessage ys g) :
    descriptions xs = descriptions ys ∧ f = g := by
  have hlist := congrArg String.toList heq
  simp only [buildMessage, String.toList_append, List.append_assoc] at hlist
  obtain ⟨hds, hrest⟩ := alternatives_append_inj (described_of_mem hx) (described_of_mem hy)
    (List.append_cancel_left hlist)
  have hfound := List.append_cancel_right hrest
  exact ⟨hds, foundText_inj (String.toList_inj.mp hfound)⟩

theorem mem_of_descriptions_eq {xs ys : List Expectation} (hx : ∀ d, .other d ∉ xs)
    (hy : ∀ d, .other d ∉ ys) (heq : descriptions xs = descriptions ys) {e : Expectation}
    (he : e ∈ xs) : e ∈ ys := by
  obtain ⟨f, hf, hfe⟩ := (descriptions_eq_iff.mp heq e.describe).mp ⟨e, he, rfl⟩
  have he' : e.Formal := fun d h => hx d (h ▸ he)
  have hf' : f.Formal := fun d h => hy d (h ▸ hf)
  obtain ⟨rfl, _⟩ := hf'.describe_append_inj (u := []) (v := []) he' (by rw [hfe])
  exact hf

theorem unique_sublist (xs : List Expectation) : (unique xs).Sublist xs := by
  induction xs with
  | nil => exact List.Sublist.slnil
  | cons x xs ih =>
    rw [unique]
    exact (List.filter_sublist.trans ih).cons_cons x

theorem pairwise_unique (xs : List Expectation) :
    (unique xs).Pairwise fun a b => xs.idxOf a < xs.idxOf b := by
  induction xs with
  | nil => exact List.Pairwise.nil
  | cons x xs ih =>
    rw [unique]
    apply List.pairwise_cons.mpr
    constructor
    · intro b hb
      have hne : b ≠ x := of_decide_eq_true (List.mem_filter.mp hb).2
      rw [List.idxOf_cons_self, List.idxOf_cons_ne xs hne.symm]
      exact Nat.succ_pos _
    · apply List.pairwise_filter.mpr
      apply ih.imp
      intro a b hab ha hb
      rw [List.idxOf_cons_ne xs (of_decide_eq_true ha).symm,
        List.idxOf_cons_ne xs (of_decide_eq_true hb).symm]
      exact Nat.succ_lt_succ hab

/-- A message says what was expected, as a set, and what was found; and an error keeps of all
that it is given the first of each, in their order, and has the message of all of it. -/
theorem message_lossless :
    (∀ (xs ys : List Expectation) (f g : Option Char),
      (∀ d, .other d ∉ xs) → (∀ d, .other d ∉ ys) →
        (buildMessage xs f = buildMessage ys g ↔ (∀ e, e ∈ xs ↔ e ∈ ys) ∧ f = g)) ∧
    ∀ (xs : List Expectation) (found : Option Char) (location : Location),
      (SyntaxError.of xs found location).expected.Sublist xs ∧
      (SyntaxError.of xs found location).expected.Nodup ∧
      (∀ e, e ∈ (SyntaxError.of xs found location).expected ↔ e ∈ xs) ∧
      ((SyntaxError.of xs found location).expected.Pairwise
        fun a b => xs.idxOf a < xs.idxOf b) ∧
      (SyntaxError.of xs found location).message = buildMessage xs found := by
  constructor
  · intro xs ys f g hx hy
    constructor
    · intro heq
      obtain ⟨hds, hfound⟩ := buildMessage_inj hx hy heq
      refine ⟨fun e => ⟨?_, ?_⟩, hfound⟩
      · exact mem_of_descriptions_eq hx hy hds
      · exact mem_of_descriptions_eq hy hx hds.symm
    · rintro ⟨hmem, rfl⟩
      exact buildMessage_congr hmem f
  · intro xs found location
    exact ⟨unique_sublist xs, nodup_unique xs, fun _ => mem_unique, pairwise_unique xs,
      buildMessage_congr (fun _ => mem_unique) found⟩

theorem message_lossless_of_separators :
    let one : List Expectation := [.literal "a\", \"b\", or \"c"]
    let three : List Expectation := [.literal "c", .literal "a", .literal "b", .literal "a"]
    (∀ d, .other d ∉ one) ∧ (∀ d, .other d ∉ three) ∧
      buildMessage one none ≠ buildMessage three none ∧
      (SyntaxError.of three none ⟨⟨0, 1, 1⟩, ⟨0, 1, 1⟩⟩).message = buildMessage three none := by
  intro one three
  have hone : ∀ d, .other d ∉ one := by simp [one]
  have hthree : ∀ d, .other d ∉ three := by simp [three]
  refine ⟨hone, hthree, fun heq => ?_, (message_lossless.2 three none _).2.2.2.2⟩
  have hmem := ((message_lossless.1 one three none none hone hthree).mp heq).1 (.literal "a")
  simp [one, three] at hmem

end SyntaxError

end FuncScript

import FuncScript.Proofs.Blocks
import FuncScript.Proofs.Nesting.Openings
import FuncScript.Proofs.Reading.Configuration

namespace FuncScript.Nesting

open Phrase

variable {p p' p'' : Place} {u v w y : List Char} {o : Opening} {marks more : List Opening}
  {n d i limit : Nat} {c : Char} {F F' : Prop} {S S' : Nat → Prop}

def Opening.behind (i : Nat) (o : Opening) : Opening := { o with offset := i + o.offset }

/-- What a limit makes of a part of the text: it fits, or the first thing that lies just too deep
stops it. -/
inductive Judged (limit : Nat) (F : Prop) (S : Nat → Prop) (marks : List Opening) : Prop
  | fits (h : ∀ o ∈ marks, o.level ≠ limit + 1) (hf : F)
  | stops (o : Opening) {before after : List Opening} (he : marks = before ++ o :: after)
      (h : ∀ o' ∈ before, o'.level ≠ limit + 1) (ho : o.level = limit + 1) (hs : S o.offset)

theorem judged_nil (h : F) : Judged limit F S [] := .fits (by simp) h

theorem judged_first (ho : o.level = limit + 1) (hs : S o.offset) :
    Judged limit F S (o :: more) :=
  .stops o (List.nil_append _).symm (by simp) ho hs

theorem Judged.imp (h : Judged limit F S marks) (hf : F → F')
    (hs : ∀ k, S k → S' k) : Judged limit F' S' marks := by
  cases h with
  | fits h hfits => exact .fits h (hf hfits)
  | stops o he h ho hstops => exact .stops o he h ho (hs _ hstops)

theorem Judged.behind (h : Judged limit F S marks) (i : Nat) (hf : F → F')
    (hs : ∀ k, S k → S' (i + k)) :
    Judged limit F' S' (marks.map (Opening.behind i)) := by
  have map_ne : ∀ {marks : List Opening}, (∀ o ∈ marks, o.level ≠ limit + 1) →
      ∀ o ∈ marks.map (Opening.behind i), o.level ≠ limit + 1 := by
    intro marks h _ ho
    obtain ⟨o, hmem, rfl⟩ := List.mem_map.mp ho
    exact h o hmem
  cases h with
  | fits h hfits => exact .fits (map_ne h) (hf hfits)
  | stops o he h ho hstops =>
    refine .stops (o.behind i) (by rw [he, List.map_append, List.map_cons]) (map_ne h) ho ?_
    exact hs _ hstops

theorem Judged.append (h : Judged limit F S marks)
    (h' : F → Judged limit F' S more) : Judged limit F' S (marks ++ more) := by
  cases h with
  | stops o he h ho hstops =>
    exact .stops o (by rw [he, List.append_assoc, List.cons_append]) h ho hstops
  | fits h hfits =>
    have hnone : ∀ {before}, (∀ o ∈ before, o.level ≠ limit + 1) →
        ∀ o ∈ marks ++ before, o.level ≠ limit + 1 :=
      fun hb o ho => (List.mem_append.mp ho).elim (h o) (hb o)
    cases h' hfits with
    | fits h' hfits' => exact .fits (hnone h') hfits'
    | stops o he h' ho hstops =>
      exact .stops o (by rw [he, List.append_assoc]) (hnone h') ho hstops

theorem Judged.cons (ho : o.level ≠ limit + 1) (h : Judged limit F S marks) :
    Judged limit F S (o :: marks) :=
  have hfirst : Judged limit True S [o] := .fits (by simpa using ho) trivial
  hfirst.append fun _ => h

/-- The look through the text comes across a part of it, before another. -/
def Crosses (p : Place) (u v : List Char) (marks : List Opening) (p' : Place) : Prop :=
  ∀ i, openingsFrom p i (u ++ v) =
    marks.map (Opening.behind i) ++ openingsFrom p' (i + u.length) v

theorem crosses_nil (p : Place) (v : List Char) : Crosses p [] v [] p := fun _ => rfl

theorem Crosses.append (h : Crosses p u (v ++ y) marks p') (h' : Crosses p' v y more p'') :
    Crosses p (u ++ v) y (marks ++ more.map (Opening.behind u.length)) p'' := by
  intro i
  rw [List.append_assoc, h i, h' (i + u.length), List.map_append, List.append_assoc, List.map_map,
    List.length_append, Nat.add_assoc]
  congr 2
  apply List.map_congr_left
  intro o _
  simp [Opening.behind, Nat.add_assoc]

theorem Crosses.append_quiet (h : Crosses p u (v ++ y) [] p') (h' : Crosses p' v y more p'') :
    Crosses p (u ++ v) y (more.map (Opening.behind u.length)) p'' :=
  h.append h'

theorem crosses_step (h : p.opens (c :: v) = none) : Crosses p [c] v [] (p.next (c :: v)) := by
  intro i
  rw [List.singleton_append, openingsFrom, h]
  rfl

theorem crosses_open (h : p.opens (c :: v) = some n) :
    Crosses p [c] v [⟨0, n⟩] (p.next (c :: v)) := by
  intro i
  rw [List.singleton_append, openingsFrom, h]
  rfl

theorem Crosses.openingsFrom_eq (h : Crosses p u [] marks p') : openingsFrom p 0 u = marks := by
  have hmarks : marks.map (Opening.behind 0) = marks := by
    rw [List.map_congr_left (g := id) fun o _ => by simp [Opening.behind], List.map_id]
  have hu := h 0
  rw [List.append_nil, hmarks] at hu
  simpa [openingsFrom] using hu

theorem Crosses.quiet (h : Crosses p u (v ++ y) [] p') (h' : Crosses p' v y [] p'') :
    Crosses p (u ++ v) y [] p'' :=
  h.append_quiet h'

theorem Crosses.cons (h : p.opens (c :: (u ++ v)) = none)
    (h' : Crosses (p.next (c :: (u ++ v))) u v [] p') : Crosses p (c :: u) v [] p' :=
  (crosses_step h).quiet h'

def Ordinary (c : Char) : Prop := c ∉ ['(', '[', ')', ']', '"']

instance : DecidablePred Ordinary := fun c => inferInstanceAs (Decidable (c ∉ _))

theorem crosses_fields (hu : ∀ c ∈ u, Ordinary c) : Crosses (.fields d) u v [] (.fields d) := by
  induction u with
  | nil => exact crosses_nil _ _
  | cons c u ih =>
    obtain ⟨hc, hu⟩ := List.forall_mem_cons.mp hu
    simp only [Ordinary, List.mem_cons, List.not_mem_nil, or_false, not_or] at hc
    obtain ⟨h₁, h₂, h₃, h₄, h₅⟩ := hc
    have hnext : (Place.fields d).next (c :: (u ++ v)) = .fields d := by
      simp [Place.next, h₁, h₂, h₃, h₄, h₅]
    apply Crosses.cons
    · simp [Place.opens, h₁, h₂]
    · rw [hnext]
      exact ih hu

theorem crosses_escaped (c : Char) (v : List Char) : Crosses (.escaped d) [c] v [] (.quoted d) :=
  crosses_step rfl

theorem crosses_quoted (hu : ∀ c ∈ u, c ≠ '"' ∧ c ≠ '\\') :
    Crosses (.quoted d) u v [] (.quoted d) := by
  induction u with
  | nil => exact crosses_nil _ _
  | cons c u ih =>
    obtain ⟨⟨h₁, h₂⟩, hu⟩ := List.forall_mem_cons.mp hu
    have hnext : (Place.quoted d).next (c :: (u ++ v)) = .quoted d := by
      simp [Place.next, h₁, h₂]
    apply Crosses.cons rfl
    rw [hnext]
    exact ih hu

theorem crosses_backslash (h : Crosses (.escaped d) u v [] (.quoted d)) :
    Crosses (.quoted d) ('\\' :: u) v [] (.quoted d) :=
  Crosses.cons rfl h

theorem crosses_fragment {units : List UInt16} (h : Grammar.fragment u units) :
    Crosses (.quoted d) u v [] (.quoted d) := by
  rcases h with h | h
  · obtain ⟨_, hescape, -⟩ := bind_pure_iff.mp h
    obtain ⟨t, rfl, ht⟩ := symbol_bind_iff.mp hescape
    apply crosses_backslash
    rcases ht with hc | hunit
    · obtain ⟨_, ⟨c, rfl, -⟩, -⟩ := bind_pure_iff.mp hc
      exact crosses_escaped c v
    · rw [Grammar.unit_eq] at hunit
      obtain ⟨r, rfl, hr⟩ := symbol_bind_iff.mp hunit
      have hhex : ∀ {c : Char}, CharClass.hexDigit.contains c = true → c ≠ '"' ∧ c ≠ '\\' := by
        intro c hc
        constructor <;> rintro rfl <;> exact absurd hc (by decide)
      obtain ⟨c₁, r₁, rfl, h₁, hr₁⟩ := one_bind_iff.mp hr
      obtain ⟨c₂, r₂, rfl, h₂, hr₂⟩ := one_bind_iff.mp hr₁
      obtain ⟨c₃, r₃, rfl, h₃, hr₃⟩ := one_bind_iff.mp hr₂
      obtain ⟨c₄, ⟨rfl, h₄⟩, -⟩ := bind_pure_iff.mp hr₃
      apply (crosses_escaped 'u' _).quiet
      apply crosses_quoted
      simp only [List.forall_mem_cons]
      exact ⟨hhex h₁, hhex h₂, hhex h₃, hhex h₄, by simp⟩
  · obtain ⟨c, hc, -⟩ := bind_pure_iff.mp h
    apply crosses_quoted
    rcases hc with ⟨rfl, hc⟩ | ⟨rfl, hc⟩ | ⟨rfl, hc⟩
    · refine List.forall_mem_singleton.mpr ⟨?_, ?_⟩ <;> rintro rfl <;> exact absurd hc (by decide)
    · obtain rfl : c = '[' := by simpa using hc
      exact List.forall_mem_singleton.mpr (by decide)
    · obtain rfl : c = ']' := by simpa using hc
      exact List.forall_mem_singleton.mpr (by decide)

theorem crosses_fragments {units : List (List UInt16)} (h : Grammar.fragment.star u units) :
    Crosses (.quoted d) u v [] (.quoted d) := by
  induction h with
  | nil => exact crosses_nil _ _
  | cons h _ ih => exact (crosses_fragment h).quiet ih

theorem crosses_string {text : String} (h : Grammar.string u text) :
    Crosses (.fields d) u v [] (.fields d) := by
  obtain ⟨t, rfl, ht⟩ := symbol_bind_iff.mp h
  obtain ⟨w, r, units, rfl, hw, hr⟩ := bind_iff.mp ht
  obtain ⟨r, rfl, ⟨rfl, -⟩⟩ := symbol_bind_iff.mp hr
  apply Crosses.cons rfl
  exact (crosses_fragments hw).quiet (crosses_step rfl)

theorem ordinary_of_class {k : CharClass} (h : k.Misses ['(', '[', ')', ']', '"'])
    (hc : k.contains c = true) : Ordinary c := by
  intro hmem
  rw [h c hmem] at hc
  cases hc

theorem ordinary_blanks (h : ∀ c ∈ u, IsBlank c) : ∀ c ∈ u, Ordinary c :=
  fun c hc => ordinary_of_class (by decide) (h c hc)

theorem ordinary_letters : ∀ {cs u : List Char},
    (∀ c ∈ cs, (CharClass.letter c).Misses ['(', '[', ')', ']', '"']) →
      Grammar.letters cs u () → ∀ c ∈ u, Ordinary c
  | [], u, _, h => by
    obtain ⟨rfl, -⟩ := h
    simp
  | c :: cs, u, hcs, h => by
    obtain ⟨hc, hcs⟩ := List.forall_mem_cons.mp hcs
    obtain ⟨d, t, rfl, hd, ht⟩ := one_bind_iff.mp h
    exact List.forall_mem_cons.mpr ⟨ordinary_of_class hc hd, ordinary_letters hcs ht⟩

theorem ordinary_word {k : Keyword} (h : Grammar.word k u ()) : ∀ c ∈ u, Ordinary c := by
  have hk : k.Misses ['(', '[', ')', ']', '"'] := by cases k <;> decide
  exact ordinary_letters hk h

theorem ordinary_name {key : String} (h : Grammar.name u key) : ∀ c ∈ u, Ordinary c := by
  obtain ⟨c, t, rfl, hc, h⟩ := one_bind_iff.mp h
  obtain ⟨rest, h, -⟩ := bind_pure_iff.mp h
  obtain ⟨rfl, ht⟩ := star_one_iff.mp h
  exact List.forall_mem_cons.mpr
    ⟨ordinary_of_class (by decide) hc, fun d hd => ordinary_of_class (by decide) (ht d hd)⟩

theorem ordinary_number {x : Binary64} (h : Grammar.number u x) : ∀ c ∈ u, Ordinary c := by
  obtain ⟨n, hn, -⟩ := h
  have hdigit : ∀ c, IsDigit c → Ordinary c := fun c hc => ordinary_of_class (by decide) hc
  obtain ⟨sign, behind, rfl, hs, hl, hf⟩ := Grammar.numeral_iff.mp hn
  have hsign : ∀ c ∈ sign, Ordinary c := by
    cases hc : n.sign with
    | none =>
      rw [hc] at hs
      obtain rfl : sign = [] := hs
      simp
    | some c =>
      rw [hc] at hs
      obtain ⟨rfl, hminus⟩ := hs
      obtain rfl : c = '-' := by simpa using hminus
      exact List.forall_mem_singleton.mpr (by decide)
  have hbehind : ∀ c ∈ behind, Ordinary c := by
    obtain ⟨rfl, hds⟩ := Grammar.optional_fraction_iff.mp hf
    cases hf : n.fraction with
    | none => simp
    | some ds =>
      refine List.forall_mem_cons.mpr ⟨by decide, fun c hc => hdigit c ((hds ds hf).2 c hc)⟩
  intro c hc
  rcases List.mem_append.mp hc with hc | hc
  · exact hsign c hc
  rcases List.mem_append.mp hc with hc | hc
  · exact hdigit c (hl.isDigit c hc)
  · exact hbehind c hc

theorem crosses_scalar {value : Value} (h : Grammar.scalar u value) :
    Crosses (.fields d) u v [] (.fields d) := by
  rcases h with h | h | h
  · obtain ⟨x, hx, -⟩ := bind_pure_iff.mp h
    exact crosses_fields (ordinary_number hx)
  · obtain ⟨text, htext, -⟩ := bind_pure_iff.mp h
    exact crosses_string htext
  · obtain ⟨b, hb, -⟩ := bind_pure_iff.mp h
    rcases hb with hb | hb <;> obtain ⟨_, hword, -⟩ := bind_pure_iff.mp hb <;>
      exact crosses_fields (ordinary_word hword)

end FuncScript.Nesting

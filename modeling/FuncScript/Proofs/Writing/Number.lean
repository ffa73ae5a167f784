import FuncScript.Number.Written
import FuncScript.Proofs.Reading.Number
import FuncScript.Proofs.Shortest

/-!
The text of a finite number is a numeral of the grammar, and it is a numeral of that number.
-/

namespace FuncScript

open Grammar (Leads)

variable {d : Decimal} {x : Binary64}

namespace Decimal

theorem isDigit_of_char {c : Char} (h : c.isDigit = true) : IsDigit c := by
  rw [isDigit_iff]
  simp only [Char.isDigit, Bool.and_eq_true, decide_eq_true_eq, ge_iff_le] at h
  exact h

theorem isDigit_of_mem_zeros {n : Nat} {c : Char} (h : c ∈ zeros n) : IsDigit c := by
  rw [(List.mem_replicate.mp h).2]
  decide

theorem isDigit_of_mem_digits {c : Char} (h : c ∈ d.digits) : IsDigit c :=
  isDigit_of_char (Nat.isDigit_of_mem_toDigits (by decide) (by decide) h)

theorem ofDigitChars_digits (d : Decimal) : Nat.ofDigitChars 10 d.digits 0 = d.coefficient :=
  Nat.ofDigitChars_ten_toDigits

theorem exists_digits {n : Nat} (h : n ≠ 0) : ∃ c t, Nat.toDigits 10 n = c :: t ∧
    CharClass.nonzeroDigit.contains c = true ∧ ∀ e ∈ t, IsDigit e := by
  induction n using Nat.strongRecOn with
  | _ n ih =>
    by_cases hn : n < 10
    · have hall : ∀ k : Fin 10, (k : Nat) ≠ 0 →
          CharClass.nonzeroDigit.contains (k : Nat).digitChar = true := by decide
      exact ⟨n.digitChar, [], Nat.toDigits_of_lt_base hn, hall ⟨n, hn⟩ h, by simp⟩
    · obtain ⟨c, t, ht, hc, hd⟩ := ih (n / 10) (by omega) (by omega)
      refine ⟨c, t ++ [(n % 10).digitChar], ?_, hc, ?_⟩
      · rw [Nat.toDigits_of_base_le (by decide) (by omega), ht]
        rfl
      · intro e he
        rcases List.mem_append.mp he with he | he
        · exact hd e he
        · obtain rfl := List.mem_singleton.mp he
          apply isDigit_of_char
          rw [Nat.isDigit_digitChar, decide_eq_true_eq]
          omega

theorem leads_digits (h : d.coefficient ≠ 0) : Leads d.digits :=
  .inr (exists_digits h)

/-- A way to write a decimal: digits before and behind the point, and their value. -/
structure Splits (d : Decimal) (whole fraction : List Char) : Prop where
  leads : Leads whole
  digits : ∀ c ∈ fraction, IsDigit c
  value : Binary64.nearestMagnitude (Nat.ofDigitChars 10 (whole ++ fraction) 0)
    (Nat.pow 10 fraction.length) = Binary64.nearestMagnitude d.numerator d.denominator

theorem splits_of_ratio {whole fraction : List Char} (hl : Leads whole)
    (hd : ∀ c ∈ fraction, IsDigit c)
    (hr : Nat.ofDigitChars 10 (whole ++ fraction) 0 = d.numerator)
    (hp : fraction.length = (-d.exponent).toNat) : d.Splits whole fraction := by
  refine ⟨hl, hd, ?_⟩
  rw [hr, hp]
  rfl

theorem splits_behind (h : d.coefficient ≠ 0) (he : 0 ≤ d.exponent) :
    d.Splits (d.digits ++ zeros d.exponent.toNat) [] := by
  apply splits_of_ratio
  · obtain ⟨c, t, hct, hc, ht⟩ := exists_digits h
    refine .inr ⟨c, t ++ zeros d.exponent.toNat, ?_, hc, ?_⟩
    · rw [digits, hct]
      rfl
    · intro e he
      rcases List.mem_append.mp he with he | he
      · exact ht e he
      · exact isDigit_of_mem_zeros he
  · simp
  · rw [List.append_nil, Nat.ofDigitChars_append, ofDigitChars_digits, zeros,
      Nat.ofDigitChars_replicate_zero, numerator, Nat.mul_comm]
    rfl
  · rw [List.length_nil]
    omega

theorem numerator_of_neg (he : d.exponent < 0) : d.numerator = d.coefficient := by
  have hp : d.exponent.toNat = 0 := by omega
  rw [numerator, hp, Nat.pow_eq, Nat.pow_zero, Nat.mul_one]

theorem splits_among (h : d.coefficient ≠ 0) (he : d.exponent < 0) (hb : 0 < d.places) :
    d.Splits (d.digits.take d.places.toNat) (d.digits.drop d.places.toNat) := by
  have hplaces : d.places = d.digits.length + d.exponent := rfl
  apply splits_of_ratio
  · apply Leads.take (v := d.digits.drop d.places.toNat)
    · rw [List.take_append_drop]
      exact leads_digits h
    · intro hnil
      have := congrArg List.length hnil
      simp only [List.length_take, List.length_nil] at this
      omega
  · exact fun c hc => isDigit_of_mem_digits (List.mem_of_mem_drop hc)
  · rw [List.take_append_drop, ofDigitChars_digits, numerator_of_neg he]
  · rw [List.length_drop]
    omega

theorem splits_before (he : d.exponent < 0) (hb : d.places ≤ 0) :
    d.Splits ['0'] (zeros (-d.places).toNat ++ d.digits) := by
  have hplaces : d.places = d.digits.length + d.exponent := rfl
  apply splits_of_ratio
  · exact .inl rfl
  · intro c hc
    rcases List.mem_append.mp hc with hc | hc
    · exact isDigit_of_mem_zeros hc
    · exact isDigit_of_mem_digits hc
  · have hzero : ('0' :: zeros (-d.places).toNat) = zeros ((-d.places).toNat + 1) := rfl
    rw [List.singleton_append, ← List.cons_append, hzero, Nat.ofDigitChars_append, zeros,
      Nat.ofDigitChars_replicate_zero, Nat.mul_zero, ofDigitChars_digits, numerator_of_neg he]
  · rw [List.length_append, zeros, List.length_replicate]
    omega

theorem exists_splits (h : d.coefficient ≠ 0) : ∃ whole behind, d.Splits whole (behind.getD []) ∧
    (∀ ds, behind = some ds → ds ≠ []) ∧
    d.positionalText false = whole ++ (behind.map ('.' :: ·)).getD [] := by
  unfold positionalText
  by_cases he : 0 ≤ d.exponent
  · exact ⟨_, none, splits_behind h he, by simp, by simp [he]⟩
  have hneg : d.exponent < 0 := by omega
  have hplaces : d.places = d.digits.length + d.exponent := rfl
  by_cases hb : 0 < d.places
  · refine ⟨_, some (d.digits.drop d.places.toNat), splits_among h hneg hb, ?_, by simp [he, hb]⟩
    rintro ds hsome hnil
    have hlen := congrArg List.length ((Option.some.inj hsome).trans hnil)
    rw [List.length_drop, List.length_nil] at hlen
    omega
  · refine ⟨_, some (zeros (-d.places).toNat ++ d.digits), splits_before hneg (by omega), ?_,
      by simp [he, hb]⟩
    rintro ds hsome hnil
    have hlen := congrArg List.length ((Option.some.inj hsome).trans hnil)
    rw [List.length_append, List.length_nil] at hlen
    exact Nat.toDigits_ne_nil (List.eq_nil_of_length_eq_zero (Nat.eq_zero_of_add_eq_zero_left hlen))

end Decimal

namespace Binary64

theorem exists_numeral_magnitudeText {m : Nat} (h : m < infiniteMagnitude) (sign : Option Char) :
    ∃ n : Grammar.Numeral, n.sign = sign ∧ Leads n.whole ∧
      Phrase.optional Grammar.fraction ((n.fraction.map ('.' :: ·)).getD []) n.fraction ∧
      magnitudeText .script m = n.whole ++ (n.fraction.map ('.' :: ·)).getD [] ∧
      n.value = ofMagnitude sign.isSome m := by
  unfold magnitudeText
  by_cases h0 : m = 0
  · refine ⟨⟨sign, ['0'], none⟩, rfl, .inl rfl, rfl, by simp [h0, NumberForm.script], ?_⟩
    have hzero : Nat.ofDigitChars 10 ['0'] 0 = 0 := by decide
    have hden : 0 < Nat.pow 10 ([] : List Char).length := by decide
    simp only [Grammar.Numeral.value, ofNumeral, Option.getD_none, List.append_nil, hzero,
      nearestMagnitude_zero hden, h0]
  · have hreads := Decimal.readsAs_shortest .up h
    obtain ⟨whole, behind, hsplit, hne, htext⟩ :=
      Decimal.exists_splits (Decimal.coefficient_ne_zero hreads h0)
    refine ⟨⟨sign, whole, behind⟩, rfl, hsplit.leads, ?_, ?_, ?_⟩
    · rw [Grammar.optional_fraction_iff]
      refine ⟨rfl, ?_⟩
      rintro ds rfl
      exact ⟨hne ds rfl, hsplit.digits⟩
    · simp only [h0, if_false, NumberForm.script, NumberForm.isPositional, if_true]
      exact htext
    · simp only [Grammar.Numeral.value, ofNumeral]
      rw [hsplit.value, Decimal.readsAs_iff.mp hreads]

theorem number_text (h : x.isFinite = true) : Grammar.number (x.text .script) x := by
  have hm : x.magnitude < infiniteMagnitude := by simpa [isFinite] using h
  have hnan : x.isNaN = false := by
    rw [isNaN, decide_eq_false_iff_not]
    omega
  obtain ⟨n, hs, hl, hf, htext, hv⟩ :=
    exists_numeral_magnitudeText hm (if x.negative then some '-' else none)
  refine Grammar.number_iff.mpr ⟨n, Grammar.numeral_iff.mpr ⟨if x.negative then ['-'] else [], _, ?_, ?_, hl, hf⟩, ?_, h⟩
  · rw [text, hnan, if_neg Bool.false_ne_true, if_pos h, htext]
  · rw [hs]
    cases x.negative with
    | false => rfl
    | true => exact ⟨rfl, rfl⟩
  · rw [hv]
    have hsign : (if x.negative then some '-' else none : Option Char).isSome = x.negative := by
      cases x.negative <;> rfl
    rw [hsign, ofMagnitude_magnitude]

end Binary64

end FuncScript

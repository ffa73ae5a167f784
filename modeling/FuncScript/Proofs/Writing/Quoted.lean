import FuncScript.Proofs.Values

/-!
A quoted text is a string of the grammar, and it is the string of that text. Every character is
written as fragments whose units are the units of the character, and units of whole characters
decode to those characters.
-/

namespace FuncScript

open Phrase

namespace Units

theorem toNat_toUInt16 {n : Nat} (h : n < 0x10000) : n.toUInt16.toNat = n := by
  rw [Nat.toUInt16_eq, UInt16.toNat_ofNat']
  exact Nat.mod_eq_of_lt h

theorem decode_ofChar_append (c : Char) (units : List UInt16) :
    decode (ofChar c ++ units) = c :: decode units := by
  have hbounds := toNat_bounds c
  unfold ofChar
  split
  · next hlt =>
    have hu := toNat_toUInt16 hlt
    have hhigh : isHigh c.toNat.toUInt16 = false := by
      unfold isHigh
      rw [hu]
      simp only [Bool.and_eq_false_iff, decide_eq_false_iff_not]
      omega
    have hlow : isLow c.toNat.toUInt16 = false := by
      unfold isLow
      rw [hu]
      simp only [Bool.and_eq_false_iff, decide_eq_false_iff_not]
      omega
    have hlone : lone c.toNat.toUInt16 = c := by
      rw [lone, hhigh, hlow, hu]
      exact Char.ofNat_toNat c
    cases units with
    | nil => rw [List.append_nil, decode_single, hlone, decode_nil]
    | cons v rest =>
      rw [List.singleton_append, decode_lone rest (by rw [hhigh, Bool.false_and]), hlone]
  · next hge =>
    have hh := toNat_toUInt16 (n := 0xD800 + (c.toNat - 0x10000) / 0x400) (by omega)
    have hl := toNat_toUInt16 (n := 0xDC00 + (c.toNat - 0x10000) % 0x400) (by omega)
    have hpair : (isHigh (0xD800 + (c.toNat - 0x10000) / 0x400).toUInt16 &&
        isLow (0xDC00 + (c.toNat - 0x10000) % 0x400).toUInt16) = true := by
      simp only [isHigh, isLow, hh, hl, Bool.and_eq_true, decide_eq_true_eq]
      omega
    have hsum : 0x10000 + (0xD800 + (c.toNat - 0x10000) / 0x400 - 0xD800) * 0x400 +
        (0xDC00 + (c.toNat - 0x10000) % 0x400 - 0xDC00) = c.toNat := by omega
    simp only [List.cons_append, List.nil_append]
    rw [decode_pair units hpair, pair, hh, hl, hsum, Char.ofNat_toNat]

theorem decode_flatMap_ofChar (text : List Char) : decode (text.flatMap ofChar) = text := by
  induction text with
  | nil => rfl
  | cons c text ih => rw [List.flatMap_cons, decode_ofChar_append, ih]

end Units

namespace Grammar

theorem hexDigit_upper {n : Nat} (h : n < 16) : CharClass.hexDigit.contains (Hex.upper n) = true := by
  have : ∀ k : Fin 16, CharClass.hexDigit.contains (Hex.upper k) = true := by decide
  exact this ⟨n, h⟩

theorem fragment_escapeUnit (u : UInt16) : fragment (Quoted.escapeUnit u) [u] := by
  have hread := Hex.read_four_upper u.toNat_lt
  have hu : (Hex.read (Hex.four Hex.upper u.toNat)).toUInt16 = u := by
    rw [hread, Nat.toUInt16_eq, UInt16.ofNat_toNat]
  refine .inl (bind_pure_iff.mpr ⟨u, symbol_bind_iff.mpr ⟨_, rfl, .inr ?_⟩, rfl⟩)
  rw [unit_eq]
  refine symbol_bind_iff.mpr ⟨_, rfl, ?_⟩
  refine one_bind_iff.mpr ⟨_, _, rfl, hexDigit_upper (Nat.mod_lt _ (by decide)), ?_⟩
  refine one_bind_iff.mpr ⟨_, _, rfl, hexDigit_upper (Nat.mod_lt _ (by decide)), ?_⟩
  refine one_bind_iff.mpr ⟨_, _, rfl, hexDigit_upper (Nat.mod_lt _ (by decide)), ?_⟩
  refine one_bind_iff.mpr ⟨_, _, rfl, hexDigit_upper (Nat.mod_lt _ (by decide)), rfl, hu.symm⟩

theorem fragment_simple {c d : Char} (hc : CharClass.simpleEscape.contains c = true)
    (hd : Quoted.unescape c = d) (hn : d.toNat < 0x10000) :
    fragment ['\\', c] (Units.ofChar d) := by
  refine .inl (bind_pure_iff.mpr ⟨d.toNat.toUInt16, symbol_bind_iff.mpr ⟨_, rfl, .inl ?_⟩, ?_⟩)
  · exact bind_pure_iff.mpr ⟨d, ⟨c, rfl, Quoted.mem_letters_iff.mpr ⟨hc, hd⟩⟩, rfl⟩
  · rw [Units.ofChar, if_pos hn]

theorem fragment_plain {c : Char} (h : plain [c] c) : fragment [c] (Units.ofChar c) := by
  rw [fragment_eq]
  exact .inr (bind_pure_iff.mpr ⟨c, h, rfl⟩)

theorem escape_cases (c : Char) :
    (∃ d, Quoted.escape c = ['\\', d] ∧ CharClass.simpleEscape.contains d = true ∧
      Quoted.unescape d = c ∧ c.toNat < 0x10000) ∨
    (Quoted.escape c = [c] ∧ plain [c] c) ∨
    Quoted.escape c = (Units.ofChar c).flatMap Quoted.escapeUnit := by
  by_cases hletter : c ∈ ['"', '\\', '\n', '\r', '\t', '\x08', '\x0c']
  · left
    simp only [List.mem_cons, List.not_mem_nil, or_false] at hletter
    rcases hletter with rfl | rfl | rfl | rfl | rfl | rfl | rfl <;>
      exact ⟨_, rfl, rfl, rfl, by decide⟩
  · right
    simp only [List.mem_cons, List.not_mem_nil, or_false, not_or] at hletter
    obtain ⟨h₁, h₂, h₃, h₄, h₅, h₆, h₇⟩ := hletter
    simp only [Quoted.escape, h₁, h₂, h₃, h₄, h₅, h₆, h₇, if_false]
    by_cases hbracket : c = '[' ∨ c = ']'
    · refine .inl ⟨if_pos hbracket, .inr ?_⟩
      rcases hbracket with rfl | rfl
      · exact .inl ⟨rfl, rfl⟩
      · exact .inr ⟨rfl, rfl⟩
    · by_cases hprintable : CharClass.printable.contains c = true
      · exact .inl ⟨by rw [if_neg hbracket, if_pos hprintable], .inl ⟨rfl, hprintable⟩⟩
      · exact .inr (by rw [if_neg hbracket, if_neg hprintable])

theorem star_escape (c : Char) :
    ∃ units, Star fragment (Quoted.escape c) units ∧ units.flatten = Units.ofChar c := by
  rcases escape_cases c with ⟨d, he, hd, hu, hn⟩ | ⟨he, hp⟩ | he <;> rw [he]
  · exact ⟨[Units.ofChar c], star_one_word (fragment_simple hd hu hn), by simp⟩
  · exact ⟨[Units.ofChar c], star_one_word (fragment_plain hp), by simp⟩
  · refine ⟨(Units.ofChar c).map fun u => [u], ?_, ?_⟩
    · induction Units.ofChar c with
      | nil => exact .nil
      | cons u units ih => exact .cons (fragment_escapeUnit u) ih
    · rw [← List.flatMap_def]
      simp

theorem star_flatMap_escape (text : List Char) : ∃ units,
    Star fragment (text.flatMap Quoted.escape) units ∧
      units.flatten = text.flatMap Units.ofChar := by
  induction text with
  | nil => exact ⟨[], .nil, rfl⟩
  | cons c text ih =>
    obtain ⟨units, hs, hu⟩ := star_escape c
    obtain ⟨more, hs', hu'⟩ := ih
    refine ⟨units ++ more, star_append hs hs', ?_⟩
    rw [List.flatten_append, hu, hu', List.flatMap_cons]

theorem string_quote (text : String) : string (Quoted.quote text.toList) text := by
  obtain ⟨units, hs, hu⟩ := star_flatMap_escape text.toList
  rw [string_eq]
  refine symbol_bind_iff.mpr ⟨_, rfl, bind_mk hs ?_⟩
  refine symbol_bind_iff.mpr ⟨[], rfl, rfl, ?_⟩
  rw [hu, Units.decode_flatMap_ofChar, String.ofList_toList]

end Grammar

end FuncScript

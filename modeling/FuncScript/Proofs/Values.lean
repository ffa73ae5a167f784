import FuncScript.Proofs.Grammar

namespace FuncScript.Grammar

open Phrase

theorem hexDigit_eq :
    hexDigit = oneOf .hexDigit >>= fun c => pure (Hex.value c) := by
  funext w n
  apply propext
  rw [bind_pure_iff]
  constructor
  · rintro ⟨c, rfl, hc⟩
    obtain ⟨hcontains, rfl⟩ := Quoted.exists_hexDigits_iff.mp hc
    exact ⟨c, ⟨rfl, hcontains⟩, rfl⟩
  · rintro ⟨c, ⟨rfl, hcontains⟩, rfl⟩
    exact ⟨c, rfl, Quoted.exists_hexDigits_iff.mpr ⟨hcontains, rfl⟩⟩

theorem read_four (a b c d : Char) : Hex.read [a, b, c, d] =
    4096 * Hex.value a + 256 * Hex.value b + 16 * Hex.value c + Hex.value d := by
  simp only [Hex.read, List.foldl_cons, List.foldl_nil]
  omega

theorem unit_eq : unit = (do
    let _ ← symbol 'u'
    let a ← oneOf .hexDigit
    let b ← oneOf .hexDigit
    let c ← oneOf .hexDigit
    let d ← oneOf .hexDigit
    return (Hex.read [a, b, c, d]).toUInt16) := by
  simp only [unit, hexDigit_eq, LawfulMonad.bind_assoc, LawfulMonad.pure_bind, read_four]

theorem letter_eq :
    letter = oneOf .simpleEscape >>= fun c => pure (Quoted.unescape c) := by
  funext w d
  apply propext
  rw [bind_pure_iff]
  constructor
  · rintro ⟨c, rfl, hc⟩
    obtain ⟨hcontains, rfl⟩ := Quoted.mem_letters_iff.mp hc
    exact ⟨c, ⟨rfl, hcontains⟩, rfl⟩
  · rintro ⟨c, ⟨rfl, hcontains⟩, rfl⟩
    exact ⟨c, rfl, Quoted.mem_letters_iff.mpr ⟨hcontains, rfl⟩⟩

theorem escape_eq : escape = (do
    let _ ← symbol '\\'
    either (do let c ← oneOf .simpleEscape; return (Quoted.unescape c).toNat.toUInt16) unit) := by
  simp only [escape, letter_eq, LawfulMonad.bind_assoc, LawfulMonad.pure_bind]

theorem plain_iff {w : List Char} {c : Char} :
    plain w c ↔ w = [c] ∧ (CharClass.printable.contains c = true ∨ c = '[' ∨ c = ']') := by
  constructor
  · rintro (⟨rfl, hc⟩ | ⟨rfl, hc⟩ | ⟨rfl, hc⟩)
    · exact ⟨rfl, .inl hc⟩
    · exact ⟨rfl, .inr (.inl (by simpa using hc))⟩
    · exact ⟨rfl, .inr (.inr (by simpa using hc))⟩
  · rintro ⟨rfl, hc | rfl | rfl⟩
    · exact .inl ⟨rfl, hc⟩
    · exact .inr (.inl ⟨rfl, rfl⟩)
    · exact .inr (.inr ⟨rfl, rfl⟩)

theorem ofChar_plain {c : Char} (h : CharClass.printable.contains c = true ∨ c = '[' ∨ c = ']') :
    Units.ofChar c = [c.toNat.toUInt16] := by
  apply if_pos
  rcases h with h | rfl | rfl
  · exact CharClass.lt_of_contains rfl (by decide) h
  · decide
  · decide

theorem fragment_eq :
    fragment = either (do return [← escape]) (do return Units.ofChar (← plain)) := by
  have hplain : (plain >>= fun c => pure [c.toNat.toUInt16]) =
      plain >>= fun c => pure (Units.ofChar c) := by
    funext w units
    apply propext
    rw [bind_pure_iff, bind_pure_iff]
    apply exists_congr
    intro c
    apply and_congr_right
    intro hc
    rw [ofChar_plain (plain_iff.mp hc).2]
  rw [fragment, hplain]

theorem toList_eq_iff {text : String} {cs : List Char} : text.toList = cs ↔ text = String.ofList cs := by
  constructor
  · rintro rfl
    exact String.ofList_toList.symm
  · rintro rfl
    exact String.toList_ofList

theorem decoded_eq (units : List UInt16) :
    decoded units = pure (String.ofList (Units.decode units)) := by
  funext w text
  exact propext (and_congr_right fun _ => Units.decodes_iff.trans toList_eq_iff)

theorem string_eq : string = (do
    let _ ← symbol '"'
    let units ← star fragment
    let _ ← symbol '"'
    return String.ofList (Units.decode units.flatten)) := by
  simp only [string, decoded_eq]

theorem tidied_eq (raw : List Char) : tidied raw = pure (String.ofList (Body.tidy raw)) := by
  funext w body
  exact propext (and_congr_right fun _ => Body.tidies_iff.trans toList_eq_iff)

theorem script_eq (levels : Nat) : script levels = (do
    blanks
    word .func
    blanks
    let functionName ← name
    blanks
    let fields ← configuration levels
    blanks
    let raw ← block levels
    blanks
    let tags ← annotations
    return ⟨functionName, fields, String.ofList (Body.tidy raw), tags⟩) := by
  simp only [script, tidied_eq, LawfulMonad.pure_bind]

end FuncScript.Grammar

import FuncScript.Proofs.Writing.Quoted
import FuncScript.Proofs.Reading.Scalar

/-!
String literals fragment by fragment. Each fragment gives one 16-bit unit; surrogates that stand side
by side pair, from the left on, across the fragments that they come from, and no others do.
-/

namespace FuncScript

open Phrase

namespace Quoted

structure Digit where
  value : Fin 16
  capital : Bool

def Digit.char (d : Digit) : Char := if d.capital then Hex.upper d.value else Hex.lower d.value

inductive Fragment where
  | letter (c d : Char) (h : (c, d) ∈ letters)
  | unit (a b c d : Digit)
  | plain (c : Char) (h : CharClass.printable.contains c = true ∨ c = '[' ∨ c = ']')

namespace Fragment

def text : Fragment → List Char
  | letter c _ _ => ['\\', c]
  | unit a b c d => ['\\', 'u', a.char, b.char, c.char, d.char]
  | plain c _ => [c]

def value : Fragment → UInt16
  | letter _ d _ => d.toNat.toUInt16
  | unit a b c d => (4096 * a.value.val + 256 * b.value.val + 16 * c.value.val + d.value.val).toUInt16
  | plain c _ => c.toNat.toUInt16

end Fragment

theorem Digit.value_char (d : Digit) : Hex.value d.char = d.value := by
  unfold char
  split
  · exact Hex.value_upper d.value.isLt
  · exact Hex.value_lower d.value.isLt

theorem Digit.contains_char (d : Digit) : CharClass.hexDigit.contains d.char = true := by
  have hlower : ∀ k : Fin 16, CharClass.hexDigit.contains (Hex.lower k) = true := by decide
  unfold char
  split
  · exact Grammar.hexDigit_upper d.value.isLt
  · exact hlower d.value

theorem Digit.exists_char {c : Char} (h : CharClass.hexDigit.contains c = true) :
    ∃ d : Digit, d.char = c := by
  have hall : ∀ k : Fin 103, CharClass.hexDigit.contains (Char.ofNat k) = true →
      ∃ d : Fin 16, Hex.upper d = Char.ofNat k ∨ Hex.lower d = Char.ofNat k := by decide
  have hlt : c.toNat < 103 := CharClass.lt_of_contains rfl (by decide) h
  obtain ⟨d, hd⟩ := hall ⟨c.toNat, hlt⟩ (by rwa [Char.ofNat_toNat])
  rw [Char.ofNat_toNat] at hd
  rcases hd with hd | hd
  · exact ⟨⟨d, true⟩, hd⟩
  · exact ⟨⟨d, false⟩, hd⟩

end Quoted

open Quoted (Digit Fragment mem_letters_iff)

namespace Grammar

variable {w : List Char} {units : List UInt16}

theorem value_unit (a b c d : Digit) : (Fragment.unit a b c d).value =
    (Hex.read [a.char, b.char, c.char, d.char]).toUInt16 := by
  simp only [Hex.read, List.foldl_cons, List.foldl_nil, Digit.value_char]
  rw [Fragment.value]
  congr 1
  omega

theorem escape_iff {u : UInt16} : escape w u ↔
    (∃ c d h, w = (Fragment.letter c d h).text ∧ u = (Fragment.letter c d h).value) ∨
      ∃ a b c d, w = (Fragment.unit a b c d).text ∧ u = (Fragment.unit a b c d).value := by
  rw [escape_eq, unit_eq]
  constructor
  · intro h
    obtain ⟨_, rfl, h₁⟩ := symbol_bind_iff.mp h
    rcases h₁ with hletter | hunit
    · obtain ⟨c, _, rfl, hc, rfl, rfl⟩ := one_bind_iff.mp hletter
      exact .inl ⟨c, _, mem_letters_iff.mpr ⟨hc, rfl⟩, rfl, rfl⟩
    · obtain ⟨_, rfl, h₂⟩ := symbol_bind_iff.mp hunit
      obtain ⟨a, _, rfl, ha, h₃⟩ := one_bind_iff.mp h₂
      obtain ⟨b, _, rfl, hb, h₄⟩ := one_bind_iff.mp h₃
      obtain ⟨c, _, rfl, hc, h₅⟩ := one_bind_iff.mp h₄
      obtain ⟨d, _, rfl, hd, rfl, rfl⟩ := one_bind_iff.mp h₅
      obtain ⟨a, rfl⟩ := Digit.exists_char ha
      obtain ⟨b, rfl⟩ := Digit.exists_char hb
      obtain ⟨c, rfl⟩ := Digit.exists_char hc
      obtain ⟨d, rfl⟩ := Digit.exists_char hd
      exact .inr ⟨a, b, c, d, rfl, (value_unit a b c d).symm⟩
  · rintro (⟨c, d, h, rfl, rfl⟩ | ⟨a, b, c, d, rfl, rfl⟩)
    · obtain ⟨hc, rfl⟩ := mem_letters_iff.mp h
      exact symbol_bind_iff.mpr ⟨_, rfl, .inl (one_bind_iff.mpr ⟨_, _, rfl, hc, rfl, rfl⟩)⟩
    · refine symbol_bind_iff.mpr ⟨_, rfl, .inr (symbol_bind_iff.mpr ⟨_, rfl, ?_⟩)⟩
      refine one_bind_iff.mpr ⟨_, _, rfl, a.contains_char, ?_⟩
      refine one_bind_iff.mpr ⟨_, _, rfl, b.contains_char, ?_⟩
      refine one_bind_iff.mpr ⟨_, _, rfl, c.contains_char, ?_⟩
      exact one_bind_iff.mpr ⟨_, _, rfl, d.contains_char, rfl, value_unit a b c d⟩

theorem fragment_iff : fragment w units ↔ ∃ f : Fragment, w = f.text ∧ units = [f.value] := by
  constructor
  · rintro (h | h)
    · obtain ⟨u, hu, rfl⟩ := bind_pure_iff.mp h
      rcases escape_iff.mp hu with ⟨c, d, hd, rfl, rfl⟩ | ⟨a, b, c, d, rfl, rfl⟩
      · exact ⟨.letter c d hd, rfl, rfl⟩
      · exact ⟨.unit a b c d, rfl, rfl⟩
    · obtain ⟨c, hplain, rfl⟩ := bind_pure_iff.mp h
      obtain ⟨rfl, hc⟩ := plain_iff.mp hplain
      exact ⟨.plain c hc, rfl, rfl⟩
  · rintro ⟨f, rfl, rfl⟩
    cases f with
    | letter c d h =>
      exact .inl (bind_pure_iff.mpr ⟨_, escape_iff.mpr (.inl ⟨c, d, h, rfl, rfl⟩), rfl⟩)
    | unit a b c d =>
      exact .inl (bind_pure_iff.mpr ⟨_, escape_iff.mpr (.inr ⟨a, b, c, d, rfl, rfl⟩), rfl⟩)
    | plain c hc => exact .inr (bind_pure_iff.mpr ⟨c, plain_iff.mpr ⟨rfl, hc⟩, rfl⟩)

theorem star_fragment_iff {parts : List (List UInt16)} : Star fragment w parts ↔
    ∃ fragments : List Fragment, w = fragments.flatMap Fragment.text ∧
      parts = fragments.map fun f => [f.value] := by
  constructor
  · intro h
    induction h with
    | nil => exact ⟨[], rfl, rfl⟩
    | cons h _ ih =>
      obtain ⟨f, rfl, rfl⟩ := fragment_iff.mp h
      obtain ⟨fragments, rfl, rfl⟩ := ih
      exact ⟨f :: fragments, rfl, rfl⟩
  · rintro ⟨fragments, rfl, rfl⟩
    induction fragments with
    | nil => exact .nil
    | cons f fragments ih => exact .cons (fragment_iff.mpr ⟨f, rfl, rfl⟩) ih

theorem string_iff {text : String} : string w text ↔ ∃ fragments : List Fragment,
    w = '"' :: (fragments.flatMap Fragment.text ++ ['"']) ∧
      text.toList = Units.decode (fragments.map Fragment.value) := by
  have hflatten : ∀ fragments : List Fragment,
      (fragments.map fun f => [f.value]).flatten = fragments.map Fragment.value := by
    intro fragments
    rw [← List.flatMap_def, List.map_eq_flatMap]
  rw [string_eq]
  constructor
  · intro h
    obtain ⟨_, rfl, h₁⟩ := symbol_bind_iff.mp h
    obtain ⟨_, _, parts, rfl, hparts, h₂⟩ := bind_iff.mp h₁
    obtain ⟨_, rfl, rfl, rfl⟩ := symbol_bind_iff.mp h₂
    obtain ⟨fragments, rfl, rfl⟩ := star_fragment_iff.mp hparts
    exact ⟨fragments, rfl, by rw [String.toList_ofList, hflatten]⟩
  · rintro ⟨fragments, rfl, htext⟩
    have hparts := star_fragment_iff.mpr ⟨fragments, rfl, rfl⟩
    refine symbol_bind_iff.mpr ⟨_, rfl, bind_mk hparts (symbol_bind_iff.mpr ⟨[], rfl, rfl, ?_⟩)⟩
    rw [hflatten, ← htext, String.ofList_toList]

end Grammar

namespace Rule

/-- A literal is read, with the blanks before it, up to its closing quote. Where there is none the
rule fails and stays where it is. -/
theorem string_eq_fragments (s : State) :
    (∀ (spaces rest : List Char) (fragments : List Fragment),
      (∀ c ∈ spaces, CharClass.whitespace.contains c = true) →
      s.rest = spaces ++ '"' :: (fragments.flatMap Fragment.text ++ '"' :: rest) →
        ∃ text, (string s).1 = some text ∧
          (∀ cs, Units.Decodes (fragments.map Fragment.value) cs ↔ cs = text.toList) ∧
          (string s).2.cursor =
            s.cursor + spaces.length + (fragments.flatMap Fragment.text).length + 2) ∧
    ((¬ ∃ (spaces rest : List Char) (fragments : List Fragment),
      (∀ c ∈ spaces, CharClass.whitespace.contains c = true) ∧
      s.rest = spaces ++ '"' :: (fragments.flatMap Fragment.text ++ '"' :: rest)) →
        (string s).1 = none ∧ (string s).2.cursor = s.cursor) := by
  have hreads := reads_string (P := False) (s := s)
  constructor
  · intro spaces rest fragments hspaces hrest
    let text := String.ofList (Units.decode (fragments.map Fragment.value))
    have htext : text.toList = Units.decode (fragments.map Fragment.value) := String.toList_ofList
    have hword : Grammar.string ('"' :: (fragments.flatMap Fragment.text ++ ['"'])) text :=
      Grammar.string_iff.mpr ⟨fragments, rfl, htext⟩
    obtain ⟨hfound, hcursor⟩ := hreads.run_word (y := rest) (by simp [hrest])
      (Phrase.bind_mk (a := ()) hspaces hword)
    refine ⟨text, hfound, fun cs => ?_, ?_⟩
    · rw [Units.decodes_iff, htext]
    · simp only [hcursor, List.length_append, List.length_cons, List.length_nil]
      omega
  · intro hnone
    apply hreads.run_none
    intro w rest text he hw
    obtain ⟨spaces, _, _, rfl, hspaces, hstring⟩ := Phrase.bind_iff.mp hw
    obtain ⟨fragments, rfl, -⟩ := Grammar.string_iff.mp hstring
    exact hnone ⟨spaces, rest, fragments, hspaces, by simpa using he⟩

theorem string_eq_fragments_paired :
    let high : Fragment := .unit ⟨13, false⟩ ⟨8, true⟩ ⟨3, true⟩ ⟨13, true⟩
    let low : Fragment := .unit ⟨13, true⟩ ⟨14, false⟩ ⟨0, true⟩ ⟨0, true⟩
    let bracket : Fragment := .plain '[' (.inr (.inl rfl))
    let s : State := { text := " \"\\ud83D\\ud83D\\uDe00[\\uDe00\"x".toList.toArray, limit := 0 }
    let t : State := { text := " \"\\ud83D[".toList.toArray, limit := 0 }
    s.rest = [' '] ++ '"' :: ([high, high, low, bracket, low].flatMap Fragment.text ++ '"' :: ['x']) ∧
      (string s).1 = some (String.ofList
        [Units.replacement, Char.ofNat 0x1F600, '[', Units.replacement]) ∧
        (string s).2.cursor = 28 ∧ (string t).1 = none ∧ (string t).2.cursor = 0 := by
  intro high low bracket s t
  have hrest : s.rest = [' '] ++
      '"' :: ([high, high, low, bracket, low].flatMap Fragment.text ++ '"' :: ['x']) := by decide
  have hspaces : ∀ c ∈ [' '], CharClass.whitespace.contains c = true := by
    intro c hc
    obtain rfl := List.mem_singleton.mp hc
    decide
  obtain ⟨text, hfound, htext, hcursor⟩ :=
    (string_eq_fragments s).1 [' '] ['x'] [high, high, low, bracket, low] hspaces hrest
  have hdecodes : Units.Decodes ([high, high, low, bracket, low].map Fragment.value)
      [Units.replacement, Char.ofNat 0x1F600, '[', Units.replacement] :=
    Units.decodes_iff.mpr (by decide)
  have hopen : ¬ ∃ (spaces rest : List Char) (fragments : List Fragment),
      (∀ c ∈ spaces, CharClass.whitespace.contains c = true) ∧
      t.rest = spaces ++ '"' :: (fragments.flatMap Fragment.text ++ '"' :: rest) := by
    rintro ⟨spaces, rest, fragments, -, he⟩
    have hone : t.rest.count '"' = 1 := by decide
    rw [he, List.count_append, List.count_cons_self, List.count_append, List.count_cons_self] at hone
    omega
  obtain ⟨hnone, hback⟩ := (string_eq_fragments t).2 hopen
  refine ⟨hrest, ?_, hcursor, hnone, hback⟩
  rw [hfound, ← String.ofList_toList (s := text), ← (htext _).mp hdecodes]

end Rule

end FuncScript

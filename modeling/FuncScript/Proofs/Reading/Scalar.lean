import FuncScript.Proofs.Reading.Blanks
import FuncScript.Proofs.Values
import FuncScript.Rule.Scalar

namespace FuncScript

open Phrase

namespace Rule

variable {P : Prop} {K : Char → Prop} {s : State}

theorem viable_letters : ∀ cs : List Char, (Grammar.letters cs).Viable []
  | [] => viable_nil_pure ()
  | c :: cs => viable_nil_bind (viable_nil_one (contains_letter c)) fun _ => viable_letters cs

theorem begins_word {k : Keyword} {c : Char} {cs : List Char} (h : k.letters = c :: cs) :
    (Grammar.word k).Begins ((CharClass.letter c).contains · = true) := by
  rw [Grammar.word, h]
  exact (begins_one _).bind _

theorem tries_letters : ∀ (cs : List Char) (s : State),
    (letters cs).Tries P Never (Grammar.letters cs) s
  | [], _ => tries_pure ()
  | c :: cs, s => by
    apply (reads_oneOf ⟨c, contains_letter c⟩).tries.bind_never
    · intro w y a _ _
      exact tries_letters cs _
    · exact fun _ => settled_one _ _
    · exact fun _ => viable_letters cs
    · exact fun _ b _ hb => ⟨b, hb⟩

theorem reads_keyword (k : Keyword) : (keyword k).Reads P Never (Grammar.word k) s :=
  (tries_letters k.letters s).attempt

theorem settled_word (k : Keyword) : (Grammar.word k).Settled Never :=
  settled_of_tries fun _ => (reads_keyword k).tries

def GoesOnName (c : Char) : Prop := CharClass.nameContinue.contains c = true

instance : DecidablePred GoesOnName :=
  fun c => inferInstanceAs (Decidable (CharClass.nameContinue.contains c = true))

theorem tries_run {β : Type} {k k' : CharClass} (f : Char → List Char → β)
    (hk : ∃ c, k.contains c = true) (hk' : ∃ c, k'.contains c = true) :
    (oneOf k >>= fun a => many (oneOf k') >>= fun as => pure (f a as)).Tries P
      (k'.contains · = true)
      (Phrase.oneOf k >>= fun a => star (Phrase.oneOf k') >>= fun as => pure (f a as)) s := by
  apply (reads_oneOf hk).tries.bind_never
  · intro w y a _ _
    apply Tries.map
    exact (reads_many (fun _ => reads_oneOf hk') (begins_one _) hk' fun _ => settled_one _ _).tries
  · exact fun _ => settled_one _ _
  · exact fun a => viable_map_iff.mpr (viable_star_nil _)
  · intro a b a' hb
    obtain ⟨as, has, _⟩ := bind_pure_iff.mp hb
    exact ⟨f a' as, bind_pure_iff.mpr ⟨as, has, rfl⟩⟩

theorem tries_name : name.Tries P GoesOnName Grammar.name s :=
  tries_run (fun first rest => String.ofList (first :: rest)) ⟨'a', by decide⟩ ⟨'a', by decide⟩

theorem settled_name : Grammar.name.Settled GoesOnName := settled_of_tries fun _ => tries_name

theorem begins_name : Grammar.name.Begins (CharClass.nameStart.contains · = true) :=
  (begins_one _).bind _

theorem viable_name : Grammar.name.Viable [] :=
  ⟨['a'], "a", bind_mk (u := ['a']) (v := []) ⟨rfl, by decide⟩
    (bind_pure_iff.mpr ⟨[], .nil, rfl⟩)⟩

theorem reads_boolean : boolean.Reads P Never Grammar.boolean s := by
  apply Reads.orElse ((reads_keyword .yes).map fun _ => true) ((reads_keyword .no).map fun _ => false)
  · exact (begins_word rfl).bind _
  · exact (begins_word rfl).bind _
  · intro c hc
    rcases contains_letter_iff.mp hc with rfl | rfl <;> decide

theorem begins_boolean : Grammar.boolean.Begins (· ∈ ['T', 't', 'F', 'f']) := by
  apply (((begins_word rfl).bind _).either ((begins_word rfl).bind _)).mono
  rintro c (hc | hc) <;> rcases contains_letter_iff.mp hc with rfl | rfl <;> decide

theorem optional_bind_eq {α β : Type} {r : Rule α} {f : α → β} {k : Option α → Rule β}
    (hk : ∀ a, k (some a) = pure (f a)) :
    (optional r >>= k) = Rule.orElse (r >>= fun a => pure (f a)) (k none) := by
  funext s
  change andThen (optional r) k s = Rule.orElse (andThen r fun a => succeed (f a)) (k none) s
  simp only [andThen, optional, Rule.orElse]
  cases r s with
  | mk found s' =>
    cases found with
    | none => rfl
    | some a =>
      simp only [hk]
      rfl

theorem tries_optional_bind {α β : Type} {r : Rule α} {L : Phrase α} {L' : Phrase β}
    {S S' : Char → Prop} {k : Option α → Rule β} (f : α → β) (hk : ∀ a, k (some a) = pure (f a))
    (h : r.Reads P K L s) (h' : (k none).Tries P K L' s) (hS : L.Begins S) (hS' : L'.Begins S')
    (hd : ∀ c, S c → ¬ S' c) :
    (optional r >>= k).Tries P K (either (L >>= fun a => pure (f a)) L') s := by
  rw [optional_bind_eq hk]
  exact Tries.orElse (h.map f) h' (hS.bind _) hS' hd

theorem tries_one_bind {β : Type} {accepts : Char → Bool} {r : Rule Char} {f : Char → Rule β}
    {g : Char → Phrase β} (hr : r.Reads P Never (one accepts) s)
    (hf : ∀ c n, (f c).Tries P K (g c) (s.moved n)) (hv : ∀ c, (g c).Viable [])
    (hne : ∀ c b, ¬ g c [] b) : (r >>= f).Tries P K (one accepts >>= g) s :=
  hr.tries.bind_never (fun _ _ c _ _ => hf c _) (fun _ => settled_one _ _) hv
    fun a b _ hb => absurd hb (hne a b)

theorem reads_hexDigit : (oneOf .hexDigit).Reads P Never (Phrase.oneOf .hexDigit) s :=
  reads_oneOf ⟨'0', by decide⟩

theorem viable_hexDigit : (Phrase.oneOf .hexDigit).Viable [] :=
  viable_nil_one (c := '0') (by decide)

theorem begins_unit : Grammar.unit.Begins (· = 'u') := (begins_symbol 'u').bind _

theorem viable_unit : Grammar.unit.Viable [] := by
  rw [Grammar.unit_eq]
  exact viable_nil_bind (viable_nil_symbol 'u') fun _ =>
    viable_nil_bind viable_hexDigit fun _ =>
    viable_nil_bind viable_hexDigit fun _ =>
    viable_nil_bind viable_hexDigit fun _ => viable_map_iff.mpr viable_hexDigit

theorem tries_unit : (do
    let _ ← literal 'u'
    let a ← oneOf .hexDigit
    let b ← oneOf .hexDigit
    let c ← oneOf .hexDigit
    let d ← oneOf .hexDigit
    return (Hex.read [a, b, c, d]).toUInt16 : Rule UInt16).Tries P Never Grammar.unit s := by
  have hv := viable_hexDigit
  have hS := begins_one CharClass.hexDigit.contains
  rw [Grammar.unit_eq]
  apply tries_one_bind (reads_literal 'u')
  · intro _ _
    apply tries_one_bind reads_hexDigit
    · intro a _
      apply tries_one_bind reads_hexDigit
      · intro b _
        apply tries_one_bind reads_hexDigit
        · intro c _
          exact reads_hexDigit.tries.map _
        · exact fun c => viable_map_iff.mpr hv
        · exact fun c => (hS.bind _).not_nil
      · exact fun b => viable_nil_bind hv fun c => viable_map_iff.mpr hv
      · exact fun b => (hS.bind _).not_nil
    · exact fun a => viable_nil_bind hv fun b => viable_nil_bind hv fun c => viable_map_iff.mpr hv
    · exact fun a => (hS.bind _).not_nil
  · exact fun _ => viable_nil_bind hv fun _ =>
      viable_nil_bind hv fun b => viable_nil_bind hv fun c => viable_map_iff.mpr hv
  · exact fun _ => (hS.bind _).not_nil

theorem reads_escape : escape.Reads P Never Grammar.escape s := by
  rw [Grammar.escape_eq]
  apply Tries.attempt
  apply tries_one_bind (reads_literal '\\')
  · intro _ _
    apply tries_optional_bind (fun c => (Quoted.unescape c).toNat.toUInt16) (fun _ => rfl)
    · exact reads_oneOf ⟨'b', by decide⟩
    · exact tries_unit
    · exact begins_one _
    · exact begins_unit
    · rintro c hc rfl
      simp [CharClass.simpleEscape, CharClass.contains, ClassPart.contains] at hc
  · exact fun _ => viable_nil_either viable_unit
  · exact fun _ => (((begins_one _).bind _).either begins_unit).not_nil

theorem begins_escape : Grammar.escape.Begins (· = '\\') := (begins_symbol '\\').bind _

theorem reads_plain : plain.Reads P Never Grammar.plain s := by
  have hb : ∀ c : Char, CharClass.printable.contains c = true → ¬ (c = '[' ∨ c = ']') := by
    rintro c hc (rfl | rfl) <;> simp [CharClass.printable, CharClass.contains, ClassPart.contains] at hc
  apply (reads_oneOf ⟨'a', by decide⟩).orElse
  · apply (reads_literal '[').orElse (reads_literal ']').orElse_never (begins_symbol _)
      (begins_symbol _)
    rintro c rfl
    decide
  · exact begins_one _
  · exact (begins_symbol '[').either (begins_symbol ']')
  · exact hb

theorem begins_plain : Grammar.plain.Begins fun c =>
    CharClass.printable.contains c = true ∨ c = '[' ∨ c = ']' :=
  (begins_one _).either ((begins_symbol '[').either (begins_symbol ']'))

theorem not_plain {c : Char} (hc : c = '\\' ∨ c = '"') :
    ¬ (CharClass.printable.contains c = true ∨ c = '[' ∨ c = ']') := by
  rcases hc with rfl | rfl <;> decide

theorem reads_fragment : fragment.Reads P Never Grammar.fragment s := by
  rw [Grammar.fragment_eq]
  apply Reads.orElse (reads_escape.map fun u => [u]) (reads_plain.map Units.ofChar)
  · exact begins_escape.bind _
  · exact begins_plain.bind _
  · exact fun c hc => not_plain (.inl hc)

theorem settled_fragment : Grammar.fragment.Settled Never :=
  settled_of_tries fun _ => reads_fragment.tries

theorem begins_fragment : Grammar.fragment.Begins (· ≠ '"') := by
  apply ((begins_escape.bind _).either (begins_plain.bind _)).mono
  rintro c (rfl | hc)
  · decide
  · rintro rfl
    exact not_plain (.inr rfl) hc

theorem reads_fragments : (many fragment).Reads P (· ≠ '"') Grammar.fragment.star s :=
  reads_many (fun _ => reads_fragment) begins_fragment ⟨'a', by decide⟩ fun _ => settled_fragment

theorem begins_string : Grammar.string.Begins (· = '"') := (begins_symbol '"').bind _

theorem viable_string : Grammar.string.Viable [] := by
  rw [Grammar.string_eq]
  exact viable_nil_bind (viable_nil_symbol '"') fun _ =>
    viable_nil_bind (viable_star_nil _) fun _ => viable_map_iff.mpr (viable_nil_symbol '"')

theorem tries_quoted : (do
    let _ ← literal '"'
    let units ← many fragment
    let _ ← literal '"'
    return String.ofList (Units.decode units.flatten) : Rule String).Tries P Never
      Grammar.string s := by
  have hS := begins_symbol '"'
  rw [Grammar.string_eq]
  apply tries_one_bind (reads_literal '"')
  · intro _ _
    apply reads_fragments.tries.bind_begins
    · intro w y units _ _
      exact (reads_literal '"').tries.map fun _ => String.ofList (Units.decode units.flatten)
    · exact fun _ => hS.bind _
    · exact fun c hc h => hc h
    · exact fun _ => settled_of_tries fun _ => reads_fragments.tries
    · exact fun _ => viable_map_iff.mpr (viable_nil_symbol '"')
  · exact fun _ => viable_nil_bind (viable_star_nil _) fun _ =>
      viable_map_iff.mpr (viable_nil_symbol '"')
  · exact fun _ => not_nil_bind fun _ => (hS.bind _).not_nil

theorem reads_string : string.Reads P Never (Phrase.blanks >>= fun _ => Grammar.string) s := by
  apply Tries.attempt
  apply Tries.blanks_bind
  · apply begins_string.mono
    rintro c rfl
    decide
  · exact viable_string
  · exact fun _ _ => tries_quoted

theorem reads_string_of_solid (hs : Solid s.rest) : string.Reads P Never Grammar.string s :=
  (tries_quoted.of_solid hs).attempt

end Rule

end FuncScript

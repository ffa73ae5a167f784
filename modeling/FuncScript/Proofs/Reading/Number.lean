import FuncScript.Proofs.Magnitude
import FuncScript.Proofs.Reading.Scalar

/-!
The rule for numbers against the grammar. A numeral may be refused because it is too large, and so
may those that it begins; where no run of digits is that long this does not happen.
-/

namespace FuncScript

open Phrase

def IsDigit (c : Char) : Prop := CharClass.digit.contains c = true

instance : DecidablePred IsDigit :=
  fun c => inferInstanceAs (Decidable (CharClass.digit.contains c = true))

theorem isDigit_iff {c : Char} : IsDigit c ↔ '0' ≤ c ∧ c ≤ '9' := by
  simp [IsDigit, CharClass.digit, CharClass.contains, ClassPart.contains]

theorem IsDigit.le {c : Char} (h : IsDigit c) : c.toNat ≤ 57 := (isDigit_iff.mp h).2

/-- No run of digits has as many as 308 of them. -/
def ShortRuns (x : List Char) : Prop := ∀ ds, ds <:+: x → (∀ c ∈ ds, IsDigit c) → ds.length < 308

theorem ShortRuns.part {x y : List Char} (h : ShortRuns x) (hy : y <:+: x) : ShortRuns y :=
  fun ds hds => h ds (hds.trans hy)

namespace Grammar

def Leads (ds : List Char) : Prop :=
  ds = ['0'] ∨ ∃ c t, ds = c :: t ∧ CharClass.nonzeroDigit.contains c = true ∧ ∀ d ∈ t, IsDigit d

theorem isDigit_of_nonzero {c : Char} (h : CharClass.nonzeroDigit.contains c = true) :
    IsDigit c := by
  simp only [CharClass.nonzeroDigit, CharClass.contains, List.any_cons, List.any_nil, Bool.or_false,
    ClassPart.contains, Bool.bne_false, Bool.and_eq_true, decide_eq_true_eq] at h
  exact isDigit_iff.mpr ⟨Nat.le_trans (by decide) h.1, h.2⟩

theorem Leads.isDigit {ds : List Char} (h : Leads ds) : ∀ c ∈ ds, IsDigit c := by
  rcases h with rfl | ⟨c, t, rfl, hc, ht⟩
  · intro c hc
    obtain rfl := List.mem_singleton.mp hc
    decide
  · exact List.forall_mem_cons.mpr ⟨isDigit_of_nonzero hc, ht⟩

theorem Leads.take {u v : List Char} (h : Leads (u ++ v)) (hu : u ≠ []) : Leads u := by
  obtain ⟨d, r, rfl⟩ := List.exists_cons_of_ne_nil hu
  rcases h with h | ⟨c, t, h, hc, ht⟩
  · simp only [List.cons_append, List.cons.injEq, List.append_eq_nil_iff] at h
    exact .inl (by rw [h.1, h.2.1])
  · simp only [List.cons_append, List.cons.injEq] at h
    obtain ⟨rfl, rfl⟩ := h
    exact .inr ⟨d, r, rfl, hc, fun c hc => ht c (List.mem_append_left _ hc)⟩

theorem whole_iff {w ds : List Char} : whole w ds ↔ w = ds ∧ Leads ds := by
  constructor
  · rintro (h | h)
    · obtain ⟨c, hc, rfl⟩ := bind_pure_iff.mp h
      obtain ⟨rfl, hc⟩ := hc
      obtain rfl : c = '0' := by simpa using hc
      exact ⟨rfl, .inl rfl⟩
    · obtain ⟨c, t, rfl, hc, h⟩ := one_bind_iff.mp h
      obtain ⟨cs, hs, rfl⟩ := bind_pure_iff.mp h
      obtain ⟨rfl, ht⟩ := star_one_iff.mp hs
      exact ⟨rfl, .inr ⟨c, t, rfl, hc, ht⟩⟩
  · rintro ⟨rfl, rfl | ⟨c, t, rfl, hc, ht⟩⟩
    · exact .inl (bind_pure_iff.mpr ⟨'0', ⟨rfl, rfl⟩, rfl⟩)
    · exact .inr (one_bind_iff.mpr ⟨c, t, rfl, hc, bind_pure_iff.mpr ⟨t, star_one_iff.mpr ⟨rfl, ht⟩, rfl⟩⟩)

theorem fraction_iff {w ds : List Char} :
    fraction w ds ↔ w = '.' :: ds ∧ ds ≠ [] ∧ ∀ c ∈ ds, IsDigit c := by
  constructor
  · intro h
    obtain ⟨v, rfl, hv⟩ := symbol_bind_iff.mp h
    obtain ⟨c, t, rfl, hc, ht⟩ := one_bind_iff.mp hv
    obtain ⟨cs, hs, rfl⟩ := bind_pure_iff.mp ht
    obtain ⟨rfl, ht⟩ := star_one_iff.mp hs
    exact ⟨rfl, by simp, List.forall_mem_cons.mpr ⟨hc, ht⟩⟩
  · rintro ⟨rfl, hne, h⟩
    obtain ⟨c, t, rfl⟩ := List.exists_cons_of_ne_nil hne
    obtain ⟨hc, ht⟩ := List.forall_mem_cons.mp h
    exact symbol_bind_iff.mpr ⟨_, rfl, one_bind_iff.mpr ⟨c, t, rfl, hc,
      bind_pure_iff.mpr ⟨t, star_one_iff.mpr ⟨rfl, ht⟩, rfl⟩⟩⟩

theorem optional_fraction_iff {w : List Char} {behind : Option (List Char)} :
    Phrase.optional fraction w behind ↔ w = (behind.map ('.' :: ·)).getD [] ∧
      ∀ ds, behind = some ds → ds ≠ [] ∧ ∀ c ∈ ds, IsDigit c := by
  cases behind with
  | none => simp [Phrase.optional]
  | some ds => simp [Phrase.optional, fraction_iff]

theorem numeral_iff {w : List Char} {n : Numeral} : numeral w n ↔
    ∃ sign behind, w = sign ++ (n.whole ++ behind) ∧ Phrase.optional (symbol '-') sign n.sign ∧
      Leads n.whole ∧ Phrase.optional fraction behind n.fraction := by
  constructor
  · rintro ⟨sign, _, s, rfl, hs, digits, behind, ds, rfl, hd, h⟩
    obtain ⟨f, hf, rfl⟩ := bind_pure_iff.mp h
    obtain ⟨rfl, hl⟩ := whole_iff.mp hd
    exact ⟨sign, behind, rfl, hs, hl, hf⟩
  · rintro ⟨sign, behind, rfl, hs, hl, hf⟩
    exact bind_mk hs (bind_mk (whole_iff.mpr ⟨rfl, hl⟩) (bind_pure_iff.mpr ⟨_, hf, rfl⟩))

theorem isDigit_of_numeral {w : List Char} {n : Numeral} (h : numeral w n) :
    ∀ c ∈ n.whole ++ n.fraction.getD [], IsDigit c := by
  obtain ⟨_, behind, _, _, hl, hf⟩ := numeral_iff.mp h
  intro c hc
  rcases List.mem_append.mp hc with hc | hc
  · exact hl.isDigit c hc
  · cases hn : n.fraction with
    | none => simp [hn] at hc
    | some ds =>
      rw [hn] at hc
      exact ((optional_fraction_iff.mp hf).2 ds hn).2 c hc

def Numeral.value (n : Numeral) : Binary64 :=
  Binary64.ofNumeral n.sign.isSome n.whole (n.fraction.getD [])

theorem ofDigitChars_eq_decimal {cs : List Char} (h : ∀ c ∈ cs, IsDigit c) :
    Nat.ofDigitChars 10 cs 0 = decimal cs := by
  have hvalue : ∀ k : Fin 58, IsDigit (Char.ofNat k) →
      (Char.ofNat k).toNat - '0'.toNat = "0123456789".toList.idxOf (Char.ofNat k) := by decide
  induction cs using List.reverseRecOn with
  | nil => rfl
  | append_singleton cs c ih =>
    obtain ⟨hcs, hc⟩ := List.forall_mem_append.mp h
    have hdigit := hc c (List.mem_singleton_self c)
    have hc' := hvalue ⟨c.toNat, Nat.lt_succ_of_le hdigit.le⟩
    simp only [Char.ofNat_toNat] at hc'
    rw [Nat.ofDigitChars_append, ih hcs]
    simp only [decimal, List.reverse_append, List.reverse_singleton, List.singleton_append,
      List.map_cons, Nat.ofDigits_cons]
    rw [← hc' hdigit, Nat.ofDigitChars_cons, Nat.ofDigitChars_nil]
    ring

theorem ratio_eq {w : List Char} {n : Numeral} (h : numeral w n) : n.ratio =
    (Nat.ofDigitChars 10 (n.whole ++ n.fraction.getD []) 0 : Nat) /
      (Nat.pow 10 (n.fraction.getD []).length : Nat) := by
  have hdigits := isDigit_of_numeral h
  obtain ⟨hwhole, hbehind⟩ := List.forall_mem_append.mp hdigits
  rw [Numeral.ratio, Nat.ofDigitChars_append, Nat.ofDigitChars_eq_ofDigitChars_zero,
    ofDigitChars_eq_decimal hwhole, ofDigitChars_eq_decimal hbehind, Nat.pow_eq]
  push_cast
  field_simp

theorem denotes_iff {w : List Char} {n : Numeral} {x : Binary64} (h : numeral w n) :
    n.Denotes x ↔ n.value = x ∧ x.isFinite = true := by
  have hle := Binary64.nearestMagnitude_le
  have nearest_iff : ∀ m, Binary64.Nearest n.ratio m ↔ _ = m := fun m => by
    rw [ratio_eq h]
    exact Binary64.nearest_iff _ (Nat.pow_pos (by decide))
  constructor
  · rintro ⟨hsign, hnear, hfinite⟩
    refine ⟨?_, hfinite⟩
    rw [Numeral.value, Binary64.ofNumeral, (nearest_iff _).mp hnear, ← hsign,
      Binary64.ofMagnitude_magnitude]
  · rintro ⟨rfl, hfinite⟩
    refine ⟨Binary64.negative_ofMagnitude (hle _ _) _, (nearest_iff _).mpr ?_, hfinite⟩
    exact (Binary64.magnitude_ofMagnitude (hle _ _) _).symm

theorem number_iff {w : List Char} {x : Binary64} :
    number w x ↔ ∃ n : Numeral, numeral w n ∧ n.value = x ∧ x.isFinite = true :=
  exists_congr fun _ => and_congr_right denotes_iff

theorem isFinite_of_numeral {w : List Char} {n : Numeral} (h : numeral w n)
    (hl : n.whole.length ≤ 308) : n.value.isFinite = true :=
  Binary64.isFinite_ofNumeral _ (fun c hc => (isDigit_of_numeral h c hc).le) hl (by decide +kernel)

theorem exists_numeral_of_viable {u : List Char} (h : numeral.Viable u) :
    ∃ t n, numeral (u ++ t) n ∧ (n.whole <:+: u ∨ n.whole = ['0']) := by
  obtain ⟨t, n, ht⟩ := h
  obtain ⟨sign, behind, he, hs, hl, hf⟩ := numeral_iff.mp ht
  have ended : ∀ {ds : List Char}, Leads ds → numeral (sign ++ ds) ⟨n.sign, ds, none⟩ :=
    fun hd => numeral_iff.mpr ⟨sign, [], by simp, hs, hd, rfl⟩
  rcases split_cases he with ⟨d, r, rfl, _⟩ | ⟨rfl, _⟩ | ⟨d, r, rfl, hr⟩
  · refine ⟨d :: r ++ ['0'], ⟨n.sign, ['0'], none⟩, ?_, .inr rfl⟩
    rw [← List.append_assoc]
    exact ended (.inl rfl)
  · exact ⟨['0'], ⟨n.sign, ['0'], none⟩, ended (.inl rfl), .inr rfl⟩
  · have hr' : (d :: r) ++ t = n.whole ++ behind := hr.symm
    rcases split_cases hr' with ⟨d', r', hw, _⟩ | ⟨hw, _⟩ | ⟨d', r', hw, _⟩
    · have hl' : Leads (d :: r) := (hw ▸ hl).take (by simp)
      exact ⟨[], _, by simpa using ended hl', .inl (List.suffix_append sign (d :: r)).isInfix⟩
    · exact ⟨t, n, ht, .inl ⟨sign, [], by simp [hw]⟩⟩
    · exact ⟨t, n, ht, .inl ⟨sign, d' :: r', by simp [hw]⟩⟩

theorem viable_number_iff {u : List Char}
    (hu : ∀ ds, ds <:+: u → (∀ c ∈ ds, IsDigit c) → ds.length ≤ 308) :
    number.Viable u ↔ numeral.Viable u := by
  constructor
  · rintro ⟨t, x, n, hn, _⟩
    exact ⟨t, n, hn⟩
  · intro h
    obtain ⟨t, n, hn, hi⟩ := exists_numeral_of_viable h
    refine ⟨t, n.value, number_iff.mpr ⟨n, hn, rfl, isFinite_of_numeral hn ?_⟩⟩
    rcases hi with hi | hi
    · obtain ⟨_, _, _, _, hl, _⟩ := numeral_iff.mp hn
      exact hu _ hi hl.isDigit
    · simp [hi]

end Grammar

theorem ShortRuns.le {x ds : List Char} (h : ShortRuns x) (hi : ds <:+: x)
    (hd : ∀ c ∈ ds, IsDigit c) : ds.length ≤ 308 :=
  Nat.le_of_lt (h ds hi hd)

theorem ShortRuns.snoc {u ds : List Char} {c : Char} (h : ShortRuns u) (hi : ds <:+: u ++ [c])
    (hd : ∀ c ∈ ds, IsDigit c) : ds.length ≤ 308 := by
  rcases List.infix_concat_iff.mp hi with hs | hi
  · rcases List.suffix_concat_iff.mp hs with rfl | ⟨ds, rfl, hds⟩
    · simp
    · have hlt := h ds hds.isInfix fun d hds => hd d (List.mem_append_left _ hds)
      rw [List.length_append, List.length_singleton]
      omega
  · exact h.le hi hd

variable {P : Prop} {K : Char → Prop} {x : List Char} {i j k : Nat} {o : Outcome Grammar.Numeral}
  {notes : List Note}

theorem Reading.number (h : Reading P K Grammar.numeral x i o) (hs : P → ShortRuns x)
    (hf : ∀ n, o.found = some n → n.value.isFinite = true) :
    Reading P K Grammar.number x i ⟨o.found.map Grammar.Numeral.value, o.stop, o.notes⟩ := by
  constructor
  · intro a ha
    obtain ⟨n, hn, rfl⟩ := Option.map_eq_some_iff.mp ha
    obtain ⟨w, y, he, hw, hj⟩ := h.sound n hn
    exact ⟨w, y, he, Grammar.number_iff.mpr ⟨n, hw, rfl, hf n hn⟩, hj⟩
  · intro w y a he ha hy
    obtain ⟨n, hn, rfl, _⟩ := Grammar.number_iff.mp ha
    obtain ⟨ho, hj⟩ := h.complete w y n he hn hy
    exact ⟨by simp [ho], hj⟩
  · intro hP
    constructor
    · rintro w y a he ⟨n, hn, _⟩
      simpa using (h.exact hP).maximal w y n he hn
    · obtain ⟨u, y, rfl, hu⟩ := (h.exact hP).horizon
      have hsu : ShortRuns u := (hs hP).part (List.prefix_append u y).isInfix
      have next_iff : ∀ c, Grammar.number.Viable (u ++ [c]) ↔ Grammar.numeral.Viable (u ++ [c]) :=
        fun c => Grammar.viable_number_iff fun ds hi hd => hsu.snoc hi hd
      refine ⟨u, y, rfl, hu.transfer ?_ next_iff (fun _ => id) (fun _ => .inl) ?_⟩
      · exact (Grammar.viable_number_iff fun ds hi hd => hsu.le hi hd).mpr hu.viable
      · simpa using hu.reached
  · refine ⟨h.placed.within, ?_, ?_, ?_⟩
    · intro n hn u y he hu hshort hle
      refine (Grammar.viable_number_iff fun ds hi _ => ?_).mpr
        (h.placed.begun n hn u y he hu hshort hle)
      exact Nat.le_trans hi.length_le hshort
    · rintro w y a he ⟨n, hn, _⟩
      exact h.placed.inside w y n he hn
    · rintro ⟨t, a, n, hn, _⟩
      simpa using h.placed.touches ⟨t, n, hn⟩

theorem Reading.infinite {n : Grammar.Numeral} {e : Expectation}
    (h : Reading P K Grammar.numeral x i ⟨some n, j, notes⟩) (hs : P → ShortRuns x)
    (hn : n.value.isFinite = false) :
    Reading P K Grammar.number x i ⟨none, k, notes ++ [(j, e)]⟩ := by
  have none_finite : ∀ w y a, x = w ++ y → Grammar.number w a → (∀ c t, y = c :: t → ¬ K c) →
      False := by
    intro w y a he ha hy
    obtain ⟨n', hn', rfl, hf⟩ := Grammar.number_iff.mp ha
    obtain rfl : n = n' := by simpa using (h.complete w y n' he hn' hy).1
    rw [hn] at hf
    simp at hf
  constructor
  · intro a ha
    simp at ha
  · exact fun w y a he ha hy => (none_finite w y a he ha hy).elim
  · intro hP
    -- Short runs of digits are never too large, so there is nothing to show for the exact part.
    obtain ⟨w, y, rfl, hw, _⟩ := h.sound n rfl
    obtain ⟨sign, behind, rfl, _, hl, _⟩ := Grammar.numeral_iff.mp hw
    have hle : n.whole.length ≤ 308 := by
      refine (hs hP).le ⟨sign, behind ++ y, ?_⟩ hl.isDigit
      simp
    rw [Grammar.isFinite_of_numeral hw hle] at hn
    simp at hn
  · obtain ⟨w, y, rfl, hw, rfl⟩ := h.sound n rfl
    refine ⟨?_, ?_, fun w y a he ha hy => (none_finite w y a he ha hy).elim, ?_⟩
    · intro m hm
      rcases List.mem_append.mp hm with hm | hm
      · exact h.placed.within m hm
      · rw [List.mem_singleton.mp hm, List.length_append]
        simp only
        omega
    · intro m hm u z he hu hshort hle
      refine (Grammar.viable_number_iff fun ds hi _ => Nat.le_trans hi.length_le hshort).mpr ?_
      rcases List.mem_append.mp hm with hm | hm
      · exact h.placed.begun m hm u z he hu hshort hle
      · rw [List.mem_singleton.mp hm] at hle
        simp only at hle
        obtain ⟨r, rfl⟩ := List.prefix_of_prefix_length_le (he ▸ List.prefix_append u z)
          (List.prefix_append w y) (by omega)
        exact (Phrase.viable_of_word hw).of_append
    · rintro ⟨t, a, n', hn', _⟩
      rcases h.placed.touches ⟨t, n', hn'⟩ with ⟨m, hm, hat⟩ | ⟨_, hat⟩
      · exact .inl ⟨m, List.mem_append_left _ hm, hat⟩
      · exact .inl ⟨_, List.mem_append_right _ (List.mem_singleton_self _), hat⟩

namespace Rule

variable {s : State}

def GoesOnNumber (c : Char) : Prop := IsDigit c ∨ c = '.'

instance : DecidablePred GoesOnNumber :=
  fun c => inferInstanceAs (Decidable (IsDigit c ∨ c = '.'))

theorem tries_digits {β : Type} (k : CharClass) (hk : ∃ c, k.contains c = true)
    (f : Char → List Char → β) :
    (oneOf k >>= fun a => many (oneOf .digit) >>= fun as => pure (f a as)).Tries P IsDigit
      (Phrase.oneOf k >>= fun a => star (Phrase.oneOf .digit) >>= fun as => pure (f a as)) s :=
  tries_run f hk ⟨'0', by decide⟩

theorem tries_whole : wholeDigits.Tries P IsDigit Grammar.whole s := by
  apply tries_optional_bind (fun c => [c]) (fun _ => rfl)
  · exact (reads_literal '0').mono (by simp)
  · exact tries_digits _ ⟨'1', by decide⟩ List.cons
  · exact begins_symbol '0'
  · exact (begins_one _).bind _
  · rintro c rfl
    decide

theorem reads_fraction : fractionDigits.Reads P IsDigit Grammar.fraction s := by
  apply Tries.attempt
  apply tries_one_bind (reads_literal '.')
  · exact fun _ _ => tries_digits _ ⟨'0', by decide⟩ List.cons
  · exact fun _ => viable_nil_bind (viable_nil_one (c := '0') (by decide)) fun _ =>
      viable_map_iff.mpr (viable_star_nil _)
  · exact fun _ => ((begins_one _).bind _).not_nil

def numeral : Rule Grammar.Numeral := do
  let sign ← optional (literal '-')
  let digits ← wholeDigits
  let behind ← optional fractionDigits
  return ⟨sign, digits, behind⟩

def finite (n : Grammar.Numeral) : Rule Binary64 :=
  if n.value.isFinite then pure n.value else fail (.other "finite number")

theorem number_eq : number = attempt (numeral >>= finite) := by
  simp only [numeral, LawfulMonad.bind_assoc, LawfulMonad.pure_bind]
  rfl

theorem gives_finite {n : Grammar.Numeral} (h : n.value.isFinite = true) :
    (finite n).Gives s ⟨some n.value, s.cursor, []⟩ := by
  rw [finite, if_pos h]
  exact gives_pure _ _

theorem gives_infinite {n : Grammar.Numeral} (h : n.value.isFinite = false) :
    (finite n).Gives s ⟨none, s.cursor, [(s.cursor, .other "finite number")]⟩ := by
  rw [finite, if_neg (by simp [h])]
  exact gives_fail _ _

theorem begins_whole : Grammar.whole.Begins IsDigit := by
  intro w ds h
  obtain ⟨rfl, hl⟩ := Grammar.whole_iff.mp h
  rcases hl with rfl | ⟨c, t, rfl, hc, _⟩
  · exact ⟨'0', [], rfl, by decide⟩
  · exact ⟨c, t, rfl, Grammar.isDigit_of_nonzero hc⟩

theorem begins_fraction : Grammar.fraction.Begins (· = '.') := (begins_symbol '.').bind _

theorem settled_whole : Grammar.whole.Settled IsDigit := settled_of_tries fun _ => tries_whole

theorem viable_whole : Grammar.whole.Viable [] :=
  ⟨['0'], ['0'], Grammar.whole_iff.mpr ⟨rfl, .inl rfl⟩⟩

theorem tries_numeral : numeral.Tries P GoesOnNumber Grammar.numeral s := by
  have behind : ∀ (sign : Option Char) (digits : List Char) (s : State),
      (optional fractionDigits >>= fun behind => pure ⟨sign, digits, behind⟩).Tries P GoesOnNumber
        (Phrase.optional Grammar.fraction >>= fun behind =>
          pure (⟨sign, digits, behind⟩ : Grammar.Numeral)) s :=
    fun _ _ _ => (reads_fraction.optional begins_fraction ⟨'.', rfl⟩).tries.map _
  have apart : ∀ (sign : Option Char) (c : Char), IsDigit c → ∀ digits, ¬ Phrase.Viable
      (Phrase.optional Grammar.fraction >>= fun behind =>
        pure (⟨sign, digits, behind⟩ : Grammar.Numeral)) [c] := by
    intro sign c hc digits hv
    obtain ⟨t, _ | f, ht⟩ := viable_map_iff.mp hv
    · simp [Phrase.optional] at ht
    · obtain rfl := begins_fraction.viable ⟨t, f, ht⟩
      exact absurd hc (by decide)
  apply ((reads_literal '-').optional (begins_symbol '-') ⟨'-', rfl⟩).tries.bind_begins
  · intro _ _ sign _ _
    apply tries_whole.bind (fun _ _ digits _ _ => behind sign digits _)
    · refine ⟨apart sign, fun _ => viable_map_iff.mpr (viable_nil_optional _), ?_⟩
      intro digits n digits' hn
      obtain ⟨f, hf, _⟩ := bind_pure_iff.mp hn
      exact ⟨_, bind_pure_iff.mpr ⟨f, hf, rfl⟩⟩
    · exact fun _ _ _ c hc => .inl hc
    · exact fun _ => settled_whole
  · exact fun _ => begins_whole.bind _
  · rintro c (h | rfl)
    · exact h.elim
    · decide
  · exact fun _ => settled_of_tries fun _ =>
      ((reads_literal '-').optional (begins_symbol '-') ⟨'-', rfl⟩).tries
  · exact fun _ => viable_nil_bind viable_whole fun _ =>
      viable_map_iff.mpr (viable_nil_optional _)

theorem reads_number (hs : P → ShortRuns s.rest) : number.Reads P GoesOnNumber Grammar.number s := by
  rw [number_eq]
  obtain ⟨⟨found, j, notes⟩, hg, hn, hr⟩ := tries_numeral (P := P) (s := s)
  apply Tries.attempt
  cases found with
  | none => exact ⟨_, hg.bind_none, fun _ => hn rfl, hr.number hs (by simp)⟩
  | some n =>
    cases hf : n.value.isFinite with
    | true =>
      refine ⟨_, hg.bind_some (gives_finite hf), by simp, ?_⟩
      simp only [List.append_nil]
      apply hr.number hs
      rintro m ⟨⟩
      exact hf
    | false => exact ⟨_, hg.bind_some (gives_infinite hf), by simp, hr.infinite hs hf⟩

end Rule

end FuncScript

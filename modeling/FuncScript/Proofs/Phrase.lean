import FuncScript.Text.CharClass

/-!
Phrases whose words denote something. Nothing here says how a word is found: a sequence takes
any split of the word, a choice any alternative, a repetition any number of parts.
-/

namespace FuncScript

theorem split_cases {α : Type} {u v w y : List α} (h : u ++ v = w ++ y) :
    (∃ d z, w = u ++ d :: z ∧ v = d :: z ++ y) ∨ (u = w ∧ v = y) ∨
      ∃ d z, u = w ++ d :: z ∧ y = d :: z ++ v := by
  rcases List.append_eq_append_iff.mp h with ⟨z, hw, hv⟩ | ⟨z, hu, hy⟩
  · cases z with
    | nil => exact .inr (.inl ⟨by simpa using hw.symm, by simpa using hv⟩)
    | cons d z => exact .inl ⟨d, z, hw, hv⟩
  · cases z with
    | nil => exact .inr (.inl ⟨by simpa using hu, by simpa using hy.symm⟩)
    | cons d z => exact .inr (.inr ⟨d, z, hu, hy⟩)

def CharClass.Misses (k : CharClass) (cs : List Char) : Prop := ∀ c ∈ cs, k.contains c = false

-- Goes through the list; an instance for `∀ c : Char` would try every character there is.
instance (k : CharClass) (cs : List Char) : Decidable (k.Misses cs) := List.decidableBAll _ cs

/-- The words of a phrase, each with what it denotes. -/
def Phrase (α : Type) : Type := List Char → α → Prop

namespace Phrase

variable {α β γ : Type}

instance : Monad Phrase where
  pure a := fun w b => w = [] ∧ b = a
  bind L f := fun w b => ∃ u v a, w = u ++ v ∧ L u a ∧ f a v b

def one (accepts : Char → Bool) : Phrase Char := fun w c => w = [c] ∧ accepts c = true

def symbol (c : Char) : Phrase Char := one (· == c)

def oneOf (k : CharClass) : Phrase Char := one k.contains

def IsBlank (c : Char) : Prop := CharClass.whitespace.contains c = true

theorem isBlank_iff {c : Char} : IsBlank c ↔ c = ' ' ∨ c = '\t' ∨ c = '\r' ∨ c = '\n' := by
  simp [IsBlank, CharClass.whitespace, CharClass.contains, ClassPart.contains]

instance : DecidablePred IsBlank :=
  fun c => inferInstanceAs (Decidable (CharClass.whitespace.contains c = true))

theorem not_blank_of {S : Char → Prop} (h : ¬ S ' ' ∧ ¬ S '\t' ∧ ¬ S '\r' ∧ ¬ S '\n') {c : Char}
    (hc : S c) : ¬ IsBlank c := by
  intro hb
  obtain ⟨h₁, h₂, h₃, h₄⟩ := h
  rcases isBlank_iff.mp hb with rfl | rfl | rfl | rfl
  · exact h₁ hc
  · exact h₂ hc
  · exact h₃ hc
  · exact h₄ hc

theorem contains_letter_iff {u c : Char} :
    (CharClass.letter u).contains c = true ↔ c = u ∨ c = u.toLower := by
  simp [CharClass.letter, CharClass.contains, ClassPart.contains]

theorem contains_letter (c : Char) : (CharClass.letter c).contains c = true := by
  simp [CharClass.letter, CharClass.contains, ClassPart.contains]

def blanks : Phrase Unit := fun w _ => ∀ c ∈ w, IsBlank c

def either (L L' : Phrase α) : Phrase α := fun w a => L w a ∨ L' w a

def optional (L : Phrase α) : Phrase (Option α)
  | w, none => w = []
  | w, some a => L w a

inductive Star (L : Phrase α) : List Char → List α → Prop
  | nil : Star L [] []
  | cons {u v : List Char} {a : α} {as : List α} (h : L u a) (hs : Star L v as) :
      Star L (u ++ v) (a :: as)

def star (L : Phrase α) : Phrase (List α) := Star L

def separated (separator : Phrase Unit) (item : Phrase α) : Phrase (List α) :=
  either (pure []) do
    let first ← item
    let rest ← star do separator; item
    return first :: rest

theorem bind_iff {L : Phrase α} {f : α → Phrase β} {w : List Char} {b : β} :
    (L >>= f) w b ↔ ∃ u v a, w = u ++ v ∧ L u a ∧ f a v b := Iff.rfl

theorem bind_mk {L : Phrase α} {f : α → Phrase β} {u v : List Char} {a : α} {b : β}
    (h : L u a) (h' : f a v b) : (L >>= f) (u ++ v) b :=
  ⟨u, v, a, rfl, h, h'⟩

theorem bind_pure_iff {L : Phrase α} {f : α → β} {w : List Char} {b : β} :
    (L >>= fun a => pure (f a)) w b ↔ ∃ a, L w a ∧ b = f a := by
  constructor
  · rintro ⟨u, v, a, rfl, hu, rfl, rfl⟩
    exact ⟨a, by simpa using hu, rfl⟩
  · rintro ⟨a, ha, rfl⟩
    exact ⟨w, [], a, by simp, ha, rfl, rfl⟩

theorem one_bind_iff {accepts : Char → Bool} {f : Char → Phrase β} {w : List Char} {b : β} :
    (one accepts >>= f) w b ↔ ∃ c t, w = c :: t ∧ accepts c = true ∧ f c t b := by
  constructor
  · rintro ⟨u, v, c, rfl, ⟨rfl, hc⟩, hf⟩
    exact ⟨c, v, rfl, hc, hf⟩
  · rintro ⟨c, t, rfl, hc, hf⟩
    exact ⟨[c], t, c, rfl, ⟨rfl, hc⟩, hf⟩

theorem symbol_bind_iff {d : Char} {f : Char → Phrase β} {w : List Char} {b : β} :
    (symbol d >>= f) w b ↔ ∃ t, w = d :: t ∧ f d t b := by
  rw [symbol, one_bind_iff]
  constructor
  · rintro ⟨c, t, rfl, hc, hf⟩
    have : c = d := by simpa using hc
    subst this
    exact ⟨t, rfl, hf⟩
  · rintro ⟨t, rfl, hf⟩
    exact ⟨d, t, rfl, by simp, hf⟩

theorem bind_pure_self (L : Phrase α) : (L >>= fun a => pure a) = L := by
  funext w b
  apply propext
  rw [bind_pure_iff (f := fun a => a)]
  simp

theorem pure_bind_eq (a : α) (f : α → Phrase β) : ((pure a : Phrase α) >>= f) = f a := by
  funext w b
  apply propext
  constructor
  · rintro ⟨u, v, _, rfl, ⟨rfl, rfl⟩, hv⟩
    exact hv
  · intro h
    exact ⟨[], w, a, rfl, ⟨rfl, rfl⟩, h⟩

theorem bind_assoc_eq (L : Phrase α) (f : α → Phrase β) (g : β → Phrase γ) :
    (L >>= f) >>= g = L >>= fun a => f a >>= g := by
  funext w b
  apply propext
  constructor
  · rintro ⟨_, v, b', rfl, ⟨u, u', a, rfl, hu, hf⟩, hg⟩
    exact ⟨u, u' ++ v, a, by simp, hu, u', v, b', rfl, hf, hg⟩
  · rintro ⟨u, _, a, rfl, hu, u', v, b', rfl, hf, hg⟩
    exact ⟨u ++ u', v, b', by simp, ⟨u, u', a, rfl, hu, hf⟩, hg⟩

instance : LawfulMonad Phrase :=
  LawfulMonad.mk' Phrase bind_pure_self pure_bind_eq bind_assoc_eq

theorem either_comm (L L' : Phrase α) : either L L' = either L' L := by
  funext w a
  exact propext or_comm

theorem either_bind (L L' : Phrase α) (f : α → Phrase β) :
    either L L' >>= f = either (L >>= f) (L' >>= f) := by
  funext w b
  apply propext
  constructor
  · rintro ⟨u, v, a, rfl, hu | hu, hv⟩
    · exact .inl (bind_mk hu hv)
    · exact .inr (bind_mk hu hv)
  · rintro (⟨u, v, a, rfl, hu, hv⟩ | ⟨u, v, a, rfl, hu, hv⟩)
    · exact bind_mk (.inl hu) hv
    · exact bind_mk (.inr hu) hv

theorem bind_either (L : Phrase α) (f g : α → Phrase β) :
    (L >>= fun a => either (f a) (g a)) = either (L >>= f) (L >>= g) := by
  funext w b
  apply propext
  constructor
  · rintro ⟨u, v, a, rfl, hu, hv | hv⟩
    · exact .inl (bind_mk hu hv)
    · exact .inr (bind_mk hu hv)
  · rintro (⟨u, v, a, rfl, hu, hv⟩ | ⟨u, v, a, rfl, hu, hv⟩)
    · exact bind_mk hu (.inl hv)
    · exact bind_mk hu (.inr hv)

theorem blanks_blanks (L : Phrase α) :
    (blanks >>= fun _ => blanks >>= fun _ => L) = blanks >>= fun _ => L := by
  funext w a
  apply propext
  constructor
  · rintro ⟨u, _, _, rfl, hu, v, t, _, rfl, hv, ht⟩
    refine ⟨u ++ v, t, (), by simp, ?_, ht⟩
    intro c hc
    exact (List.mem_append.mp hc).elim (hu c) (hv c)
  · rintro ⟨u, v, _, rfl, hu, hv⟩
    exact ⟨u, v, (), rfl, hu, [], v, (), rfl, by simp [blanks], hv⟩

theorem star_mono {L L' : Phrase α} (h : ∀ w a, L w a → L' w a) {w : List Char} {as : List α}
    (hs : star L w as) : star L' w as := by
  induction hs with
  | nil => exact Star.nil
  | cons hu _ ih => exact Star.cons (h _ _ hu) ih

theorem star_one_word {L : Phrase α} {w : List Char} {a : α} (h : L w a) : star L w [a] := by
  have hs := Star.cons h .nil
  rwa [List.append_nil] at hs

theorem star_append {L : Phrase α} {u v : List Char} {as bs : List α} (hu : star L u as)
    (hv : star L v bs) : star L (u ++ v) (as ++ bs) := by
  induction hu with
  | nil => exact hv
  | cons h _ ih =>
    rw [List.append_assoc]
    exact .cons h ih

theorem bind_mono {L L' : Phrase α} {f f' : α → Phrase β} (h : ∀ w a, L w a → L' w a)
    (hf : ∀ a w b, f a w b → f' a w b) {w : List Char} {b : β} (hw : (L >>= f) w b) :
    (L' >>= f') w b := by
  obtain ⟨u, v, a, rfl, hu, hv⟩ := hw
  exact ⟨u, v, a, rfl, h _ _ hu, hf _ _ _ hv⟩

theorem star_iff {L : Phrase α} {w : List Char} {as : List α} :
    star L w as ↔ (w = [] ∧ as = []) ∨ (L >>= fun a => star L >>= fun as => pure (a :: as)) w as := by
  constructor
  · rintro (_ | ⟨hu, hs⟩)
    · exact .inl ⟨rfl, rfl⟩
    · exact .inr (bind_mk hu (bind_pure_iff.mpr ⟨_, hs, rfl⟩))
  · rintro (⟨rfl, rfl⟩ | ⟨u, v, a, rfl, hu, hv⟩)
    · exact Star.nil
    · obtain ⟨as, hs, rfl⟩ := bind_pure_iff.mp hv
      exact Star.cons hu hs

theorem star_one_iff {accepts : Char → Bool} {w cs : List Char} :
    star (one accepts) w cs ↔ w = cs ∧ ∀ c ∈ cs, accepts c = true := by
  constructor
  · intro h
    induction h with
    | nil => simp
    | cons hu _ ih =>
      obtain ⟨rfl, hc⟩ := hu
      obtain ⟨rfl, hcs⟩ := ih
      exact ⟨rfl, List.forall_mem_cons.mpr ⟨hc, hcs⟩⟩
  · rintro ⟨rfl, h⟩
    induction w with
    | nil => exact Star.nil
    | cons c cs ih =>
      obtain ⟨hc, hcs⟩ := List.forall_mem_cons.mp h
      exact Star.cons (u := [c]) ⟨rfl, hc⟩ (ih hcs)

theorem star_eq (L : Phrase α) : star L =
    either (pure []) (L >>= fun a => star L >>= fun as => pure (a :: as)) := by
  funext w as
  exact propext star_iff

def Viable (L : Phrase α) (u : List Char) : Prop := ∃ t a, L (u ++ t) a

def Goes (L : Phrase α) (c : Char) : Prop := ∃ w a, L w a ∧ L.Viable (w ++ [c])

/-- Each word denotes one thing, and goes on into longer words with characters of `K` only. -/
structure Settled (L : Phrase α) (K : Char → Prop) : Prop where
  goes : ∀ c, L.Goes c → K c
  unique : ∀ w a b, L w a → L w b → a = b

def Begins (L : Phrase α) (S : Char → Prop) : Prop := ∀ w a, L w a → ∃ c t, w = c :: t ∧ S c

theorem viable_of_word {L : Phrase α} {w : List Char} {a : α} (h : L w a) : L.Viable w :=
  ⟨[], a, by simpa using h⟩

theorem Viable.of_append {L : Phrase α} {u t : List Char} (h : L.Viable (u ++ t)) :
    L.Viable u := by
  obtain ⟨v, a, hv⟩ := h
  exact ⟨t ++ v, a, by simpa using hv⟩

theorem Viable.nil {L : Phrase α} {u : List Char} (h : L.Viable u) : L.Viable [] :=
  of_append (t := u) h

theorem Viable.head {L : Phrase α} {c : Char} {t : List Char} (h : L.Viable (c :: t)) :
    L.Viable [c] := by
  obtain ⟨v, a, hv⟩ := h
  exact ⟨t ++ v, a, hv⟩

theorem viable_nil_bind {L : Phrase α} {f : α → Phrase β} {u : List Char} (h : L.Viable u)
    (hf : ∀ a, (f a).Viable []) : (L >>= f).Viable u := by
  obtain ⟨t, a, ht⟩ := h
  obtain ⟨v, b, hv⟩ := hf a
  refine ⟨t ++ v, b, ?_⟩
  rw [← List.append_assoc]
  exact bind_mk ht hv

theorem Begins.viable {L : Phrase α} {S : Char → Prop} (h : L.Begins S) {c : Char}
    {u : List Char} (hv : L.Viable (c :: u)) : S c := by
  obtain ⟨t, a, ht⟩ := hv
  obtain ⟨d, v, he, hd⟩ := h _ _ ht
  simp only [List.cons_append, List.cons.injEq] at he
  rw [he.1]
  exact hd

theorem Begins.not_nil {L : Phrase α} {S : Char → Prop} (h : L.Begins S) (a : α) : ¬ L [] a := by
  intro ha
  obtain ⟨c, t, he, _⟩ := h _ _ ha
  simp at he

theorem Begins.mono {L : Phrase α} {S S' : Char → Prop} (h : L.Begins S) (hS : ∀ c, S c → S' c) :
    L.Begins S' := by
  intro w a ha
  obtain ⟨c, t, he, hc⟩ := h w a ha
  exact ⟨c, t, he, hS c hc⟩

theorem Begins.bind {L : Phrase α} {S : Char → Prop} (h : L.Begins S) (f : α → Phrase β) :
    (L >>= f).Begins S := by
  rintro _ b ⟨u, v, a, rfl, hu, _⟩
  obtain ⟨c, t, rfl, hc⟩ := h _ _ hu
  exact ⟨c, t ++ v, rfl, hc⟩

theorem not_nil_bind {L : Phrase α} {f : α → Phrase β} (h : ∀ a b, ¬ f a [] b) (b : β) :
    ¬ (L >>= f) [] b := by
  rintro ⟨u, v, a, he, _, hv⟩
  obtain ⟨_, rfl⟩ := List.append_eq_nil_iff.mp he.symm
  exact h a b hv

theorem begins_one (accepts : Char → Bool) : (one accepts).Begins (accepts · = true) := by
  rintro w c ⟨rfl, hc⟩
  exact ⟨c, [], rfl, hc⟩

theorem begins_symbol (c : Char) : (symbol c).Begins (· = c) :=
  (begins_one _).mono fun d hd => by simpa using hd

theorem Begins.either {L L' : Phrase α} {S S' : Char → Prop} (h : L.Begins S)
    (h' : L'.Begins S') : (either L L').Begins fun c => S c ∨ S' c := by
  rintro w a (ha | ha)
  · obtain ⟨c, t, he, hc⟩ := h w a ha
    exact ⟨c, t, he, .inl hc⟩
  · obtain ⟨c, t, he, hc⟩ := h' w a ha
    exact ⟨c, t, he, .inr hc⟩

theorem not_viable_pure {a : α} {c : Char} {t : List Char} :
    ¬ (pure a : Phrase α).Viable (c :: t) := by
  rintro ⟨v, b, hv, _⟩
  simp at hv

theorem viable_one_iff {accepts : Char → Bool} {c : Char} :
    (one accepts).Viable [c] ↔ accepts c = true := by
  constructor
  · rintro ⟨t, a, ht, ha⟩
    simp only [List.cons_append, List.nil_append, List.cons.injEq] at ht
    rw [ht.1]
    exact ha
  · intro h
    exact ⟨[], c, rfl, h⟩

theorem settled_one (accepts : Char → Bool) (K : Char → Prop) : (one accepts).Settled K := by
  constructor
  · rintro c ⟨w, a, ⟨rfl, _⟩, t, b, ht, _⟩
    simp at ht
  · rintro w a b ⟨rfl, _⟩ ⟨h, _⟩
    simpa using h

theorem Settled.bind_one {accepts : Char → Bool} {f : Char → Phrase β} {K : Char → Prop}
    (h : ∀ c, (f c).Settled K) : (one accepts >>= f).Settled K := by
  constructor
  · rintro c ⟨_, b, hw, t, b', ht⟩
    obtain ⟨d, v, rfl, _, hv⟩ := one_bind_iff.mp hw
    obtain ⟨d', v', he, _, hv'⟩ := one_bind_iff.mp ht
    simp only [List.cons_append, List.cons.injEq] at he
    obtain ⟨rfl, rfl⟩ := he
    exact (h d).goes c ⟨v, b, hv, t, b', hv'⟩
  · intro w b b' hw hw'
    obtain ⟨d, v, rfl, _, hv⟩ := one_bind_iff.mp hw
    obtain ⟨d', v', he, _, hv'⟩ := one_bind_iff.mp hw'
    simp only [List.cons.injEq] at he
    obtain ⟨rfl, rfl⟩ := he
    exact (h d).unique v b b' hv hv'

theorem Settled.bind_begins {L : Phrase α} {f : α → Phrase β} {K K' S : Char → Prop}
    (h : L.Settled K) (hf : ∀ a, (f a).Settled K') (hS : ∀ a, (f a).Begins S)
    (hd : ∀ c, K c → ¬ S c) : (L >>= f).Settled K' := by
  have split : ∀ u d x u' d' x' a a', u ++ d :: x = u' ++ d' :: x' → L u a → L u' a' → S d → S d' →
      u = u' ∧ d :: x = d' :: x' := by
    intro u d x u' d' x' a a' he hu hu' hs hs'
    rcases List.append_eq_append_iff.mp he with ⟨z, rfl, hz⟩ | ⟨z, rfl, hz⟩
    · cases z with
      | nil => simpa using hz
      | cons e z =>
        obtain rfl : d = e := by simpa using congrArg List.head? hz
        exact absurd hs (hd d (h.goes d ⟨u, a, hu, z, a', by simpa using hu'⟩))
    · cases z with
      | nil => simpa using hz.symm
      | cons e z =>
        obtain rfl : d' = e := by simpa using congrArg List.head? hz
        exact absurd hs' (hd d' (h.goes d' ⟨u', a', hu', z, a, by simpa using hu⟩))
  constructor
  · rintro c ⟨_, b, ⟨u, v, a, rfl, hu, hv⟩, t, b', u', v', a', he, hu', hv'⟩
    obtain ⟨d, x, rfl, hx⟩ := hS a v b hv
    obtain ⟨d', x', rfl, hx'⟩ := hS a' v' b' hv'
    obtain ⟨rfl, hv''⟩ := split u d (x ++ c :: t) u' d' x' a a' (by simpa using he) hu hu' hx hx'
    obtain rfl := h.unique u a a' hu hu'
    exact (hf a).goes c ⟨d :: x, b, hv, t, b', by simpa [hv''] using hv'⟩
  · rintro _ b b' ⟨u, v, a, rfl, hu, hv⟩ ⟨u', v', a', he, hu', hv'⟩
    obtain ⟨d, x, rfl, hx⟩ := hS a v b hv
    obtain ⟨d', x', rfl, hx'⟩ := hS a' v' b' hv'
    obtain ⟨rfl, hv''⟩ := split u d x u' d' x' a a' he hu hu' hx hx'
    obtain rfl := h.unique u a a' hu hu'
    rw [← hv''] at hv'
    exact (hf a).unique _ b b' hv hv'

theorem viable_map_iff {L : Phrase α} {g : α → β} {u : List Char} :
    (L >>= fun a => pure (g a)).Viable u ↔ L.Viable u := by
  constructor
  · rintro ⟨t, b, ht⟩
    obtain ⟨a, ha, _⟩ := bind_pure_iff.mp ht
    exact ⟨t, a, ha⟩
  · rintro ⟨t, a, ha⟩
    exact ⟨t, g a, bind_pure_iff.mpr ⟨a, ha, rfl⟩⟩

theorem Settled.map {L : Phrase α} {K : Char → Prop} (h : L.Settled K) (g : α → β) :
    (L >>= fun a => pure (g a)).Settled K := by
  constructor
  · rintro c ⟨w, b, hw, hv⟩
    obtain ⟨a, ha, _⟩ := bind_pure_iff.mp hw
    exact h.goes c ⟨w, a, ha, viable_map_iff.mp hv⟩
  · intro w b b' hw hw'
    obtain ⟨a, ha, rfl⟩ := bind_pure_iff.mp hw
    obtain ⟨a', ha', rfl⟩ := bind_pure_iff.mp hw'
    rw [h.unique w a a' ha ha']

theorem viable_star_nil (L : Phrase α) : L.star.Viable [] := ⟨[], [], Star.nil⟩

theorem viable_star {L : Phrase α} {u : List Char} (h : L.Viable u) : L.star.Viable u := by
  obtain ⟨t, a, ha⟩ := h
  have hs : L.star ((u ++ t) ++ []) [a] := Star.cons ha Star.nil
  exact ⟨t, [a], by simpa using hs⟩

theorem viable_star_cons_iff {L : Phrase α} {c : Char} {u : List Char} :
    L.star.Viable (c :: u) ↔ (L >>= fun a => L.star >>= fun as => pure (a :: as)).Viable (c :: u) := by
  constructor
  · rintro ⟨t, as, h⟩
    rcases star_iff.mp h with ⟨he, _⟩ | h
    · simp at he
    · exact ⟨t, as, h⟩
  · rintro ⟨t, as, h⟩
    exact ⟨t, as, star_iff.mpr (.inr h)⟩

theorem viable_nil_one {accepts : Char → Bool} {c : Char} (h : accepts c = true) :
    (one accepts).Viable [] := ⟨[c], c, rfl, h⟩

theorem viable_nil_symbol (c : Char) : (symbol c).Viable [] := viable_nil_one (beq_self_eq_true c)

theorem viable_nil_pure (a : α) : (pure a : Phrase α).Viable [] := ⟨[], a, rfl, rfl⟩

theorem viable_nil_blanks : blanks.Viable [] := ⟨[], (), by simp [blanks]⟩

theorem viable_either_iff {L L' : Phrase α} {u : List Char} :
    (either L L').Viable u ↔ L.Viable u ∨ L'.Viable u := by
  constructor
  · rintro ⟨t, a, ht | ht⟩
    · exact .inl ⟨t, a, ht⟩
    · exact .inr ⟨t, a, ht⟩
  · rintro (⟨t, a, ht⟩ | ⟨t, a, ht⟩)
    · exact ⟨t, a, .inl ht⟩
    · exact ⟨t, a, .inr ht⟩

theorem viable_nil_either {L L' : Phrase α} (h : L'.Viable []) : (either L L').Viable [] :=
  viable_either_iff.mpr (.inr h)

theorem viable_nil_optional (L : Phrase α) : L.optional.Viable [] := ⟨[], none, rfl⟩

theorem viable_optional {L : Phrase α} {u : List Char} (h : L.Viable u) : L.optional.Viable u := by
  obtain ⟨t, a, ht⟩ := h
  exact ⟨t, some a, ht⟩

theorem viable_optional_cases {L : Phrase α} {u : List Char} (h : L.optional.Viable u) :
    u = [] ∨ L.Viable u := by
  obtain ⟨t, _ | a, ht⟩ := h
  · exact .inl (List.append_eq_nil_iff.mp ht).1
  · exact .inr ⟨t, a, ht⟩

theorem viable_of_first {L : Phrase α} {u v t w : List Char} {c : Char} {a : α}
    (hnone : ∀ v z b, u = v ++ z → ¬ L v b) (he : u ++ [c] ++ t = w ++ v) (hw : L w a) :
    L.Viable (u ++ [c]) := by
  rw [List.append_assoc] at he
  rcases split_cases he with ⟨d, r, rfl, hr⟩ | ⟨rfl, _⟩ | ⟨d, r, rfl, _⟩
  · obtain rfl : c = d := by simpa using congrArg List.head? hr
    exact ⟨r, a, by simpa using hw⟩
  · exact absurd hw (hnone u [] a (by simp))
  · exact absurd hw (hnone w (d :: r) a rfl)

end Phrase

end FuncScript

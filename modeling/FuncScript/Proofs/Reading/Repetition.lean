import FuncScript.Proofs.Reading.Sequence

namespace FuncScript

variable {α β : Type} {P : Prop} {K K' : Char → Prop} {L L' : Phrase α} {x w y u : List Char}
  {i : Nat} {o : Outcome α}

section Repetition

variable {S : Char → Prop} {a : α} {j : Nat} {notes : List Note}

theorem Exact.star_nil (h : Exact L x i ⟨none, j, notes⟩) :
    Exact L.star x i ⟨some [], i, notes⟩ := by
  constructor
  · rintro w y as rfl hw
    cases hw with
    | nil => simp
    | cons hu _ => exact absurd hu (h.not_word rfl (List.append_assoc ..))
  · obtain ⟨u, y, rfl, hu⟩ := h.horizon
    have key : ∀ c, L.star.Viable (u ++ [c]) ↔ L.Viable (u ++ [c]) := by
      intro c
      refine ⟨?_, Phrase.viable_star⟩
      rintro ⟨t, as, hw⟩
      generalize hz : u ++ [c] ++ t = z at hw
      cases hw with
      | nil => simp at hz
      | cons hu' _ => exact Phrase.viable_of_first (fun w z a he => h.not_word_within rfl he) hz hu'
    exact ⟨u, y, rfl, hu.transfer (Phrase.viable_star hu.viable) key (fun _ => id)
      (fun _ => .inl) (.inl (hu.noted_of_none rfl))⟩

theorem Placed.star_nil (h : Reading P Never L x i ⟨none, j, notes⟩) (hS : L.Begins S)
    (hne : ∃ c, S c) : Placed S L.star x i ⟨some [], i, notes⟩ := by
  refine ⟨h.placed.within, ?_, ?_, ?_⟩
  · intro n hn u y he hu hshort hle
    exact Phrase.viable_star (h.placed.begun n hn u y he hu hshort hle)
  · rintro w y as rfl hw hy n hn
    cases hw with
    | nil => exact ⟨h.placed.le_of_begins hS hy n hn, fun _ => hne⟩
    | cons hu _ => exact absurd hu (h.not_word rfl (List.append_assoc ..) (by simp))
  · intro hx
    cases x with
    | nil => exact .inr ⟨rfl, rfl⟩
    | cons c x =>
      rcases viable_bind_cases (Phrase.viable_star_cons_iff.mp hx) with hv | ⟨u, d, r, a, he, hu, _⟩
      · exact .inl (h.placed.noted_of_none rfl hv)
      · exact absurd hu (h.not_word rfl he (by simp))

theorem Reading.star_nil (h : Reading P Never L x i ⟨none, j, notes⟩) (hS : L.Begins S)
    (hne : ∃ c, S c) : Reading P S L.star x i ⟨some [], i, notes⟩ := by
  refine ⟨?_, ?_, fun hP => (h.exact hP).star_nil, .star_nil h hS hne⟩
  · rintro as hf
    obtain rfl : [] = as := by simpa using hf
    exact ⟨[], x, rfl, .nil, by simp⟩
  · rintro w y as rfl hw _
    cases hw with
    | nil => simp
    | cons hu _ => exact absurd hu (h.not_word rfl (List.append_assoc ..) (by simp))

theorem Reading.star_of_parts {c : Char} {t : List Char} {o : Outcome (List α)}
    (h : Reading P S (L >>= fun a => L.star >>= fun as => pure (a :: as)) (c :: t ++ y) i o)
    (hv : (L >>= fun a => L.star >>= fun as => pure (a :: as)).Viable (c :: t)) (hc : S c)
    (ho : o.found.isSome = true) (hle : i ≤ o.stop) : Reading P S L.star (c :: t ++ y) i o := by
  have not_empty : ∀ z, c :: t ++ y = [] ++ z → ¬ ∀ d r, z = d :: r → ¬ S d := by
    intro z he hz
    exact hz c (t ++ y) (by simpa using he.symm) hc
  constructor
  · intro as has
    obtain ⟨v, z, he, hv, hs⟩ := h.sound as has
    exact ⟨v, z, he, Phrase.star_iff.mpr (.inr hv), hs⟩
  · intro v z as he hv hz
    rcases Phrase.star_iff.mp hv with ⟨rfl, rfl⟩ | hv
    · exact absurd hz (not_empty z he)
    · exact h.complete v z as he hv hz
  · intro hP
    constructor
    · intro v z as he hv
      rcases Phrase.star_iff.mp hv with ⟨rfl, rfl⟩ | hv
      · exact ⟨ho, by simpa using hle⟩
      · exact (h.exact hP).maximal v z as he hv
    · obtain ⟨u, z, he, hu⟩ := (h.exact hP).horizon
      obtain ⟨r, rfl, _⟩ := hu.begins hv he.symm
      exact ⟨c :: t ++ r, z, he, hu.transfer (Phrase.viable_star_cons_iff.mpr hu.viable)
        (fun _ => Phrase.viable_star_cons_iff) (fun _ => id) (fun _ => .inl) hu.reached⟩
  · refine ⟨h.placed.within, ?_, ?_, ?_⟩
    · intro n hn u z he hu hshort hle
      obtain ⟨d, r, rfl⟩ := List.exists_cons_of_ne_nil hu
      exact Phrase.viable_star_cons_iff.mpr (h.placed.begun n hn _ z he hu hshort hle)
    · intro v z as he hv hz
      rcases Phrase.star_iff.mp hv with ⟨rfl, rfl⟩ | hv
      · exact absurd hz (not_empty z he)
      · exact h.placed.inside v z as he hv hz
    · exact fun hx => h.placed.touches (Phrase.viable_star_cons_iff.mp hx)

theorem Reading.star_cons {o' : Outcome (List α)}
    (h : Reading P Never L (w ++ y) i ⟨some a, i + w.length, notes⟩) (hw : L w a)
    (h' : Reading P S L.star y (i + w.length) o') (ho : o'.found.isSome = true) (hS : L.Begins S)
    (hL : P → L.Settled Never) :
    Reading P S L.star (w ++ y) i ⟨o'.found.map (a :: ·), o'.stop, notes ++ o'.notes⟩ := by
  have hfollows : Follows Never fun a => L.star >>= fun as => pure (a :: as) := by
    refine ⟨by simp, fun a => Phrase.viable_map_iff.mpr L.viable_star_nil, ?_⟩
    rintro a b a' hb
    obtain ⟨as, has, _⟩ := Phrase.bind_pure_iff.mp hb
    exact ⟨a' :: as, Phrase.bind_pure_iff.mpr ⟨as, has, rfl⟩⟩
  have hparts := h.bind hw (h'.map (a :: ·)) hfollows (by simp) hL
  have hle : i ≤ o'.stop := by
    obtain ⟨as, has⟩ := Option.isSome_iff_exists.mp ho
    obtain ⟨_, _, _, _, hs⟩ := h'.sound as has
    omega
  obtain ⟨c, t, rfl, hc⟩ := hS w a hw
  exact hparts.star_of_parts (Phrase.viable_nil_bind (Phrase.viable_of_word hw) hfollows.inhabited)
    hc (by simpa using ho) hle

end Repetition

end FuncScript

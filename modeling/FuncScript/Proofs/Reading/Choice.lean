import FuncScript.Proofs.Reading.Basic

namespace FuncScript

variable {α β : Type} {P : Prop} {K K' : Char → Prop} {L L' : Phrase α} {x w y u : List Char}
  {i : Nat} {o : Outcome α}

section Choice

variable {S S' : Char → Prop} {a : α} {j : Nat} {notes : List Note} {o' : Outcome α}

theorem Reading.mono (h : Reading P K L x i o) (hK : ∀ c, K c → K' c) : Reading P K' L x i o := by
  have weaken : ∀ y : List Char, (∀ c t, y = c :: t → ¬ K' c) → ∀ c t, y = c :: t → ¬ K c :=
    fun _ hy c t ht hc => hy c t ht (hK c hc)
  refine ⟨h.sound, fun w y a he hw hy => h.complete w y a he hw (weaken y hy), h.exact, ?_⟩
  refine ⟨h.placed.within, h.placed.begun, ?_, h.placed.touches⟩
  intro w y a he hw hy n hn
  obtain ⟨hle, hgo⟩ := h.placed.inside w y a he hw (weaken y hy) n hn
  exact ⟨hle, fun hat => (hgo hat).imp hK⟩

theorem not_begins_both (hS : L.Begins S) (hS' : L'.Begins S') (hd : ∀ c, S c → ¬ S' c) {d : Char}
    {t v : List Char} (h : L.Viable (d :: t)) : ¬ L'.Viable (d :: v) :=
  fun h' => hd d (hS.viable h) (hS'.viable h')

theorem Horizon.either_left (notes : List Note) (h : Horizon L u y i o) (hu : u ≠ [])
    (hn : ∀ n ∈ notes, n.1 ≤ i) (ho : (∃ n ∈ o.notes, n.1 = i + u.length) ∨
      (o'.found.isSome = true ∧ o'.stop = i + u.length))
    (hS : L.Begins S) (hS' : L'.Begins S') (hd : ∀ c, S c → ¬ S' c) :
    Horizon (L.either L') u y i ⟨o'.found, o'.stop, o.notes ++ notes⟩ := by
  obtain ⟨d, t, rfl⟩ := List.exists_cons_of_ne_nil hu
  have key : ∀ c, (L.either L').Viable (d :: t ++ [c]) ↔ L.Viable (d :: t ++ [c]) := by
    intro c
    rw [Phrase.viable_either_iff]
    exact or_iff_left (not_begins_both hS hS' hd h.viable)
  refine h.transfer (Phrase.viable_either_iff.mpr (.inl h.viable)) key ?_ ?_ ho
  · intro n hn'
    exact List.mem_append_left _ hn'
  · intro n hn'
    refine (List.mem_append.mp hn').imp_right fun hn' => ?_
    have hle := hn n hn'
    rw [List.length_cons]
    omega

theorem Horizon.either_right (h : Horizon L [] (u ++ y) i ⟨none, j, notes⟩)
    (h' : Horizon L' u y i o') :
    Horizon (L.either L') u y i ⟨o'.found, o'.stop, notes ++ o'.notes⟩ := by
  refine h.join h' (Phrase.viable_either_iff.mpr (.inr h'.viable)) fun c => ?_
  rw [List.nil_append, List.nil_append, Phrase.viable_either_iff, or_comm]
  refine or_congr_right ⟨fun hv => ?_, fun ⟨hu, hv⟩ => by simpa [hu] using hv⟩
  cases u with
  | nil => exact ⟨rfl, hv⟩
  | cons d u => exact absurd hv.head (h.stuck d (u ++ y) rfl)

theorem Reading.either_begun {c : Char} {t : List Char} (h : Reading P K L (c :: t ++ y) i o)
    (hc : S c) (hv : L.Viable (c :: t)) (hS : L.Begins S) (hS' : L'.Begins S')
    (hd : ∀ c, S c → ¬ S' c) : Reading P K (L.either L') (c :: t ++ y) i o := by
  have other : ∀ w z b, c :: t ++ y = w ++ z → ¬ L' w b := by
    intro w z b he hb
    obtain ⟨c', t', rfl, hc'⟩ := hS' w b hb
    obtain rfl : c = c' := by simpa using congrArg List.head? he
    exact hd c hc hc'
  constructor
  · intro b hb
    obtain ⟨w, z, he, hw, hs⟩ := h.sound b hb
    exact ⟨w, z, he, .inl hw, hs⟩
  · rintro w z b he (hb | hb) hz
    · exact h.complete w z b he hb hz
    · exact absurd hb (other w z b he)
  · intro hP
    constructor
    · rintro w z b he (hb | hb)
      · exact (h.exact hP).maximal w z b he hb
      · exact absurd hb (other w z b he)
    · obtain ⟨u, z, he, hu⟩ := (h.exact hP).horizon
      refine ⟨u, z, he, ?_⟩
      obtain ⟨r, rfl, _⟩ := hu.begins hv he.symm
      simpa using hu.either_left [] (by simp) (by simp) hu.reached hS hS' hd
  · refine ⟨h.placed.within, ?_, ?_, ?_⟩
    · intro n hn u z he hu hshort hle
      exact Phrase.viable_either_iff.mpr (.inl (h.placed.begun n hn u z he hu hshort hle))
    · rintro w z b he (hb | hb) hz
      · exact h.placed.inside w z b he hb hz
      · exact absurd hb (other w z b he)
    · intro hx
      rcases Phrase.viable_either_iff.mp hx with hx | hx
      · exact h.placed.touches hx
      · exact absurd hx (not_begins_both hS hS' hd hv)

theorem Reading.either_some (h : Reading P K L x i ⟨some a, j, notes⟩) (hS : L.Begins S)
    (hS' : L'.Begins S') (hd : ∀ c, S c → ¬ S' c) :
    Reading P K (L.either L') x i ⟨some a, j, notes⟩ := by
  obtain ⟨w, y, rfl, hw, rfl⟩ := h.sound a rfl
  obtain ⟨c, t, rfl, hc⟩ := hS w a hw
  exact h.either_begun hc (Phrase.viable_of_word hw) hS hS' hd

theorem Exact.either_none (h : Exact L x i ⟨none, j, notes⟩) (h' : Exact L' x i o')
    (hS : L.Begins S) (hS' : L'.Begins S') (hd : ∀ c, S c → ¬ S' c) :
    Exact (L.either L') x i ⟨o'.found, o'.stop, notes ++ o'.notes⟩ := by
  constructor
  · rintro w z b he (hb | hb)
    · exact absurd hb (h.not_word rfl he)
    · exact h'.maximal w z b he hb
  · obtain ⟨u₁, y₁, rfl, h₁⟩ := h.horizon
    obtain ⟨u₂, y₂, he, h₂⟩ := h'.horizon
    cases u₁ with
    | nil =>
      refine ⟨u₂, y₂, he, Horizon.either_right (j := j) ?_ h₂⟩
      rw [← he]
      exact h₁
    | cons d u₁ =>
      have hu₂ : u₂ = [] := by
        cases u₂ with
        | nil => rfl
        | cons e u₂ =>
          obtain rfl : d = e := by simpa using congrArg List.head? he
          exact absurd h₂.viable (not_begins_both hS hS' hd h₁.viable)
      subst hu₂
      exact ⟨d :: u₁, y₁, rfl, h₁.either_left o'.notes (by simp) (by simpa using h₂.noted_le)
        (.inl (h₁.noted_of_none rfl)) hS hS' hd⟩

theorem Placed.either_none (h : Reading P K L x i ⟨none, j, notes⟩) (h' : Placed K L' x i o')
    (hS : L.Begins S) (hS' : L'.Begins S') (hd : ∀ c, S c → ¬ S' c) :
    Placed K (L.either L') x i ⟨o'.found, o'.stop, notes ++ o'.notes⟩ := by
  refine ⟨?_, ?_, ?_, ?_⟩
  · intro n hn
    exact (List.mem_append.mp hn).elim (h.placed.within n) (h'.within n)
  · intro n hn u y he hu hshort hle
    rw [Phrase.viable_either_iff]
    refine (List.mem_append.mp hn).imp (fun hn => ?_) (fun hn => ?_)
    · exact h.placed.begun n hn u y he hu hshort hle
    · exact h'.begun n hn u y he hu hshort hle
  · rintro w z b rfl (hb | hb) hz n hn
    · exact absurd hb (h.not_word rfl rfl hz)
    · rcases List.mem_append.mp hn with hn | hn
      · obtain ⟨c, t, rfl, hc⟩ := hS' w b hb
        have hle := h.placed.le_of_begins hS (by rintro _ _ ⟨⟩ hc'; exact hd c hc' hc) n hn
        rw [List.length_cons]
        exact ⟨by omega, fun hat => by omega⟩
      · exact h'.inside w z b rfl hb hz n hn
  · intro hx
    rcases Phrase.viable_either_iff.mp hx with hx | hx
    · obtain ⟨n, hn, hat⟩ := h.placed.noted_of_none rfl hx
      exact .inl ⟨n, List.mem_append_left _ hn, hat⟩
    · rcases h'.touches hx with ⟨n, hn, hat⟩ | hs
      · exact .inl ⟨n, List.mem_append_right _ hn, hat⟩
      · exact .inr hs

theorem Reading.either_none (h : Reading P K L x i ⟨none, j, notes⟩) (h' : Reading P K L' x i o')
    (hS : L.Begins S) (hS' : L'.Begins S') (hd : ∀ c, S c → ¬ S' c) :
    Reading P K (L.either L') x i ⟨o'.found, o'.stop, notes ++ o'.notes⟩ := by
  constructor
  · intro b hb
    obtain ⟨w, y, rfl, hw, hs⟩ := h'.sound b hb
    exact ⟨w, y, rfl, .inr hw, hs⟩
  · rintro w z b he (hb | hb) hz
    · exact absurd hb (h.not_word rfl he hz)
    · exact h'.complete w z b he hb hz
  · exact fun hP => (h.exact hP).either_none (h'.exact hP) hS hS' hd
  · exact .either_none h h'.placed hS hS' hd

theorem Reading.le_stop (h : Reading P K L x i o) (hs : o.found = none → o.stop = i) :
    i ≤ o.stop := by
  cases hf : o.found with
  | none => exact Nat.le_of_eq (hs hf).symm
  | some a =>
    obtain ⟨v, z, _, _, hl⟩ := h.sound a hf
    omega

theorem Exact.optional (h : Exact L x i o) (hs : i ≤ o.stop) :
    Exact L.optional x i ⟨some o.found, o.stop, o.notes⟩ := by
  constructor
  · rintro w y (_ | a) he hw
    · obtain rfl : w = [] := hw
      exact ⟨rfl, by simpa using hs⟩
    · exact ⟨rfl, (h.maximal w y a he hw).2⟩
  · obtain ⟨u, y, he, hu⟩ := h.horizon
    have key : ∀ c, L.optional.Viable (u ++ [c]) ↔ L.Viable (u ++ [c]) := by
      intro c
      refine ⟨fun hv => ?_, Phrase.viable_optional⟩
      exact (Phrase.viable_optional_cases hv).resolve_left (by simp)
    refine ⟨u, y, he, hu.transfer (Phrase.viable_optional hu.viable) key (fun _ => id)
      (fun _ => .inl) ?_⟩
    exact hu.reached.imp_right fun hr => ⟨rfl, hr.2⟩

theorem Placed.optional (h : Reading P K L x i o) (hs : o.found = none → o.stop = i)
    (hS : L.Begins S) (hne : ∃ c, S c) :
    Placed (fun c => K c ∨ S c) L.optional x i ⟨some o.found, o.stop, o.notes⟩ := by
  refine ⟨h.placed.within, ?_, ?_, ?_⟩
  · intro n hn u y he hu hshort hle
    exact Phrase.viable_optional (h.placed.begun n hn u y he hu hshort hle)
  · rintro w y (_ | a) he hw hy n hn
    · obtain rfl : w = [] := hw
      have hle := h.placed.le_of_begins hS
        (fun c t ht hc => hy c t (by rw [← ht, he]; rfl) (.inr hc)) n hn
      exact ⟨hle, fun _ => hne.imp fun _ => .inr⟩
    · obtain ⟨hle, hgo⟩ := h.placed.inside w y a he hw (fun c t ht hc => hy c t ht (.inl hc)) n hn
      exact ⟨hle, fun hat => (hgo hat).imp fun _ => .inl⟩
  · intro hx
    rcases Phrase.viable_optional_cases hx with rfl | hx
    · refine .inr ⟨rfl, ?_⟩
      cases hf : o.found with
      | none => exact hs hf
      | some a =>
        obtain ⟨v, z, he, _, hl⟩ := h.sound a hf
        obtain ⟨rfl, _⟩ := List.append_eq_nil_iff.mp he.symm
        exact hl
    · exact (h.placed.touches hx).imp_right fun ho => ⟨rfl, ho.2⟩

theorem Reading.optional (h : Reading P K L x i o) (hs : o.found = none → o.stop = i)
    (hS : L.Begins S) (hne : ∃ c, S c) :
    Reading P (fun c => K c ∨ S c) L.optional x i ⟨some o.found, o.stop, o.notes⟩ := by
  constructor
  · rintro b hb
    obtain rfl : o.found = b := by simpa using hb
    cases hf : o.found with
    | none => exact ⟨[], x, rfl, rfl, by simpa using hs hf⟩
    | some a => exact h.sound a hf
  · rintro w y (_ | a) he hw hy
    · obtain rfl : w = [] := hw
      have hn : o.found = none := by
        cases hf : o.found with
        | none => rfl
        | some a =>
          obtain ⟨v, z, rfl, hv, _⟩ := h.sound a hf
          obtain ⟨c, t, rfl, hc⟩ := hS v a hv
          exact absurd (.inr hc) (hy c (t ++ z) (by simpa using he.symm))
      exact ⟨by rw [hn], by simpa using hs hn⟩
    · obtain ⟨hf, hl⟩ := h.complete w y a he hw fun c t ht hc => hy c t ht (.inl hc)
      exact ⟨by rw [hf], hl⟩
  · exact fun hP => (h.exact hP).optional (h.le_stop hs)
  · exact .optional h hs hS hne

end Choice

end FuncScript

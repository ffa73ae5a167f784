import FuncScript.Proofs.Reading.Basic

/-!
What one rule after another reads. Where the first part could go on, nothing that may stand behind
it begins with the same character, so no other split of the text is a word of both.
-/

namespace FuncScript

variable {α β : Type} {P : Prop} {K K' : Char → Prop} {L L' : Phrase α} {x w y u : List Char}
  {i : Nat} {o : Outcome α}

/-- What may stand behind words that go on with characters of `K` only. -/
structure Follows (K : Char → Prop) (f : α → Phrase β) : Prop where
  apart : ∀ c, K c → ∀ a, ¬ (f a).Viable [c]
  inhabited : ∀ a, (f a).Viable []
  alike : ∀ a b a', f a [] b → ∃ b', f a' [] b'

theorem Follows.of_begins {S : Char → Prop} {f : α → Phrase β} (hS : ∀ a, (f a).Begins S)
    (hd : ∀ c, K c → ¬ S c) (hv : ∀ a, (f a).Viable []) : Follows K f :=
  ⟨fun c hc a h => hd c hc ((hS a).viable h), hv, fun a b _ hb => absurd hb ((hS a).not_nil b)⟩

section Sequence

variable {f : α → Phrase β} {a : α} {notes : List Note} {o' : Outcome β}

theorem not_word_inside (hL : L.Settled K) (hf : ∀ c, K c → ∀ a, ¬ (f a).Viable [c]) {d : Char}
    {t v : List Char} {a' : α} {b : β} (hw : L (u ++ d :: t) a) (hu : L u a') :
    ¬ f a' (d :: v) b := by
  intro hv
  refine hf d (hL.goes d ⟨u, a', hu, t, a, ?_⟩) a' ⟨v, b, hv⟩
  simpa using hw

theorem viable_bind_end_iff (hL : L.Settled K) (hf : Follows K f) (hw : L w a)
    (hs : ∀ d t, u = d :: t → ¬ L.Viable (w ++ [d])) (c : Char) :
    (L >>= f).Viable (w ++ u ++ [c]) ↔
      (f a).Viable (u ++ [c]) ∨ (u = [] ∧ L.Viable (w ++ [c])) := by
  constructor
  · rintro ⟨t, b, u', v, a', he, hu, hv⟩
    simp only [List.append_assoc] at he
    rcases split_cases he with ⟨d, r, rfl, hr⟩ | ⟨rfl, rfl⟩ | ⟨d, r, rfl, rfl⟩
    · have hd : L.Viable (w ++ [d]) := ⟨r, a', by simpa using hu⟩
      cases u with
      | nil =>
        obtain rfl : c = d := by simpa using congrArg List.head? hr
        exact .inr ⟨rfl, hd⟩
      | cons e u =>
        obtain rfl : e = d := by simpa using congrArg List.head? hr
        exact absurd hd (hs e u rfl)
    · obtain rfl := hL.unique _ _ _ hw hu
      exact .inl ⟨t, b, by simpa using hv⟩
    · exact absurd hv (not_word_inside hL hf.apart hw hu)
  · rintro (⟨t, b, ht⟩ | ⟨rfl, hg⟩)
    · refine ⟨t, b, ?_⟩
      simp only [List.append_assoc] at ht ⊢
      exact Phrase.bind_mk hw ht
    · simpa using Phrase.viable_nil_bind hg hf.inhabited

theorem viable_bind_past_iff (hL : L.Settled K) (hf : Follows K f) (hw : L w a) {d : Char}
    {z : List Char} (hg : L.Goes d)
    (hm : ∀ u t a', w ++ d :: z = u ++ t → L u a' → u.length ≤ w.length) (c : Char) :
    (L >>= f).Viable (w ++ d :: z ++ [c]) ↔ L.Viable (w ++ d :: z ++ [c]) := by
  constructor
  · rintro ⟨t, b, u, v, a', he, hu, hv⟩
    have he' : (w ++ d :: z) ++ ([c] ++ t) = u ++ v := by simpa using he
    rcases split_cases he' with ⟨e, r, rfl, hr⟩ | ⟨rfl, _⟩ | ⟨e, r, hr, rfl⟩
    · obtain rfl : c = e := by simpa using congrArg List.head? hr
      exact ⟨r, a', by simpa using hu⟩
    · have hlen := hm _ [] a' (by simp) hu
      simp only [List.length_append, List.length_cons] at hlen
      omega
    · have hlen := hm u (e :: r) a' hr hu
      rcases split_cases hr with ⟨e', r', rfl, _⟩ | ⟨rfl, hr'⟩ | ⟨e', r', rfl, hr'⟩
      · simp only [List.length_append, List.length_cons] at hlen
        omega
      · obtain rfl : d = e := by simpa using congrArg List.head? hr'
        exact absurd ⟨r ++ ([c] ++ t), b, hv⟩ (hf.apart d (hL.goes d hg) a')
      · obtain rfl : e = e' := by simpa using congrArg List.head? hr'
        exact absurd hv (not_word_inside hL hf.apart hw hu)
  · intro h
    exact Phrase.viable_nil_bind h hf.inhabited

theorem Horizon.bind_end (h : Horizon L w (u ++ y) i ⟨some a, i + w.length, notes⟩)
    (h' : Horizon (f a) u y (i + w.length) o') (hL : L.Settled K) (hf : Follows K f) (hw : L w a) :
    Horizon (L >>= f) (w ++ u) y i ⟨o'.found, o'.stop, notes ++ o'.notes⟩ := by
  apply h.join h'
  · obtain ⟨t, b, ht⟩ := h'.viable
    refine ⟨t, b, ?_⟩
    rw [List.append_assoc]
    exact Phrase.bind_mk hw ht
  · exact viable_bind_end_iff hL hf hw fun d t hu => h.stuck d (t ++ y) (by simp [hu])

theorem Horizon.bind_past {d : Char} {z : List Char}
    (h : Horizon L (w ++ d :: z) y i ⟨some a, i + w.length, notes⟩)
    (hn' : ∀ n ∈ o'.notes, n.1 ≤ i + w.length) (hL : L.Settled K) (hf : Follows K f) (hw : L w a)
    (hm : ∀ u t a', w ++ d :: z = u ++ t → L u a' → u.length ≤ w.length) :
    Horizon (L >>= f) (w ++ d :: z) y i ⟨o'.found, o'.stop, notes ++ o'.notes⟩ := by
  have hg : L.Goes d := by
    refine ⟨w, a, hw, Phrase.Viable.of_append (t := z) ?_⟩
    simpa using h.viable
  refine h.transfer (Phrase.viable_nil_bind h.viable hf.inhabited)
    (viable_bind_past_iff hL hf hw hg hm) ?_ ?_ ?_
  · intro n hn
    exact List.mem_append_left _ hn
  · intro n hn
    refine (List.mem_append.mp hn).imp_right fun hn => ?_
    have hle := hn' n hn
    simp only [List.length_append, List.length_cons]
    omega
  · refine h.reached.imp_right fun ⟨_, hi⟩ => ?_
    simp only [List.length_append, List.length_cons] at hi
    omega

theorem Exact.bind (h : Exact L (w ++ y) i ⟨some a, i + w.length, notes⟩)
    (h' : Exact (f a) y (i + w.length) o') (hL : L.Settled K) (hf : Follows K f) (hw : L w a) :
    Exact (L >>= f) (w ++ y) i ⟨o'.found, o'.stop, notes ++ o'.notes⟩ := by
  constructor
  · rintro w' z b he ⟨u, v, a', rfl, hu, hv⟩
    rw [List.append_assoc] at he
    rcases split_cases he with ⟨d, t, rfl, _⟩ | ⟨rfl, ht⟩ | ⟨d, t, rfl, ht⟩
    · have hm := (h.maximal _ _ _ he hu).2
      simp only [List.length_append, List.length_cons] at hm
      omega
    · obtain rfl := hL.unique _ _ _ hw hu
      have hm := h'.maximal v z b ht hv
      simp only [List.length_append]
      exact ⟨hm.1, by omega⟩
    · cases v with
      | nil =>
        obtain ⟨b', hb'⟩ := hf.alike a' b a hv
        have hm := h'.maximal [] y b' rfl hb'
        simp only [List.length_append, List.length_cons, List.length_nil] at hm ⊢
        exact ⟨hm.1, by omega⟩
      | cons e v =>
        obtain rfl : e = d := by simpa using congrArg List.head? ht
        exact absurd hv (not_word_inside hL hf.apart hw hu)
  · obtain ⟨u₁, y₁, he₁, h₁⟩ := h.horizon
    obtain ⟨u₂, y₂, rfl, h₂⟩ := h'.horizon
    obtain ⟨z, rfl, hz⟩ := h₁.begins (Phrase.viable_of_word hw) he₁.symm
    cases z with
    | nil =>
      -- `L` cannot go on behind `w`: what comes next is up to `f a`.
      refine ⟨w ++ u₂, y₂, by simp, Horizon.bind_end ?_ h₂ hL hf hw⟩
      simpa [hz] using h₁
    | cons d z =>
      -- `L` could go on behind `w`, so no word of `f a` begins there.
      have hg : L.Goes d := by
        refine ⟨w, a, hw, Phrase.Viable.of_append (t := z) ?_⟩
        simpa using h₁.viable
      have hu₂ : u₂ = [] := by
        cases u₂ with
        | nil => rfl
        | cons e u₂ =>
          obtain rfl : e = d := by simpa using congrArg List.head? hz
          exact absurd h₂.viable.head (hf.apart e (hL.goes e hg) a)
      subst hu₂
      refine ⟨w ++ d :: z, y₁, he₁, h₁.bind_past (by simpa using h₂.noted_le) hL hf hw ?_⟩
      intro u t a' hu ha'
      have hm := (h.maximal u (t ++ y₁) a' (by rw [he₁, hu, List.append_assoc]) ha').2
      simp only at hm
      omega

theorem Exact.bind_none {j k : Nat} (h : Exact L x i ⟨none, j, notes⟩)
    (hf : ∀ a, (f a).Viable []) : Exact (L >>= f) x i (⟨none, k, notes⟩ : Outcome β) := by
  constructor
  · rintro w z b he ⟨u, v, a, rfl, hu, _⟩
    exact absurd hu (h.not_word rfl (he.trans (List.append_assoc ..)))
  · obtain ⟨u, y, rfl, hu⟩ := h.horizon
    have key : ∀ c, (L >>= f).Viable (u ++ [c]) ↔ L.Viable (u ++ [c]) := by
      intro c
      refine ⟨?_, fun hc => Phrase.viable_nil_bind hc hf⟩
      rintro ⟨t, b, u', v, a, he, hu', _⟩
      exact Phrase.viable_of_first (fun w z a hw => h.not_word_within rfl hw) he hu'
    exact ⟨u, y, rfl, hu.transfer (Phrase.viable_nil_bind hu.viable hf) key (fun _ => id)
      (fun _ => .inl) (.inl (hu.noted_of_none rfl))⟩

theorem Follows.stops (hf : Follows K f) (hε : ∀ a b, f a [] b → ∀ c, K c → K' c) {v z : List Char}
    {a' : α} {b : β} (hv : f a' v b) (hz : ∀ c t, z = c :: t → ¬ K' c) :
    ∀ c t, v ++ z = c :: t → ¬ K c := by
  intro c t ht hc
  cases v with
  | nil => exact hz c t ht (hε a' b hv c hc)
  | cons d v =>
    obtain rfl : d = c := by simpa using congrArg List.head? ht
    exact hf.apart d hc a' ⟨v, b, hv⟩

theorem Follows.stops_viable (hf : Follows K f) {v : List Char} {a' : α} (hv : (f a').Viable v) :
    ∀ c t, v = c :: t → ¬ K c := by
  rintro c t rfl hc
  exact hf.apart c hc a' hv.head

theorem viable_bind_cases {x : List Char} (hx : (L >>= f).Viable x) : L.Viable x ∨
    ∃ u d t a', x = u ++ d :: t ∧ L u a' ∧ (f a').Viable (d :: t) := by
  obtain ⟨t, b, u, v, a', he, hu, hv⟩ := hx
  rcases split_cases he with ⟨d, r, rfl, rfl⟩ | ⟨rfl, rfl⟩ | ⟨d, r, rfl, rfl⟩
  · exact .inl ⟨d :: r, a', hu⟩
  · exact .inl (Phrase.viable_of_word hu)
  · exact .inr ⟨u, d, r, a', rfl, hu, t, b, hv⟩

theorem Placed.bind (h : Reading P K L (w ++ y) i ⟨some a, i + w.length, notes⟩) (hw : L w a)
    (h' : Reading P K' (f a) y (i + w.length) o') (hf : Follows K f)
    (hε : ∀ a b, f a [] b → ∀ c, K c → K' c) :
    Placed K' (L >>= f) (w ++ y) i ⟨o'.found, o'.stop, notes ++ o'.notes⟩ := by
  have hlen : (w ++ y).length = w.length + y.length := List.length_append
  refine ⟨?_, ?_, ?_, ?_⟩
  · intro n hn
    rcases List.mem_append.mp hn with hn | hn
    · exact h.placed.within n hn
    · have hle := h'.placed.within n hn
      omega
  · intro n hn u z he hu hshort hle
    rcases List.mem_append.mp hn with hn | hn
    · exact Phrase.viable_nil_bind (h.placed.begun n hn u z he hu hshort hle) hf.inhabited
    rcases split_cases he with ⟨d, t, rfl, ht⟩ | ⟨rfl, _⟩ | ⟨d, t, rfl, _⟩
    · rw [List.length_append] at hshort hle
      obtain ⟨r, b, hr⟩ := h'.placed.begun n hn (d :: t) z ht (by simp) (by omega) (by omega)
      refine ⟨r, b, ?_⟩
      rw [List.append_assoc]
      exact Phrase.bind_mk hw hr
    · exact Phrase.viable_nil_bind (Phrase.viable_of_word hw) hf.inhabited
    · exact (Phrase.viable_nil_bind (Phrase.viable_of_word hw) hf.inhabited).of_append
  · -- The word splits where the first rule stopped: no other split keeps what follows apart.
    rintro w' z b he ⟨u, v, a', rfl, hu, hv⟩ hz n hn
    rw [List.append_assoc] at he
    have hstop := hf.stops hε hv hz
    obtain ⟨ha, hl⟩ := h.complete u (v ++ z) a' he hu hstop
    simp only [Option.some.injEq] at ha hl
    subst ha
    obtain ⟨rfl, rfl⟩ := List.append_inj he (by omega)
    have hlen' : (w ++ v).length = w.length + v.length := List.length_append
    rcases List.mem_append.mp hn with hn | hn
    · obtain ⟨hle, hgo⟩ := h.placed.inside w (v ++ z) a rfl hw hstop n hn
      refine ⟨by omega, fun hat => ?_⟩
      obtain ⟨c, hc⟩ := hgo (by omega)
      obtain rfl : v = [] := List.eq_nil_of_length_eq_zero (by omega)
      exact ⟨c, hε a b hv c hc⟩
    · obtain ⟨hle, hgo⟩ := h'.placed.inside v z b rfl hv hz n hn
      exact ⟨by omega, fun hat => hgo (by omega)⟩
  · intro hx
    -- Either the text still begins a word of `L`, or the part behind one begins one of `f a`.
    rcases viable_bind_cases hx with hx | ⟨u, d, t, a', he, hu, hv⟩
    · rcases h.placed.touches hx with ⟨n, hn, hat⟩ | ⟨_, hat⟩
      · exact .inl ⟨n, List.mem_append_left _ hn, hat⟩
      · obtain rfl : y = [] := List.eq_nil_of_length_eq_zero (by simp only at hat; omega)
        rcases h'.placed.touches (hf.inhabited a) with ⟨n, hn, hat⟩ | ⟨hs, hat⟩
        · exact .inl ⟨n, List.mem_append_right _ hn, by simpa using hat⟩
        · exact .inr ⟨hs, by simpa using hat⟩
    · obtain ⟨ha, hl⟩ := h.complete u (d :: t) a' he hu (hf.stops_viable hv)
      simp only [Option.some.injEq] at ha hl
      subst ha
      obtain ⟨rfl, rfl⟩ := List.append_inj he (by omega)
      rw [hlen, ← Nat.add_assoc]
      rcases h'.placed.touches hv with ⟨n, hn, hat⟩ | hs
      · exact .inl ⟨n, List.mem_append_right _ hn, hat⟩
      · exact .inr hs

theorem Placed.bind_none {j k : Nat} (h : Reading P K L x i ⟨none, j, notes⟩) (hf : Follows K f)
    (hε : ∀ a b, f a [] b → ∀ c, K c → K' c) :
    Placed K' (L >>= f) x i (⟨none, k, notes⟩ : Outcome β) := by
  refine ⟨h.placed.within, ?_, ?_, ?_⟩
  · intro n hn u y he hu hshort hle
    exact Phrase.viable_nil_bind (h.placed.begun n hn u y he hu hshort hle) hf.inhabited
  · rintro _ z b rfl ⟨u, v, a, rfl, hu, hv⟩ hz
    exact absurd hu (h.not_word rfl (List.append_assoc ..) (hf.stops hε hv hz))
  · intro hx
    rcases viable_bind_cases hx with hx | ⟨u, d, t, a, he, hu, hv⟩
    · exact .inl (h.placed.noted_of_none rfl hx)
    · exact absurd hu (h.not_word rfl he (hf.stops_viable hv))

theorem Reading.bind (h : Reading P K L (w ++ y) i ⟨some a, i + w.length, notes⟩) (hw : L w a)
    (h' : Reading P K' (f a) y (i + w.length) o') (hf : Follows K f)
    (hε : ∀ a b, f a [] b → ∀ c, K c → K' c) (hL : P → L.Settled K) :
    Reading P K' (L >>= f) (w ++ y) i ⟨o'.found, o'.stop, notes ++ o'.notes⟩ := by
  constructor
  · intro b hb
    obtain ⟨v, z, rfl, hv, hs⟩ := h'.sound b hb
    refine ⟨w ++ v, z, by simp, Phrase.bind_mk hw hv, ?_⟩
    rw [List.length_append]
    simp only
    omega
  · rintro w' z b he ⟨u, v, a', rfl, hu, hv⟩ hK
    rw [List.append_assoc] at he
    obtain ⟨ha, hl⟩ := h.complete u (v ++ z) a' he hu (hf.stops hε hv hK)
    simp only [Option.some.injEq] at ha hl
    subst ha
    obtain ⟨rfl, rfl⟩ := List.append_inj he (by omega)
    obtain ⟨hb, hs⟩ := h'.complete v z b rfl hv hK
    refine ⟨hb, ?_⟩
    rw [List.length_append]
    simp only
    omega
  · intro hP
    exact (h.exact hP).bind (h'.exact hP) (hL hP) hf hw
  · exact .bind h hw h' hf hε

theorem Reading.bind_none {j k : Nat} (h : Reading P K L x i ⟨none, j, notes⟩) (hf : Follows K f)
    (hε : ∀ a b, f a [] b → ∀ c, K c → K' c) :
    Reading P K' (L >>= f) x i (⟨none, k, notes⟩ : Outcome β) := by
  constructor
  · intro b hb
    simp at hb
  · rintro w z b rfl ⟨u, v, a, rfl, hu, hv⟩ hK
    exact absurd hu (h.not_word rfl (List.append_assoc ..) (hf.stops hε hv hK))
  · intro hP
    exact (h.exact hP).bind_none hf.inhabited
  · exact .bind_none h hf hε

end Sequence

end FuncScript

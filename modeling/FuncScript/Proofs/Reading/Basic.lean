import FuncScript.Proofs.Phrase
import FuncScript.Proofs.Outcome

/-!
An outcome against a phrase: it finds a word of the phrase at the start of the text, and misses
none that is followed by something that cannot go on with it. Where an outcome is exact, its notes
furthest on stand behind the longest beginning of a word, and they expect the characters with which
such a beginning can go on. Blanks are never expected. Of every outcome it is known how far its
notes go: not past a word that is followed by nothing that belongs to it, and to the end of a text
that breaks off inside a word.
-/

namespace FuncScript

variable {α β : Type} {P : Prop} {K K' : Char → Prop} {L L' : Phrase α} {x w y u p : List Char}
  {i : Nat} {o : Outcome α}

abbrev Never : Char → Prop := fun _ => False

/-- The text goes on as some word of the phrase up to the end of `u`, and no further. -/
structure Horizon (L : Phrase α) (u y : List Char) (i : Nat) (o : Outcome α) : Prop where
  viable : L.Viable u
  stuck : ∀ c t, y = c :: t → ¬ L.Viable (u ++ [c])
  noted_le : ∀ n ∈ o.notes, n.1 ≤ i + u.length
  noted_iff : ∀ c, ¬ Phrase.IsBlank c →
    ((∃ n ∈ o.notes, n.1 = i + u.length ∧ n.2.admits c = true) ↔ L.Viable (u ++ [c]))
  reached : (∃ n ∈ o.notes, n.1 = i + u.length) ∨ (o.found.isSome = true ∧ o.stop = i + u.length)

structure Exact (L : Phrase α) (x : List Char) (i : Nat) (o : Outcome α) : Prop where
  maximal : ∀ w y a, x = w ++ y → L w a → o.found.isSome = true ∧ i + w.length ≤ o.stop
  horizon : ∃ u y, x = u ++ y ∧ Horizon L u y i o

/-- Where notes stand. A number may be too large for any word, so that only as many characters as
surely begin a number are looked at in `begun`. -/
structure Placed (K : Char → Prop) (L : Phrase α) (x : List Char) (i : Nat) (o : Outcome α) :
    Prop where
  within : ∀ n ∈ o.notes, n.1 ≤ i + x.length
  begun : ∀ n ∈ o.notes, ∀ u y, x = u ++ y → u ≠ [] → u.length ≤ 308 → i + u.length ≤ n.1 →
    L.Viable u
  inside : ∀ w y a, x = w ++ y → L w a → (∀ c t, y = c :: t → ¬ K c) →
    ∀ n ∈ o.notes, n.1 ≤ i + w.length ∧ (n.1 = i + w.length → ∃ c, K c)
  touches : L.Viable x →
    (∃ n ∈ o.notes, n.1 = i + x.length) ∨ (o.found.isSome = true ∧ o.stop = i + x.length)

structure Reading (P : Prop) (K : Char → Prop) (L : Phrase α) (x : List Char) (i : Nat)
    (o : Outcome α) : Prop where
  sound : ∀ a, o.found = some a → ∃ w y, x = w ++ y ∧ L w a ∧ o.stop = i + w.length
  complete : ∀ w y a, x = w ++ y → L w a → (∀ c t, y = c :: t → ¬ K c) →
    o.found = some a ∧ o.stop = i + w.length
  exact : P → Exact L x i o
  placed : Placed K L x i o

theorem Horizon.begins {u y : List Char} (h : Horizon L u y i o) {w z : List Char}
    (hw : L.Viable w) (he : u ++ y = w ++ z) : ∃ t, u = w ++ t ∧ z = t ++ y := by
  rcases split_cases he with ⟨d, t, rfl, rfl⟩ | ⟨rfl, rfl⟩ | ⟨d, t, rfl, rfl⟩
  · have hd : L.Viable (u ++ [d]) := by
      apply Phrase.Viable.of_append (t := t)
      simpa using hw
    exact absurd hd (h.stuck d (t ++ z) rfl)
  · exact ⟨[], by simp, by simp⟩
  · exact ⟨d :: t, rfl, rfl⟩

theorem reading_pure (a : α) (x : List Char) (i : Nat) :
    Reading P K (pure a : Phrase α) x i ⟨some a, i, []⟩ := by
  constructor
  · rintro b ⟨⟩
    exact ⟨[], x, rfl, ⟨rfl, rfl⟩, rfl⟩
  · rintro w y b rfl ⟨rfl, rfl⟩ _
    exact ⟨rfl, rfl⟩
  · intro _
    constructor
    · rintro w y b rfl ⟨rfl, rfl⟩
      simp
    · refine ⟨[], x, rfl, ⟨[], a, rfl, rfl⟩, ?_, by simp, ?_, .inr ⟨rfl, rfl⟩⟩
      · intro c t _
        exact Phrase.not_viable_pure
      · intro c _
        simp [Phrase.not_viable_pure]
  · refine ⟨by simp, by simp, by simp, ?_⟩
    rintro ⟨t, b, ht, _⟩
    obtain ⟨rfl, _⟩ := List.append_eq_nil_iff.mp ht
    exact .inr ⟨rfl, rfl⟩

theorem Horizon.transfer {M : Phrase β} {o' : Outcome β} (h : Horizon L u y i o) (hv : M.Viable u)
    (hgo : ∀ c, M.Viable (u ++ [c]) ↔ L.Viable (u ++ [c])) (hsub : ∀ n ∈ o.notes, n ∈ o'.notes)
    (hback : ∀ n ∈ o'.notes, n ∈ o.notes ∨ n.1 < i + u.length)
    (hr : (∃ n ∈ o.notes, n.1 = i + u.length) ∨
      (o'.found.isSome = true ∧ o'.stop = i + u.length)) : Horizon M u y i o' := by
  constructor
  · exact hv
  · intro c t hy hc
    exact h.stuck c t hy ((hgo c).mp hc)
  · intro n hn
    rcases hback n hn with hn | hlt
    · exact h.noted_le n hn
    · exact Nat.le_of_lt hlt
  · intro c hc
    rw [hgo c, ← h.noted_iff c hc]
    constructor
    · rintro ⟨n, hn, hi, ha⟩
      rcases hback n hn with hn | hlt
      · exact ⟨n, hn, hi, ha⟩
      · omega
    · rintro ⟨n, hn, hi, ha⟩
      exact ⟨n, hsub n hn, hi, ha⟩
  · rcases hr with ⟨n, hn, hi⟩ | hr
    · exact .inl ⟨n, hsub n hn, hi⟩
    · exact .inr hr

theorem Horizon.join {L' M : Phrase β} {o' : Outcome β} (h : Horizon L w (u ++ y) i o)
    (h' : Horizon L' u y (i + w.length) o') (hv : M.Viable (w ++ u))
    (hgo : ∀ c, M.Viable (w ++ u ++ [c]) ↔
      L'.Viable (u ++ [c]) ∨ (u = [] ∧ L.Viable (w ++ [c]))) :
    Horizon M (w ++ u) y i ⟨o'.found, o'.stop, o.notes ++ o'.notes⟩ := by
  have hlen : (w ++ u).length = w.length + u.length := List.length_append
  constructor
  · exact hv
  · rintro c t rfl hc
    rcases (hgo c).mp hc with hu | ⟨rfl, hw⟩
    · exact h'.stuck c t rfl hu
    · exact h.stuck c t rfl hw
  · intro n hn
    rcases List.mem_append.mp hn with hn | hn
    · have hle := h.noted_le n hn
      omega
    · have hle := h'.noted_le n hn
      omega
  · intro c hc
    rw [hgo c, ← h'.noted_iff c hc, ← h.noted_iff c hc, hlen]
    constructor
    · rintro ⟨n, hn, hi, ha⟩
      rcases List.mem_append.mp hn with hn | hn
      · have hle := h.noted_le n hn
        have h0 : u.length = 0 := by omega
        exact .inr ⟨List.eq_nil_of_length_eq_zero h0, n, hn, by omega, ha⟩
      · exact .inl ⟨n, hn, by omega, ha⟩
    · rintro (⟨n, hn, hi, ha⟩ | ⟨rfl, n, hn, hi, ha⟩)
      · exact ⟨n, List.mem_append_right _ hn, by omega, ha⟩
      · exact ⟨n, List.mem_append_left _ hn, hi, ha⟩
  · rcases h'.reached with ⟨n, hn, hi⟩ | ⟨hs, hi⟩
    · exact .inl ⟨n, List.mem_append_right _ hn, by omega⟩
    · exact .inr ⟨hs, by simp only; omega⟩

section Missing

variable {a : α}

theorem Reading.not_word (h : Reading P K L x i o) (ho : o.found = none) (he : x = w ++ y)
    (hy : ∀ c t, y = c :: t → ¬ K c) : ¬ L w a := by
  intro hw
  have hf := (h.complete w y a he hw hy).1
  simp [ho] at hf

theorem Exact.not_word (h : Exact L x i o) (ho : o.found = none) (he : x = w ++ y) : ¬ L w a := by
  intro hw
  have hf := (h.maximal w y a he hw).1
  simp [ho] at hf

theorem Exact.not_word_within (h : Exact L (u ++ y) i o) (ho : o.found = none) {z : List Char}
    (he : u = w ++ z) : ¬ L w a := by
  apply h.not_word ho (y := z ++ y)
  rw [he, List.append_assoc]

theorem Horizon.noted_of_none (h : Horizon L u y i o) (ho : o.found = none) :
    ∃ n ∈ o.notes, n.1 = i + u.length := by
  rcases h.reached with hr | ⟨hf, _⟩
  · exact hr
  · simp [ho] at hf

theorem Placed.noted_of_none (h : Placed K L x i o) (ho : o.found = none) (hx : L.Viable x) :
    ∃ n ∈ o.notes, n.1 = i + x.length := by
  rcases h.touches hx with hr | ⟨hf, _⟩
  · exact hr
  · simp [ho] at hf

theorem Reading.of_none {j k : Nat} {notes : List Note} (h : Reading P K L x i ⟨none, j, notes⟩) :
    Reading P K L x i ⟨none, k, notes⟩ := by
  constructor
  · simp
  · intro w y a he hw hy
    exact absurd hw (h.not_word rfl he hy)
  · intro hP
    refine ⟨fun w y a he hw => absurd hw ((h.exact hP).not_word rfl he), ?_⟩
    obtain ⟨u, y, he, hu⟩ := (h.exact hP).horizon
    exact ⟨u, y, he, hu.viable, hu.stuck, hu.noted_le, hu.noted_iff, .inl (hu.noted_of_none rfl)⟩
  · exact ⟨h.placed.within, h.placed.begun, h.placed.inside,
      fun hx => .inl (h.placed.noted_of_none rfl hx)⟩

end Missing

theorem Exact.map (h : Exact L x i o) (g : α → β) :
    Exact (L >>= fun a => pure (g a)) x i ⟨o.found.map g, o.stop, o.notes⟩ := by
  constructor
  · intro w y b he hw
    obtain ⟨a, ha, _⟩ := Phrase.bind_pure_iff.mp hw
    simpa using h.maximal w y a he ha
  · obtain ⟨u, y, he, hu⟩ := h.horizon
    refine ⟨u, y, he, hu.transfer (Phrase.viable_map_iff.mpr hu.viable)
      (fun c => Phrase.viable_map_iff) (fun _ => id) (fun _ => .inl) ?_⟩
    simpa using hu.reached

theorem Placed.map (h : Placed K L x i o) (g : α → β) :
    Placed K (L >>= fun a => pure (g a)) x i ⟨o.found.map g, o.stop, o.notes⟩ := by
  refine ⟨h.within, ?_, ?_, ?_⟩
  · intro n hn u y he hu hlen hle
    exact Phrase.viable_map_iff.mpr (h.begun n hn u y he hu hlen hle)
  · intro w y b he hw hy
    obtain ⟨a, ha, _⟩ := Phrase.bind_pure_iff.mp hw
    exact h.inside w y a he ha hy
  · intro hx
    simpa using h.touches (Phrase.viable_map_iff.mp hx)

theorem Reading.map (h : Reading P K L x i o) (g : α → β) :
    Reading P K (L >>= fun a => pure (g a)) x i ⟨o.found.map g, o.stop, o.notes⟩ := by
  refine ⟨?_, ?_, fun hP => (h.exact hP).map g, h.placed.map g⟩
  · intro b hb
    obtain ⟨a, ha, rfl⟩ := Option.map_eq_some_iff.mp hb
    obtain ⟨w, y, he, hw, hs⟩ := h.sound a ha
    exact ⟨w, y, he, Phrase.bind_pure_iff.mpr ⟨a, hw, rfl⟩, hs⟩
  · intro w y b he hw hy
    obtain ⟨a, ha, rfl⟩ := Phrase.bind_pure_iff.mp hw
    obtain ⟨hf, hs⟩ := h.complete w y a he ha hy
    exact ⟨by simp [hf], hs⟩

section Prepend

variable {M : Phrase α}

theorem viable_prepend_iff (hM : ∀ t a, L (p ++ t) a ↔ M t a) (u : List Char) :
    L.Viable (p ++ u) ↔ M.Viable u := by
  simp only [Phrase.Viable, List.append_assoc, hM]

theorem exists_behind {z : List Char} {a : α} (hM : ∀ t a, L (p ++ t) a ↔ M t a)
    (hp : ∀ w z a, p ++ y = w ++ z → L w a → p.length ≤ w.length) (he : p ++ y = w ++ z)
    (hw : L w a) : ∃ v, w = p ++ v ∧ y = v ++ z ∧ M v a := by
  have hlen := hp w z a he hw
  rcases split_cases he with ⟨d, t, rfl, hy⟩ | ⟨rfl, rfl⟩ | ⟨d, t, rfl, _⟩
  · exact ⟨d :: t, rfl, hy, (hM _ _).mp hw⟩
  · exact ⟨[], by simp, rfl, (hM [] a).mp (by simpa using hw)⟩
  · simp only [List.length_append, List.length_cons] at hlen
    omega

theorem Exact.prepend (h : Exact M y (i + p.length) o) (hM : ∀ t a, L (p ++ t) a ↔ M t a)
    (hp : ∀ w z a, p ++ y = w ++ z → L w a → p.length ≤ w.length) : Exact L (p ++ y) i o := by
  constructor
  · intro w z a he hw
    obtain ⟨v, rfl, rfl, hv⟩ := exists_behind hM hp he hw
    obtain ⟨hf, hle⟩ := h.maximal v z a rfl hv
    rw [List.length_append]
    exact ⟨hf, by omega⟩
  · obtain ⟨u, z, rfl, hu⟩ := h.horizon
    have hlen : i + (p ++ u).length = i + p.length + u.length := by
      rw [List.length_append]
      omega
    refine ⟨p ++ u, z, by simp, (viable_prepend_iff hM u).mpr hu.viable, ?_, ?_, ?_, ?_⟩
    · intro c t ht
      rw [List.append_assoc, viable_prepend_iff hM]
      exact hu.stuck c t ht
    · rw [hlen]
      exact hu.noted_le
    · intro c hc
      rw [List.append_assoc, viable_prepend_iff hM, hlen]
      exact hu.noted_iff c hc
    · rw [hlen]
      exact hu.reached

theorem Placed.prepend (h : Placed K M y (i + p.length) o) (hM : ∀ t a, L (p ++ t) a ↔ M t a)
    (hv : M.Viable []) (hp : ∀ w z a, p ++ y = w ++ z → L w a → p.length ≤ w.length) :
    Placed K L (p ++ y) i o := by
  refine ⟨?_, ?_, ?_, ?_⟩
  · intro n hn
    have hle := h.within n hn
    rw [List.length_append]
    omega
  · intro n hn u z he hu hlen hle
    have hp' : L.Viable p := by simpa using (viable_prepend_iff hM []).mpr hv
    rcases split_cases he with ⟨d, t, rfl, ht⟩ | ⟨rfl, _⟩ | ⟨d, t, rfl, _⟩
    · rw [List.length_append] at hlen hle
      refine (viable_prepend_iff hM (d :: t)).mpr (h.begun n hn _ z ht (by simp) ?_ ?_) <;> omega
    · exact hp'
    · exact hp'.of_append
  · intro w z a he hw hz n hn
    obtain ⟨v, rfl, rfl, hv'⟩ := exists_behind hM hp he hw
    rw [List.length_append, ← Nat.add_assoc]
    exact h.inside v z a rfl hv' hz n hn
  · intro hx
    rw [List.length_append, ← Nat.add_assoc]
    exact h.touches ((viable_prepend_iff hM y).mp hx)

theorem Reading.prepend (h : Reading P K M y (i + p.length) o)
    (hM : ∀ t a, L (p ++ t) a ↔ M t a) (hv : M.Viable [])
    (hp : ∀ w z a, p ++ y = w ++ z → L w a → p.length ≤ w.length) :
    Reading P K L (p ++ y) i o := by
  refine ⟨?_, ?_, fun hP => (h.exact hP).prepend hM hp, h.placed.prepend hM hv hp⟩
  · intro a ha
    obtain ⟨w, z, rfl, hw, hs⟩ := h.sound a ha
    refine ⟨p ++ w, z, by simp, (hM w a).mpr hw, ?_⟩
    rw [List.length_append]
    omega
  · intro w z a he hw hz
    obtain ⟨v, rfl, rfl, hv'⟩ := exists_behind hM hp he hw
    obtain ⟨hf, hs⟩ := h.complete v z a rfl hv' hz
    refine ⟨hf, ?_⟩
    rw [List.length_append]
    omega

end Prepend

theorem reading_miss {S : Char → Prop} {e : Expectation} {j : Nat} (hS : L.Begins S)
    (hx : ∀ c t, x = c :: t → ¬ S c) (he : ∀ c, e.admits c = true ↔ S c)
    (hv : P → ∀ c, S c → L.Viable [c]) (hne : ∃ c, S c) :
    Reading P K L x i ⟨none, j, [(i, e)]⟩ := by
  have missing : ∀ w y a, x = w ++ y → ¬ L w a := by
    intro w y a hw ha
    obtain ⟨c, t, rfl, hc⟩ := hS w a ha
    exact hx c (t ++ y) hw hc
  constructor
  · intro a ha
    simp at ha
  · intro w y a hw ha
    exact absurd ha (missing w y a hw)
  · intro hP
    refine ⟨fun w y a hw ha => absurd ha (missing w y a hw), [], x, rfl, ?_, ?_, by simp, ?_, ?_⟩
    · obtain ⟨c, hc⟩ := hne
      exact Phrase.Viable.of_append (t := [c]) (hv hP c hc)
    · intro c t ht hc
      exact hx c t ht (hS.viable hc)
    · intro c _
      simp only [List.mem_singleton, exists_eq_left, List.length_nil, Nat.add_zero, true_and,
        List.nil_append]
      exact ⟨fun ha => hv hP c ((he c).mp ha), fun hc => (he c).mpr (hS.viable hc)⟩
    · exact .inl ⟨_, List.mem_singleton_self _, by simp⟩
  · refine ⟨by simp, ?_, fun w y a hw ha => absurd ha (missing w y a hw), ?_⟩
    · intro n hn u y _ hu _ hle
      obtain rfl := List.mem_singleton.mp hn
      have := List.length_pos_iff.mpr hu
      simp only at hle
      omega
    · intro hv
      cases x with
      | nil => exact .inl ⟨_, List.mem_singleton_self _, by simp⟩
      | cons c t => exact absurd (hS.viable hv) (hx c t rfl)

theorem Placed.le_of_begins {S : Char → Prop} (h : Placed K L x i o) (hS : L.Begins S)
    (hx : ∀ c t, x = c :: t → ¬ S c) : ∀ n ∈ o.notes, n.1 ≤ i := by
  intro n hn
  cases x with
  | nil => simpa using h.within n hn
  | cons c t =>
    apply Classical.byContradiction
    intro hlt
    have hv := h.begun n hn [c] t rfl (by simp) (by simp) (by simp only [List.length_singleton]; omega)
    exact hx c t rfl (hS.viable hv)

theorem placed_of_empty {j : Nat} {e : Expectation} (h : ¬ L.Viable []) :
    Placed K L x i ⟨none, j, [(i, e)]⟩ := by
  have missing : ∀ u, ¬ L.Viable u := fun _ hu => h hu.nil
  refine ⟨?_, ?_, fun w y a _ hw => absurd (Phrase.viable_of_word hw) (missing w),
    fun hx => absurd hx (missing x)⟩
  · simp
  · simp only [List.mem_singleton, forall_eq]
    intro u y _ hu _ hle
    have := List.length_pos_iff.mpr hu
    omega

end FuncScript

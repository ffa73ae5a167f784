import FuncScript.Proofs.Reading.Rule

/-!
Blanks before a word that does not begin with one, and rules run until they fail.
-/

namespace FuncScript

open Phrase (IsBlank)

variable {α : Type} {P : Prop} {K S : Char → Prop} {L : Phrase α} {b y : List Char} {i : Nat}
  {o : Outcome α}

def Solid (y : List Char) : Prop := ∀ c t, y = c :: t → ¬ IsBlank c

theorem begins_blanks_bind (hL : L.Begins S) :
    (Phrase.blanks >>= fun _ => L).Begins fun c => IsBlank c ∨ S c := by
  rintro _ a ⟨u, v, _, rfl, hu, hv⟩
  cases u with
  | nil =>
    obtain ⟨c, t, rfl, hc⟩ := hL v a hv
    exact ⟨c, t, rfl, .inr hc⟩
  | cons c u => exact ⟨c, u ++ v, rfl, .inl (hu c List.mem_cons_self)⟩

theorem blanks_bind_cons_iff {c : Char} {t : List Char} {a : α} (hc : ¬ IsBlank c) :
    (Phrase.blanks >>= fun _ => L) (c :: t) a ↔ L (c :: t) a := by
  constructor
  · rintro ⟨u, v, _, he, hu, hv⟩
    cases u with
    | nil => simpa [he] using hv
    | cons d u =>
      obtain rfl : c = d := by simpa using congrArg List.head? he
      exact absurd (hu c List.mem_cons_self) hc
  · intro h
    exact ⟨[], c :: t, (), rfl, by simp [Phrase.blanks], h⟩

theorem blanks_bind_append_iff (hb : ∀ c ∈ b, IsBlank c) (hL : L.Begins fun c => ¬ IsBlank c)
    {t : List Char} {a : α} : (Phrase.blanks >>= fun _ => L) (b ++ t) a ↔
      (Phrase.blanks >>= fun _ => L) t a := by
  constructor
  · rintro ⟨u, v, _, he, hu, hv⟩
    obtain ⟨c, r, rfl, hc⟩ := hL v a hv
    rcases split_cases he with ⟨d, z, rfl, rfl⟩ | ⟨rfl, rfl⟩ | ⟨d, z, rfl, hz⟩
    · exact ⟨d :: z, c :: r, (), rfl, fun e he' => hu e (List.mem_append_right _ he'), hv⟩
    · exact ⟨[], c :: r, (), rfl, by simp [Phrase.blanks], hv⟩
    · obtain rfl : c = d := by simpa using congrArg List.head? hz
      exact absurd (hb c (by simp)) hc
  · rintro ⟨u, v, _, rfl, hu, hv⟩
    refine ⟨b ++ u, v, (), by simp, ?_, hv⟩
    intro c hc
    rcases List.mem_append.mp hc with hc | hc
    · exact hb c hc
    · exact hu c hc

theorem settled_blanks_bind (h : L.Settled K) (hL : L.Begins fun c => ¬ IsBlank c) :
    (Phrase.blanks >>= fun _ => L).Settled K := by
  have word_iff : ∀ b v t a, (∀ c ∈ b, IsBlank c) → L v a → ∀ a',
      (Phrase.blanks >>= fun _ => L) (b ++ (v ++ t)) a' ↔ L (v ++ t) a' := by
    intro b v t a hb hv a'
    obtain ⟨c, r, rfl, hc⟩ := hL v a hv
    rw [blanks_bind_append_iff hb hL]
    exact blanks_bind_cons_iff hc
  constructor
  · rintro c ⟨_, a, ⟨b, v, _, rfl, hb, hv⟩, t, a', ht⟩
    refine h.goes c ⟨v, a, hv, t, a', ?_⟩
    rw [List.append_assoc, List.append_assoc, word_iff b v _ a hb hv] at ht
    simpa using ht
  · rintro _ a a' ⟨b, v, _, rfl, hb, hv⟩ hw
    refine h.unique v a a' hv ?_
    simpa using (word_iff b v [] a hb hv a').mp (by simpa using hw)

theorem Reading.solid (h : Reading P K L y i o) (hy : Solid y)
    (hL : L.Begins fun c => ¬ IsBlank c) :
    Reading P K (Phrase.blanks >>= fun _ => L) y i o := by
  have word_iff : ∀ w z a, y = w ++ z → (Phrase.blanks >>= fun _ => L) w a → L w a := by
    intro w z a he hw
    obtain ⟨c, t, rfl, _⟩ := begins_blanks_bind hL w a hw
    exact (blanks_bind_cons_iff (hy c (t ++ z) he)).mp hw
  -- What is noted at the start of the text asks for something other than a blank.
  have viable_iff : ∀ u c, (∀ d t, u = d :: t → ¬ IsBlank d) → (u = [] → ¬ IsBlank c) →
      ((Phrase.blanks >>= fun _ => L).Viable (u ++ [c]) ↔ L.Viable (u ++ [c])) := by
    intro u c hu hc
    cases u with
    | nil => exact exists₂_congr fun t a => blanks_bind_cons_iff (hc rfl)
    | cons d u => exact exists₂_congr fun t a => blanks_bind_cons_iff (hu d u rfl)
  constructor
  · intro a ha
    obtain ⟨w, z, he, hw, hs⟩ := h.sound a ha
    exact ⟨w, z, he, ⟨[], w, (), rfl, by simp [Phrase.blanks], hw⟩, hs⟩
  · intro w z a he hw hz
    exact h.complete w z a he (word_iff w z a he hw) hz
  · intro hP
    refine ⟨fun w z a he hw => (h.exact hP).maximal w z a he (word_iff w z a he hw), ?_⟩
    obtain ⟨u, z, rfl, hu⟩ := (h.exact hP).horizon
    have hsolid : ∀ d t, u = d :: t → ¬ IsBlank d := by
      rintro d t rfl
      exact hy d (t ++ z) rfl
    refine ⟨u, z, rfl, ?_, ?_, hu.noted_le, ?_, hu.reached⟩
    · obtain ⟨t, a, ht⟩ := hu.viable
      exact ⟨t, a, [], u ++ t, (), rfl, by simp [Phrase.blanks], ht⟩
    · rintro c t rfl
      rw [viable_iff u c hsolid fun hu0 => hy c t (by simp [hu0])]
      exact hu.stuck c t rfl
    · intro c hc
      rw [viable_iff u c hsolid fun _ => hc]
      exact hu.noted_iff c hc
  · have lift : ∀ {u}, L.Viable u → (Phrase.blanks >>= fun _ => L).Viable u := by
      rintro u ⟨t, a, ht⟩
      exact ⟨t, a, [], u ++ t, (), rfl, by simp [Phrase.blanks], ht⟩
    refine ⟨h.placed.within, ?_, ?_, ?_⟩
    · exact fun n hn u z he hu hshort hle => lift (h.placed.begun n hn u z he hu hshort hle)
    · exact fun w z a he hw => h.placed.inside w z a he (word_iff w z a he hw)
    · rintro ⟨t, a, ht⟩
      apply h.placed.touches
      cases y with
      | nil =>
        obtain ⟨_, v, _, _, _, hv⟩ := ht
        exact ⟨v, a, hv⟩
      | cons c y => exact ⟨t, a, (blanks_bind_cons_iff (hy c y rfl)).mp ht⟩

theorem Reading.behind_blanks (h : Reading P K L y (i + b.length) o) (hb : ∀ c ∈ b, IsBlank c)
    (hy : Solid y) (hL : L.Begins fun c => ¬ IsBlank c) (hv : L.Viable []) :
    Reading P K (Phrase.blanks >>= fun _ => L) (b ++ y) i o := by
  refine (h.solid hy hL).prepend (fun t a => blanks_bind_append_iff hb hL)
    (Phrase.viable_nil_bind Phrase.viable_nil_blanks fun _ => hv) ?_
  rintro _ z a he ⟨u, v, _, rfl, _, hv⟩
  obtain ⟨c, t, rfl, hc⟩ := hL v a hv
  rw [List.append_assoc] at he
  rcases split_cases he with ⟨d, r, rfl, _⟩ | ⟨rfl, _⟩ | ⟨d, r, rfl, hr⟩
  · simp only [List.length_append]
    omega
  · simp
  · obtain rfl : c = d := by simpa using congrArg List.head? hr
    exact absurd (hb c (by simp)) hc

namespace Rule

variable {r : Rule α} {s : State}

theorem gives_blanks_of_solid {b y : List Char} (he : s.rest = b ++ y) (hb : ∀ c ∈ b, IsBlank c)
    (hy : Solid y) : blanks.Gives s ⟨some (), s.cursor + b.length, []⟩ := by
  have htake : s.rest.takeWhile CharClass.whitespace.contains = b := by
    rw [he, List.takeWhile_append_of_pos hb]
    cases y with
    | nil => simp
    | cons c y =>
      have hc : ¬ CharClass.whitespace.contains c = true := hy c y rfl
      rw [List.takeWhile_cons_of_neg hc, List.append_nil]
  have hg := gives_blanks s
  rwa [htake] at hg

theorem blanks_split (s : State) : ∃ b y, s.rest = b ++ y ∧ (∀ c ∈ b, IsBlank c) ∧ Solid y ∧
    blanks.Gives s ⟨some (), s.cursor + b.length, []⟩ := by
  refine ⟨_, _, List.takeWhile_append_dropWhile.symm, ?_, ?_, gives_blanks s⟩
  · exact List.all_eq_true.mp List.all_takeWhile
  · intro c t h hc
    have hd := List.head?_dropWhile_not CharClass.whitespace.contains s.rest
    rw [h] at hd
    simp only [List.head?_cons] at hd
    rw [IsBlank, hd] at hc
    simp at hc

theorem Tries.blanks_bind (hL : L.Begins fun c => ¬ IsBlank c) (hv : L.Viable [])
    (h : ∀ n, Solid (s.moved n).rest → r.Tries P K L (s.moved n)) :
    (blanks >>= fun _ => r).Tries P K (Phrase.blanks >>= fun _ => L) s := by
  obtain ⟨b, y, he, hb, hy, hg⟩ := blanks_split s
  have hrest : (s.moved b.length).rest = y := State.rest_moved_of_append he
  obtain ⟨o, hr, hn, ho⟩ := h b.length (by rwa [hrest])
  rw [hrest] at ho
  refine ⟨_, hg.bind_some (f := fun _ => r) hr, hn, ?_⟩
  rw [he]
  exact Reading.behind_blanks ho hb hy hL hv

theorem Tries.of_solid (hs : Solid s.rest) (h : r.Tries P K L s) :
    (blanks >>= fun _ => r).Tries P K L s := by
  obtain ⟨o, hr, hn, ho⟩ := h
  have hg := gives_blanks_of_solid (b := []) rfl (by simp) hs
  exact ⟨_, hg.bind_some (f := fun _ => r) hr, hn, ho⟩

theorem reads_many (hr : ∀ n, r.Reads P Never L (s.moved n)) (hS : L.Begins S)
    (hne : ∃ c, S c) (hL : P → L.Settled Never) : (many r).Reads P S L.star s := by
  suffices h : ∃ as k notes, Loop r s as k notes ∧
      Reading P S L.star s.rest s.cursor ⟨some as, k, notes⟩ by
    obtain ⟨as, k, notes, hl, hread⟩ := h
    exact ⟨_, hl.gives, by simp, hread⟩
  induction hn : s.rest.length using Nat.strongRecOn generalizing s with
  | ind n ih =>
    obtain ⟨⟨found, j, notes⟩, hg, hf, hread⟩ := hr 0
    simp only [State.moved, Nat.add_zero] at hg hf hread
    cases found with
    | none =>
      obtain ⟨_, rfl⟩ := hf rfl
      exact ⟨[], _, notes, .stop hg, hread.star_nil hS hne⟩
    | some a =>
      obtain ⟨w, y, he, hw, hj⟩ := hread.sound a rfl
      simp only at hj
      subst hj
      obtain ⟨c, t, rfl, _⟩ := hS w a hw
      have hlen : (s.moved (c :: t).length).rest.length < n := by
        rw [State.rest_moved_of_append he, ← hn, he]
        simp only [List.length_append, List.length_cons]
        omega
      have hr' : ∀ m, r.Reads P Never L ((s.moved (c :: t).length).moved m) := by
        intro m
        rw [State.moved_moved]
        exact hr _
      obtain ⟨as, k, more, hl, hstar⟩ := ih _ hlen hr' rfl
      have hle := State.cursor_add_le he (by simp)
      refine ⟨a :: as, k, notes ++ more, .step hg (by simp) hle hl, ?_⟩
      rw [State.rest_moved_of_append he] at hstar
      rw [he] at hread ⊢
      exact hread.star_cons hw hstar rfl hS hL

end Rule

end FuncScript

import FuncScript.Proofs.Reading.Choice
import FuncScript.Proofs.Reading.Repetition

/-!
Rules against phrases: at a given state the rule has an outcome that reads the phrase. A rule
that fails has noted something; one that `Reads` also goes back to where it began.
-/

namespace FuncScript.Rule

variable {α β : Type} {P : Prop} {K K' S S' : Char → Prop} {L L' : Phrase α} {r r' : Rule α}
  {s : State}

def Tries (P : Prop) (K : Char → Prop) (r : Rule α) (L : Phrase α) (s : State) : Prop :=
  ∃ o, r.Gives s o ∧ (o.found = none → o.notes ≠ []) ∧ Reading P K L s.rest s.cursor o

def Reads (P : Prop) (K : Char → Prop) (r : Rule α) (L : Phrase α) (s : State) : Prop :=
  ∃ o, r.Gives s o ∧ (o.found = none → o.notes ≠ [] ∧ o.stop = s.cursor) ∧
    Reading P K L s.rest s.cursor o

theorem Reads.tries (h : r.Reads P K L s) : r.Tries P K L s := by
  obtain ⟨o, hg, hn, hr⟩ := h
  exact ⟨o, hg, fun hf => (hn hf).1, hr⟩

theorem Reads.mono (h : r.Reads P K L s) (hK : ∀ c, K c → K' c) : r.Reads P K' L s := by
  obtain ⟨o, hg, hn, hr⟩ := h
  exact ⟨o, hg, hn, hr.mono hK⟩

theorem Tries.word_of_run (h : r.Tries P K L s) {t : State} {a : α} (hr : r s = (some a, t)) :
    ∃ w y, s.rest = w ++ y ∧ L w a ∧ t.cursor = s.cursor + w.length := by
  obtain ⟨o, hg, -, ho⟩ := h
  obtain ⟨hf, rfl⟩ := Prod.mk.inj (hr.symm.trans (hg s.failures))
  exact ho.sound a hf.symm

theorem Reads.run_word (h : r.Reads P Never L s) {w y : List Char} {a : α} (he : s.rest = w ++ y)
    (hw : L w a) : (r s).1 = some a ∧ (r s).2.cursor = s.cursor + w.length := by
  obtain ⟨o, hg, -, hr⟩ := h
  rw [show r s = _ from hg s.failures]
  exact hr.complete w y a he hw (by simp)

theorem Reads.run_none (h : r.Reads P K L s) (hnone : ∀ w y a, s.rest = w ++ y → ¬ L w a) :
    (r s).1 = none ∧ (r s).2.cursor = s.cursor := by
  obtain ⟨o, hg, hback, hr⟩ := h
  have hmissing : o.found = none := by
    apply Option.eq_none_iff_forall_ne_some.mpr
    intro a ha
    obtain ⟨w, y, he, hw, -⟩ := hr.sound a ha
    exact hnone w y a he hw
  rw [show r s = _ from hg s.failures]
  exact ⟨hmissing, (hback hmissing).2⟩

theorem tries_pure (a : α) : (pure a : Rule α).Tries P K (pure a) s :=
  ⟨⟨some a, s.cursor, []⟩, gives_pure a s, by simp, reading_pure a s.rest s.cursor⟩

theorem Tries.attempt (h : r.Tries P K L s) : (attempt r).Reads P K L s := by
  obtain ⟨⟨found, j, notes⟩, hg, hn, hr⟩ := h
  cases found with
  | some a => exact ⟨_, hg.attempt, by simp, hr⟩
  | none => exact ⟨_, hg.attempt, fun _ => ⟨hn rfl, rfl⟩, hr.of_none⟩

theorem gives_map {g : α → β} {o : Outcome α} (h : r.Gives s o) :
    (r >>= fun a => pure (g a)).Gives s ⟨o.found.map g, o.stop, o.notes⟩ := by
  obtain ⟨found, j, notes⟩ := o
  cases found with
  | none => exact h.bind_none
  | some a =>
    have hp : (pure (g a) : Rule β).Gives { s with cursor := j } ⟨some (g a), j, []⟩ :=
      gives_pure (g a) _
    have hg := h.bind_some (f := fun a => pure (g a)) hp
    simpa using hg

theorem Tries.map (h : r.Tries P K L s) (g : α → β) :
    (r >>= fun a => pure (g a)).Tries P K (L >>= fun a => pure (g a)) s := by
  obtain ⟨o, hg, hn, hr⟩ := h
  exact ⟨_, gives_map hg, by simpa using hn, hr.map g⟩

theorem Reads.map (h : r.Reads P K L s) (g : α → β) :
    (r >>= fun a => pure (g a)).Reads P K (L >>= fun a => pure (g a)) s := by
  obtain ⟨o, hg, hn, hr⟩ := h
  exact ⟨_, gives_map hg, by simpa using hn, hr.map g⟩

theorem Tries.bind {f : α → Rule β} {g : α → Phrase β} (h : r.Tries P K L s)
    (hf : ∀ w y a, s.rest = w ++ y → L w a → (f a).Tries P K' (g a) (s.moved w.length))
    (hg : Follows K g) (hε : ∀ a b, g a [] b → ∀ c, K c → K' c) (hL : P → L.Settled K) :
    (r >>= f).Tries P K' (L >>= g) s := by
  obtain ⟨⟨found, j, notes⟩, hr', hn, hr⟩ := h
  cases found with
  | none => exact ⟨_, hr'.bind_none, fun _ => hn rfl, hr.bind_none hg hε⟩
  | some a =>
    obtain ⟨w, y, he, hw, hj⟩ := hr.sound a rfl
    simp only at hj
    subst hj
    obtain ⟨o, ho, hn', hread⟩ := hf w y a he hw
    rw [State.rest_moved_of_append he] at hread
    rw [he] at hr
    refine ⟨_, hr'.bind_some ho, ?_, ?_⟩
    · intro hnone
      simp [hn' hnone]
    · rw [he]
      exact hr.bind hw hread hg hε hL

theorem Tries.bind_never {f : α → Rule β} {g : α → Phrase β} (h : r.Tries P Never L s)
    (hf : ∀ w y a, s.rest = w ++ y → L w a → (f a).Tries P K' (g a) (s.moved w.length))
    (hL : P → L.Settled Never) (hv : ∀ a, (g a).Viable [])
    (ha : ∀ a b a', g a [] b → ∃ b', g a' [] b') : (r >>= f).Tries P K' (L >>= g) s :=
  h.bind hf ⟨by simp, hv, ha⟩ (by simp) hL

theorem Tries.bind_begins {f : α → Rule β} {g : α → Phrase β} (h : r.Tries P K L s)
    (hf : ∀ w y a, s.rest = w ++ y → L w a → (f a).Tries P K' (g a) (s.moved w.length))
    (hS : ∀ a, (g a).Begins S) (hd : ∀ c, K c → ¬ S c) (hL : P → L.Settled K)
    (hv : ∀ a, (g a).Viable []) : (r >>= f).Tries P K' (L >>= g) s := by
  refine h.bind hf (.of_begins hS hd hv) ?_ hL
  exact fun a b hb => absurd hb ((hS a).not_nil b)

theorem Tries.orElse (h : r.Reads P K L s) (h' : r'.Tries P K L' s) (hS : L.Begins S)
    (hS' : L'.Begins S') (hd : ∀ c, S c → ¬ S' c) :
    (orElse r r').Tries P K (L.either L') s := by
  obtain ⟨⟨found, j, notes⟩, hg, hn, hr⟩ := h
  cases found with
  | some a => exact ⟨_, hg.orElse_some, by simp, hr.either_some hS hS' hd⟩
  | none =>
    obtain ⟨hne, hj⟩ := hn rfl
    simp only at hne hj
    subst hj
    obtain ⟨o, hg', hn', hr'⟩ := h'
    exact ⟨_, hg.orElse_none hg', by simp [hne], hr.either_none hr' hS hS' hd⟩

theorem Reads.orElse (h : r.Reads P K L s) (h' : r'.Reads P K L' s) (hS : L.Begins S)
    (hS' : L'.Begins S') (hd : ∀ c, S c → ¬ S' c) :
    (orElse r r').Reads P K (L.either L') s := by
  obtain ⟨⟨found, j, notes⟩, hg, hn, hr⟩ := h
  cases found with
  | some a => exact ⟨_, hg.orElse_some, by simp, hr.either_some hS hS' hd⟩
  | none =>
    obtain ⟨hne, hj⟩ := hn rfl
    simp only at hne hj
    subst hj
    obtain ⟨o, hg', hn', hr'⟩ := h'
    refine ⟨_, hg.orElse_none hg', ?_, hr.either_none hr' hS hS' hd⟩
    intro ho
    exact ⟨by simp [hne], (hn' ho).2⟩

theorem Reads.orElse_never (h : r.Reads P K L s) : (Rule.orElse r never).Reads P K L s := by
  obtain ⟨⟨found, j, notes⟩, hg, hn, hr⟩ := h
  cases found with
  | some a => exact ⟨_, hg.orElse_some, by simp, hr⟩
  | none =>
    obtain ⟨hne, hj⟩ := hn rfl
    simp only at hne hj
    subst hj
    have hg' := hg.orElse_none (gives_never s)
    simp only [List.append_nil] at hg'
    exact ⟨_, hg', fun _ => ⟨hne, rfl⟩, hr⟩

theorem Reads.optional (h : r.Reads P K L s) (hS : L.Begins S) (hne : ∃ c, S c) :
    (optional r).Reads P (fun c => K c ∨ S c) L.optional s := by
  obtain ⟨o, hg, hn, hr⟩ := h
  exact ⟨_, hg.optional, by simp, hr.optional (fun hf => (hn hf).2) hS hne⟩

theorem tries_optional_choice {k : Option α → Rule β} {g : α → Phrase β} {M : Phrase β}
    (h : r.Reads P K L s)
    (hf : ∀ w y a, s.rest = w ++ y → L w a → (k (some a)).Tries P K' (g a) (s.moved w.length))
    (h' : (k none).Tries P K' M s) (hg : Follows K g)
    (hε : ∀ a b, g a [] b → ∀ c, K c → K' c) (hL : P → L.Settled K)
    (hS : L.Begins S) (hS' : M.Begins S') (hdis : ∀ c, S c → ¬ S' c) :
    (optional r >>= k).Tries P K' ((L >>= g).either M) s := by
  obtain ⟨⟨found, j, notes⟩, hr', hn, hr⟩ := h
  cases found with
  | none =>
    obtain ⟨hne, hj⟩ := hn rfl
    simp only at hne hj
    subst hj
    obtain ⟨o, ho, hn', hread⟩ := h'
    refine ⟨_, hr'.optional.bind_some ho, by simp [hne], ?_⟩
    have hb : Reading P K' (L >>= g) s.rest s.cursor ⟨none, s.cursor, notes⟩ :=
      hr.bind_none hg hε
    exact hb.either_none hread (hS.bind g) hS' hdis
  | some a =>
    obtain ⟨w, y, he, hw, hj⟩ := hr.sound a rfl
    simp only at hj
    subst hj
    obtain ⟨o, ho, hn', hread⟩ := hf w y a he hw
    obtain ⟨c, t, rfl, hc⟩ := hS w a hw
    rw [State.rest_moved_of_append he] at hread
    rw [he] at hr
    refine ⟨_, hr'.optional.bind_some ho, ?_, ?_⟩
    · intro hnone
      simp [hn' hnone]
    · rw [he]
      refine (hr.bind hw hread hg hε hL).either_begun hc ?_ (hS.bind g) hS' hdis
      exact Phrase.viable_nil_bind (Phrase.viable_of_word hw) hg.inhabited

theorem Reads.nested (hd : s.depth < s.limit) (h : r.Reads P K L s.deeper) :
    (nested r).Reads P K L s := by
  obtain ⟨o, hg, hn, hr⟩ := h
  exact ⟨o, hg.nested hd, hn, hr⟩

theorem reads_terminal {accepts : Char → Bool} {e : Expectation}
    (he : ∀ c, e.admits c = accepts c) (hne : ∃ c, accepts c = true) :
    (terminal accepts e).Reads P Never (Phrase.one accepts) s := by
  have hB := Phrase.begins_one accepts
  by_cases hx : ∃ c t, s.rest = c :: t ∧ accepts c = true
  · obtain ⟨c, t, hr, hc⟩ := hx
    refine ⟨_, gives_terminal_some hr hc, by simp, ?_⟩
    rw [hr]
    have hp : Reading P Never (pure c : Phrase Char) t (s.cursor + [c].length)
        ⟨some c, s.cursor + 1, []⟩ := reading_pure c t _
    refine hp.prepend (p := [c]) ?_ (Phrase.viable_nil_pure c) ?_
    · intro t' a
      simp only [Phrase.one, List.cons_append, List.nil_append, List.cons.injEq]
      constructor
      · rintro ⟨⟨rfl, rfl⟩, _⟩
        exact ⟨rfl, rfl⟩
      · rintro ⟨rfl, rfl⟩
        exact ⟨⟨rfl, rfl⟩, hc⟩
    · rintro w z a _ ⟨rfl, _⟩
      simp
  · have hx' : ∀ c t, s.rest = c :: t → accepts c = false := by
      intro c t hr
      simpa using fun hc => hx ⟨c, t, hr, hc⟩
    refine ⟨_, gives_terminal_none hx', by simp, ?_⟩
    refine reading_miss hB ?_ (fun c => by rw [he c]) ?_ hne
    · intro c t hr hc
      simp [hx' c t hr] at hc
    · intro _ c hc
      exact Phrase.viable_one_iff.mpr hc

theorem reads_literal (c : Char) : (literal c).Reads P Never (Phrase.symbol c) s := by
  refine reads_terminal ?_ ⟨c, by simp⟩
  intro d
  simp only [Expectation.admits, String.toList_ofList]
  rw [Bool.eq_iff_iff]
  simp only [beq_iff_eq, List.cons.injEq, and_true]
  exact eq_comm

theorem reads_oneOf {k : CharClass} (h : ∃ c, k.contains c = true) :
    (oneOf k).Reads P Never (Phrase.oneOf k) s :=
  reads_terminal (fun _ => rfl) h

theorem settled_of_reading (h : ∀ x a, L x a → ∃ i o, Reading False K L x i o) : L.Settled K := by
  constructor
  · rintro c ⟨w, a, hw, t, b, hb⟩
    apply Classical.byContradiction
    intro hc
    obtain ⟨i, o, hr⟩ := h _ _ hb
    have hshort := (hr.complete w ([c] ++ t) a (by simp) hw ?_).2
    · have hlong := (hr.complete (w ++ [c] ++ t) [] b (by simp) hb (by simp)).2
      simp only [List.length_append, List.length_cons] at hlong
      omega
    · intro d v hd
      obtain rfl : c = d := by simpa using congrArg List.head? hd
      exact hc
  · intro w a b ha hb
    obtain ⟨i, o, hr⟩ := h w a ha
    have ha' := (hr.complete w [] a (by simp) ha (by simp)).1
    have hb' := (hr.complete w [] b (by simp) hb (by simp)).1
    simpa [ha'] using hb'

theorem settled_of_tries (h : ∀ s, r.Tries False K L s) : L.Settled K := by
  apply settled_of_reading
  intro x a _
  obtain ⟨o, _, _, hr⟩ := h { text := x.toArray, limit := 0 }
  exact ⟨_, o, by simpa [State.rest] using hr⟩

end FuncScript.Rule

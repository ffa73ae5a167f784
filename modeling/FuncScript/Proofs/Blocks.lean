import FuncScript.Proofs.Grammar

/-!
Blocks in the grammar. What stands behind BEGIN is a block, a single character or the closing END,
whichever the text at that place asks for; so there is one way at most to read a block, and as long
as there are levels left any text can be completed to one.
-/

namespace FuncScript

open Phrase

namespace Keyword

def Misses (k : Keyword) (cs : List Char) : Prop :=
  ∀ u ∈ k.letters, (CharClass.letter u).Misses cs

instance (k : Keyword) (cs : List Char) : Decidable (k.Misses cs) := List.decidableBAll _ k.letters

theorem go_append_of_le : ∀ {us p : List Char} (y : List Char), us.length ≤ p.length →
    startsAt.go us (p ++ y) = startsAt.go us p
  | [], _, _, _ => by simp [startsAt.go]
  | _ :: _, [], _, h => by simp at h
  | u :: us, c :: p, y, h => by
    have ih : startsAt.go us (p ++ y) = startsAt.go us p := go_append_of_le y (by simpa using h)
    simp [startsAt.go, ih]

theorem go_apart {c : Char} : ∀ {us : List Char} (v t : List Char),
    (∀ u ∈ us, (CharClass.letter u).contains c = false) →
    startsAt.go us (v ++ c :: t) = startsAt.go us v
  | [], _, _, _ => by simp [startsAt.go]
  | u :: us, [], t, h => by simp [startsAt.go, h u]
  | u :: us, d :: v, t, h => by
    have ih : startsAt.go us (v ++ c :: t) = startsAt.go us v :=
      go_apart v t fun u' hu => h u' (List.mem_cons_of_mem u hu)
    simp [startsAt.go, ih]

theorem go_iff : ∀ {us x : List Char},
    startsAt.go us x = true ↔ ∃ w y, x = w ++ y ∧ Grammar.letters us w ()
  | [], x => by
    refine iff_of_true ?_ ⟨[], x, rfl, rfl, rfl⟩
    simp [startsAt.go]
  | u :: us, [] => by
    refine iff_of_false (by simp [startsAt.go]) ?_
    rintro ⟨w, y, he, hw⟩
    obtain ⟨c, t, rfl, _⟩ := one_bind_iff.mp hw
    simp at he
  | u :: us, c :: x => by
    simp only [startsAt.go, Bool.and_eq_true, @go_iff us x]
    constructor
    · rintro ⟨hc, w, y, rfl, hw⟩
      exact ⟨c :: w, y, rfl, one_bind_iff.mpr ⟨c, w, rfl, hc, hw⟩⟩
    · rintro ⟨w, y, he, hw⟩
      obtain ⟨d, t, rfl, hd, ht⟩ := one_bind_iff.mp hw
      simp only [List.cons_append, List.cons.injEq] at he
      obtain ⟨rfl, rfl⟩ := he
      exact ⟨hd, t, y, rfl, ht⟩

theorem startsAt_iff {k : Keyword} {x : List Char} :
    k.startsAt x = true ↔ ∃ w y, x = w ++ y ∧ Grammar.word k w () := go_iff

theorem length_of_letters : ∀ {us w : List Char}, Grammar.letters us w () → w.length = us.length
  | [], _, h => by rw [h.1]
  | u :: us, _, h => by
    obtain ⟨c, t, rfl, _, ht⟩ := one_bind_iff.mp h
    simp [length_of_letters ht]

theorem length_of_word {k : Keyword} {w : List Char} (h : Grammar.word k w ()) :
    w.length = k.letters.length := length_of_letters h

theorem word_of_startsAt {k : Keyword} {w : List Char} (h : k.startsAt w = true)
    (hl : w.length = k.letters.length) : Grammar.word k w () := by
  obtain ⟨u, y, rfl, hu⟩ := startsAt_iff.mp h
  have hlen := length_of_word hu
  rw [List.length_append] at hl
  obtain rfl : y = [] := List.eq_nil_of_length_eq_zero (by omega)
  rwa [List.append_nil]

theorem startsAt_mono {k : Keyword} {x : List Char} (h : k.startsAt x = true) (y : List Char) :
    k.startsAt (x ++ y) = true := by
  obtain ⟨w, z, rfl, hw⟩ := startsAt_iff.mp h
  exact startsAt_iff.mpr ⟨w, z ++ y, by simp, hw⟩

theorem not_startsAt_of_append {k : Keyword} {x y : List Char} (h : k.startsAt (x ++ y) = false) :
    k.startsAt x = false := by
  cases hx : k.startsAt x with
  | false => rfl
  | true => simp [startsAt_mono hx y] at h

theorem not_startsAt_of_short {k : Keyword} {x : List Char} (h : x.length < k.letters.length) :
    k.startsAt x = false := by
  cases hx : k.startsAt x with
  | false => rfl
  | true =>
    obtain ⟨w, y, rfl, hw⟩ := startsAt_iff.mp hx
    rw [List.length_append, length_of_word hw] at h
    omega

def IsFence (k : Keyword) : Prop := k = .blockBegin ∨ k = .blockEnd

theorem startsAt_apart {k : Keyword} {c : Char}
    (hall : k.letters.all (fun u => !(CharClass.letter u).contains c) = true) (v t : List Char) :
    k.startsAt (v ++ c :: t) = k.startsAt v := by
  apply go_apart
  intro u hu
  simpa using List.all_eq_true.mp hall u hu

theorem startsAt_space {k : Keyword} (hk : k.IsFence) (v t : List Char) :
    k.startsAt (v ++ ' ' :: t) = k.startsAt v :=
  startsAt_apart (by rcases hk with rfl | rfl <;> decide) v t

theorem startsAt_bracket {k : Keyword} (hk : k.IsFence) {c : Char} (hc : c = '(' ∨ c = '[')
    (v t : List Char) : k.startsAt (v ++ c :: t) = k.startsAt v :=
  startsAt_apart (by rcases hc with rfl | rfl <;> rcases hk with rfl | rfl <;> decide) v t

theorem startsAt_begin {k : Keyword} (hk : k.IsFence) {c : Char}
    (hc : (CharClass.letter 'B').contains c = true) (d : Char) (v t : List Char) :
    k.startsAt (d :: (v ++ c :: t)) = k.startsAt (d :: v) := by
  have hall : k.letters.tail.all (fun u => !(CharClass.letter u).contains c) = true := by
    rcases contains_letter_iff.mp hc with rfl | rfl <;> rcases hk with rfl | rfl <;> decide
  have hgo : startsAt.go k.letters.tail (v ++ c :: t) = startsAt.go k.letters.tail v := by
    apply go_apart
    intro u hu
    simpa using List.all_eq_true.mp hall u hu
  rcases hk with rfl | rfl <;> exact congrArg ((CharClass.letter _).contains d && ·) hgo

theorem not_both {x : List Char} (hb : blockBegin.startsAt x = true)
    (he : blockEnd.startsAt x = true) : False := by
  cases x with
  | nil => exact absurd hb (by decide)
  | cons c x =>
    have hB : (CharClass.letter 'B').contains c = true := (Bool.and_eq_true_iff.mp hb).1
    have hE : (CharClass.letter 'E').contains c = true := (Bool.and_eq_true_iff.mp he).1
    rcases contains_letter_iff.mp hB with rfl | rfl <;> exact absurd hE (by decide)

theorem startsAt_append {k : Keyword} (hk : k.IsFence) {e : List Char}
    (he : Grammar.word .blockEnd e ()) (v y : List Char) :
    k.startsAt (v ++ e ++ y) = k.startsAt (v ++ e) := by
  obtain ⟨c, _, rfl, hc, h⟩ := one_bind_iff.mp he
  obtain ⟨d, _, rfl, hd, h⟩ := one_bind_iff.mp h
  obtain ⟨f, _, rfl, _, rfl, _⟩ := one_bind_iff.mp h
  rcases hk with rfl | rfl
  · have hB : (CharClass.letter 'B').contains c = false := by
      rcases contains_letter_iff.mp hc with rfl | rfl <;> decide
    have hG : (CharClass.letter 'G').contains d = false := by
      rcases contains_letter_iff.mp hd with rfl | rfl <;> decide
    have hl : blockBegin.letters = ['B', 'E', 'G', 'I', 'N'] := rfl
    rcases v with _ | ⟨a, _ | ⟨b, v⟩⟩
    · simp [startsAt, hl, startsAt.go, hB]
    · simp [startsAt, hl, startsAt.go, hG]
    · apply go_append_of_le
      simp [hl]
  · apply go_append_of_le
    have hl : blockEnd.letters = ['E', 'N', 'D'] := rfl
    simp [hl]

end Keyword

namespace Grammar

open Keyword (IsFence startsAt_append startsAt_space startsAt_iff)

def body (n : Nat) : Phrase (List Char) := fun w raw =>
  ∃ closing, w = raw ++ closing ∧ word .blockEnd closing () ∧
    Contents (fun u => ∃ r, block n u r) closing raw

theorem block_succ (n : Nat) : block (n + 1) = word .blockBegin >>= fun _ => body n := by
  funext w raw
  apply propext
  constructor
  · rintro ⟨opening, closing, rfl, hb, he, hc⟩
    exact bind_mk hb ⟨closing, rfl, he, hc⟩
  · rintro ⟨opening, _, _, rfl, hb, closing, rfl, he, hc⟩
    exact ⟨opening, closing, rfl, hb, he, hc⟩

variable {n : Nat} {w raw y : List Char}

theorem body_end (h : word .blockEnd w ()) : body n w [] := ⟨w, rfl, h, .nil⟩

theorem body_block {u r : List Char} (hu : block n u r) (h : body n w raw) :
    body n (u ++ w) (u ++ raw) := by
  obtain ⟨closing, rfl, he, hc⟩ := h
  exact ⟨closing, by simp, he, .block ⟨r, hu⟩ hc⟩

theorem body_char {c : Char} (hb : Keyword.blockBegin.startsAt (c :: (w ++ y)) = false)
    (he : Keyword.blockEnd.startsAt (c :: (w ++ y)) = false) (h : body n w raw) :
    body n (c :: w) (c :: raw) := by
  obtain ⟨closing, rfl, hclosing, hc⟩ := h
  have context : ∀ k : Keyword, k.IsFence → k.startsAt (c :: (raw ++ closing ++ y)) = false →
      k.startsAt (c :: (raw ++ closing)) = false := by
    intro k hk h
    rw [← h]
    exact (startsAt_append hk hclosing (c :: raw) y).symm
  exact ⟨closing, rfl, hclosing, .char (context _ (.inl rfl) hb) (context _ (.inr rfl) he) hc⟩

theorem body_char_space {c : Char} {t : List Char}
    (hb : Keyword.blockBegin.startsAt (c :: w) = false)
    (he : Keyword.blockEnd.startsAt (c :: w) = false) (h : body n (w ++ ' ' :: t) raw) :
    body n (c :: w ++ ' ' :: t) (c :: raw) := by
  apply body_char (y := []) _ _ h
  · rw [List.append_nil]
    exact (startsAt_space (.inl rfl) (c :: w) t).trans hb
  · rw [List.append_nil]
    exact (startsAt_space (.inr rfl) (c :: w) t).trans he

theorem block_of_body {opening : List Char} (ho : word .blockBegin opening ())
    (h : body n w raw) : block (n + 1) (opening ++ w) raw := by
  rw [block_succ]
  exact bind_mk ho h

theorem startsAt_of_block {r : List Char} (h : block n w r) (y : List Char) :
    Keyword.blockBegin.startsAt (w ++ y) = true := by
  cases n with
  | zero => exact h.elim
  | succ n =>
    obtain ⟨opening, closing, rfl, hb, _⟩ := h
    exact startsAt_iff.mpr ⟨opening, r ++ (closing ++ y), by simp, hb⟩

theorem body_cases (h : body n w raw) (y : List Char) :
    (Keyword.blockEnd.startsAt (w ++ y) = true ∧ word .blockEnd w () ∧ raw = []) ∨
    (Keyword.blockBegin.startsAt (w ++ y) = true ∧ ∃ u r w' raw', block n u r ∧ body n w' raw' ∧
      w = u ++ w' ∧ raw = u ++ raw') ∨
    (Keyword.blockBegin.startsAt (w ++ y) = false ∧ Keyword.blockEnd.startsAt (w ++ y) = false ∧
      ∃ c w' raw', body n w' raw' ∧ w = c :: w' ∧ raw = c :: raw') := by
  obtain ⟨closing, rfl, he, hc⟩ := h
  cases hc with
  | nil => exact .inl ⟨startsAt_iff.mpr ⟨closing, y, rfl, he⟩, he, rfl⟩
  | @block u v hu hc =>
    obtain ⟨r, hu⟩ := hu
    refine .inr (.inl ⟨?_, u, r, v ++ closing, v, hu, ⟨closing, rfl, he, hc⟩, by simp, rfl⟩)
    simpa using startsAt_of_block hu (v ++ (closing ++ y))
  | @char c v hb he' hc =>
    have context : ∀ k : Keyword, k.IsFence → k.startsAt (c :: (v ++ closing)) = false →
        k.startsAt (c :: v ++ closing ++ y) = false := by
      intro k hk h
      rw [startsAt_append hk he, ← h]
      rfl
    exact .inr (.inr ⟨context _ (.inl rfl) hb, context _ (.inr rfl) he', c, v ++ closing, v,
      ⟨closing, rfl, he, hc⟩, rfl, rfl⟩)

theorem pos_of_block {r : List Char} (h : block n w r) : 0 < n := by
  cases n with
  | zero => exact h.elim
  | succ n => exact n.succ_pos

theorem length_of_block_pos {r : List Char} (h : block n w r) : 0 < w.length := by
  have hs := startsAt_of_block h []
  cases w with
  | nil => exact absurd hs (by decide)
  | cons c w => simp

theorem length_of_body (h : body n w raw) : w.length = raw.length + 3 := by
  obtain ⟨closing, rfl, he, _⟩ := h
  rw [List.length_append, Keyword.length_of_word he]
  rfl

def PrefixFree {α : Type} (L : Phrase α) : Prop :=
  ∀ w w' y y' a a', L w a → L w' a' → w ++ y = w' ++ y' → w = w'

theorem prefixFree_body (h : PrefixFree (block n)) : PrefixFree (body n) := by
  intro w
  induction hn : w.length using Nat.strongRecOn generalizing w with
  | ind k ih =>
    intro w' y y' raw raw' hw hw' he
    have hx := body_cases hw' y'
    rw [← he] at hx
    -- What the text starts with decides which of the three ways both words take.
    rcases body_cases hw y with ⟨hE, hwE, rfl⟩ | ⟨hB, u, r, v, z, hu, hv, rfl, rfl⟩ |
      ⟨hB, hE, c, v, z, hv, rfl, rfl⟩
    · rcases hx with ⟨_, hwE', rfl⟩ | ⟨hB, _⟩ | ⟨_, hE', _⟩
      · refine (List.append_inj he ?_).1
        rw [Keyword.length_of_word hwE, Keyword.length_of_word hwE']
      · exact (Keyword.not_both hB hE).elim
      · rw [hE] at hE'
        simp at hE'
    · rcases hx with ⟨hE, _⟩ | ⟨_, u', r', v', z', hu', hv', rfl, rfl⟩ | ⟨hB', _⟩
      · exact (Keyword.not_both hB hE).elim
      · rw [List.append_assoc, List.append_assoc] at he
        obtain rfl := h u u' _ _ r r' hu hu' he
        have hlt : v.length < k := by
          have := length_of_block_pos hu
          rw [← hn, List.length_append]
          omega
        rw [ih _ hlt v rfl v' y y' z z' hv hv' (List.append_cancel_left he)]
      · rw [hB] at hB'
        simp at hB'
    · rcases hx with ⟨hE', _⟩ | ⟨hB', _⟩ | ⟨_, _, c', v', z', hv', rfl, rfl⟩
      · rw [hE] at hE'
        simp at hE'
      · rw [hB] at hB'
        simp at hB'
      · simp only [List.cons_append, List.cons.injEq] at he
        obtain ⟨rfl, he⟩ := he
        have hlt : v.length < k := by
          rw [← hn, List.length_cons]
          omega
        rw [ih _ hlt v rfl v' y y' z z' hv hv' he]

theorem prefixFree_block : ∀ n, PrefixFree (block n)
  | 0 => fun _ _ _ _ _ _ h => h.elim
  | n + 1 => by
    intro w w' y y' r r' hw hw' he
    rw [block_succ] at hw hw'
    obtain ⟨u, v, _, rfl, hu, hv⟩ := hw
    obtain ⟨u', v', _, rfl, hu', hv'⟩ := hw'
    rw [List.append_assoc, List.append_assoc] at he
    have hlen : u.length = u'.length := by
      rw [Keyword.length_of_word hu, Keyword.length_of_word hu']
    obtain ⟨rfl, he'⟩ := List.append_inj he hlen
    rw [prefixFree_body (prefixFree_block n) v v' y y' r r' hv hv' he']

/-- No word of the body ends here or before. -/
def Open (n : Nat) (v : List Char) : Prop := ∀ w z raw, v = w ++ z → ¬ body n w raw

theorem word_blockEnd : word .blockEnd ['E', 'N', 'D'] () :=
  one_bind_iff.mpr ⟨_, _, rfl, rfl, one_bind_iff.mpr ⟨_, _, rfl, rfl,
    one_bind_iff.mpr ⟨_, _, rfl, rfl, rfl, rfl⟩⟩⟩

theorem exists_body_of_open (n : Nat) (v : List Char) (hn : v.length ≤ n) (hopen : Open n v) :
    ∃ t raw, body n (v ++ ' ' :: t) raw := by
  induction hk : v.length using Nat.strongRecOn generalizing n v with
  | ind k ih =>
    cases hE : Keyword.blockEnd.startsAt v with
    | true =>
      obtain ⟨w, y, he, hw⟩ := startsAt_iff.mp hE
      exact absurd (body_end hw) (hopen w y [] he)
    | false =>
      cases hB : Keyword.blockBegin.startsAt v with
      | true =>
        obtain ⟨opening, z, rfl, hb⟩ := startsAt_iff.mp hB
        have hlen : opening.length = 5 := Keyword.length_of_word hb
        rw [List.length_append] at hk hn
        obtain ⟨m, rfl⟩ : ∃ m, n = m + 1 := ⟨n - 1, by omega⟩
        by_cases hz : Open m z
        · -- The block inside is open: it is completed first.
          obtain ⟨t, raw, ht⟩ := ih z.length (by omega) m z (by omega) hz rfl
          have h := body_block (block_of_body hb ht) (body_end word_blockEnd)
          exact ⟨t ++ ['E', 'N', 'D'], _, by simpa using h⟩
        · simp only [Open, Classical.not_forall, Classical.not_not] at hz
          obtain ⟨x, y, r, rfl, hx⟩ := hz
          have hy : Open (m + 1) y := by
            rintro w z raw rfl hw
            exact hopen _ z _ (by simp) (body_block (block_of_body hb hx) hw)
          rw [List.length_append] at hk hn
          obtain ⟨t, raw, ht⟩ := ih y.length (by omega) (m + 1) y (by omega) hy rfl
          exact ⟨t, _, by simpa using body_block (block_of_body hb hx) ht⟩
      | false =>
        cases v with
        | nil => exact ⟨['E', 'N', 'D'], _, body_char (c := ' ') (y := []) rfl rfl (body_end word_blockEnd)⟩
        | cons c v =>
          have hv : Open n v := by
            rintro w z raw rfl hw
            exact hopen (c :: w) z _ rfl (body_char (y := z) hB hE hw)
          rw [List.length_cons] at hk hn
          obtain ⟨t, raw, ht⟩ := ih v.length (by omega) n v (by omega) hv rfl
          exact ⟨t, _, body_char_space hB hE ht⟩

theorem exists_body_of_unfenced (n : Nat) : ∀ {v : List Char},
    (∀ w, w <:+ v → ∀ k : Keyword, k.IsFence → k.startsAt w = false) →
      ∃ raw, body n (v ++ [' ', 'E', 'N', 'D']) raw
  | [], _ => ⟨_, body_char (c := ' ') (y := []) rfl rfl (body_end word_blockEnd)⟩
  | c :: v, h => by
    obtain ⟨raw, hv⟩ := exists_body_of_unfenced n (v := v)
      fun w hw => h w (hw.trans (List.suffix_cons c v))
    have fence := h _ (List.suffix_refl (c :: v))
    exact ⟨_, body_char_space (fence _ (.inl rfl)) (fence _ (.inr rfl)) hv⟩

theorem exists_body_of_short (n : Nat) {v : List Char} (h : v.length < 3) :
    ∃ raw, body n (v ++ [' ', 'E', 'N', 'D']) raw := by
  apply exists_body_of_unfenced
  rintro w hw k (rfl | rfl) <;> apply Keyword.not_startsAt_of_short <;>
    exact Nat.lt_of_le_of_lt hw.length_le (Nat.lt_of_lt_of_le h (by decide))

theorem exists_body_of_partial (n : Nat) {v t : List Char} {d : Char}
    (h : word .blockBegin (v ++ d :: t) ()) : ∃ raw, body n (v ++ [' ', 'E', 'N', 'D']) raw := by
  have hlen := Keyword.length_of_word h
  rw [List.length_append, List.length_cons, show Keyword.blockBegin.letters.length = 5 from rfl]
    at hlen
  obtain ⟨b, _, he, hb, h⟩ := one_bind_iff.mp h
  obtain ⟨e, _, rfl, _, h⟩ := one_bind_iff.mp h
  obtain ⟨g, r, rfl, hg, _⟩ := one_bind_iff.mp h
  have hE : (CharClass.letter 'E').contains b = false := by
    rcases contains_letter_iff.mp hb with rfl | rfl <;> decide
  have hN : (CharClass.letter 'N').contains g = false := by
    rcases contains_letter_iff.mp hg with rfl | rfl <;> decide
  -- `B` does not begin END and `G` is not its second letter, so that END starts nowhere in it.
  apply exists_body_of_unfenced
  rintro w hw k (rfl | rfl)
  · have hle := hw.length_le
    exact Keyword.not_startsAt_of_short (Nat.lt_of_le_of_lt hle (by change _ < 5; omega))
  · have hl : Keyword.blockEnd.letters = ['E', 'N', 'D'] := rfl
    obtain ⟨q, rfl⟩ := hw
    rcases q with _ | ⟨q₁, _ | ⟨q₂, q⟩⟩
    · cases w with
      | nil => rfl
      | cons c w =>
        obtain rfl : c = b := by simpa using congrArg List.head? he
        simp [Keyword.startsAt, hl, Keyword.startsAt.go, hE]
    · rcases w with _ | ⟨c, _ | ⟨c', w⟩⟩
      · rfl
      · simp [Keyword.startsAt, hl, Keyword.startsAt.go]
      · simp only [List.cons_append, List.nil_append, List.cons.injEq] at he
        obtain ⟨_, _, rfl, _⟩ := he
        simp [Keyword.startsAt, hl, Keyword.startsAt.go, hN]
    · apply Keyword.not_startsAt_of_short
      rw [hl]
      simp only [List.length_append, List.length_cons, List.length_nil] at hlen ⊢
      omega

/-- The text is a body, or becomes one where a space follows. -/
def SpaceAllowed (n : Nat) (v : List Char) : Prop :=
  (∃ raw, body n v raw) ∨ ∃ t raw, body n (v ++ ' ' :: t) raw

theorem spaceAllowed_of_short (n : Nat) {v t : List Char} (h : word .blockEnd (v ++ t) ()) :
    SpaceAllowed n v := by
  have hlen := Keyword.length_of_word h
  rw [List.length_append, show Keyword.blockEnd.letters.length = 3 from rfl] at hlen
  cases t with
  | nil =>
    rw [List.append_nil] at h
    exact .inl ⟨_, body_end h⟩
  | cons d t =>
    rw [List.length_cons] at hlen
    exact .inr ⟨_, exists_body_of_short n (by omega)⟩

theorem SpaceAllowed.behind_block {u r v : List Char} (h : SpaceAllowed n v) (hu : block n u r) :
    SpaceAllowed n (u ++ v) := by
  rcases h with ⟨raw, hv⟩ | ⟨t, raw, hv⟩
  · exact .inl ⟨_, body_block hu hv⟩
  · exact .inr ⟨t, _, by simpa using body_block hu hv⟩

theorem SpaceAllowed.behind_char {c : Char} {v t : List Char} (h : SpaceAllowed n v)
    (hB : Keyword.blockBegin.startsAt (c :: v ++ t) = false)
    (hE : Keyword.blockEnd.startsAt (c :: v ++ t) = false) : SpaceAllowed n (c :: v) := by
  rcases h with ⟨raw, hv⟩ | ⟨t', raw, hv⟩
  · exact .inl ⟨_, body_char hB hE hv⟩
  · exact .inr ⟨t', _, body_char_space (Keyword.not_startsAt_of_append hB)
      (Keyword.not_startsAt_of_append hE) hv⟩

theorem SpaceAllowed.inside_block {opening v : List Char} (h : SpaceAllowed n v)
    (ho : word .blockBegin opening ()) : SpaceAllowed (n + 1) (opening ++ v) := by
  rcases h with ⟨r, hr⟩ | ⟨t, r, hr⟩
  · obtain ⟨raw, hend⟩ := exists_body_of_short (n + 1) (v := []) (by simp)
    exact .inr ⟨_, _, by simpa using body_block (block_of_body ho hr) hend⟩
  · have hclosed := body_block (block_of_body ho hr) (body_end word_blockEnd)
    exact .inr ⟨_, _, by simpa using hclosed⟩

theorem SpaceAllowed.viable {v : List Char} (h : SpaceAllowed n v) : (body n).Viable v := by
  rcases h with ⟨raw, hv⟩ | ⟨t, raw, hv⟩
  · exact viable_of_word hv
  · exact ⟨' ' :: t, raw, hv⟩

theorem body_space {v : List Char} (h : (body n).Viable v) : SpaceAllowed n v := by
  induction hk : v.length using Nat.strongRecOn generalizing n v with
  | ind k ih =>
    obtain ⟨t, raw, ht⟩ := h
    rcases body_cases ht [] with ⟨_, hw, _⟩ | ⟨_, u, r, w', raw', hu, hw', he, _⟩ |
      ⟨hB, hE, c, w', raw', hw', he, _⟩
    · exact spaceAllowed_of_short n hw
    · cases n with
      | zero => exact hu.elim
      | succ n =>
        rw [block_succ] at hu
        obtain ⟨opening, z, _, rfl, hb, hz⟩ := hu
        have hlen : opening.length = 5 := Keyword.length_of_word hb
        rw [List.append_assoc] at he
        rcases split_cases he with ⟨d, x, rfl, _⟩ | ⟨rfl, _⟩ | ⟨d, x, rfl, hx⟩
        · exact .inr ⟨_, exists_body_of_partial (n + 1) hb⟩
        · have hempty : SpaceAllowed n [] := .inr ⟨_, exists_body_of_short n (v := []) (by simp)⟩
          simpa using hempty.inside_block hb
        · rw [List.length_append, List.length_cons] at hk
          have within : (body n).Viable (d :: x) → SpaceAllowed (n + 1) (opening ++ d :: x) := by
            intro hv
            exact (ih _ (by rw [List.length_cons]; omega) hv rfl).inside_block hb
          rcases split_cases hx.symm with ⟨e, y, rfl, _⟩ | ⟨rfl, _⟩ | ⟨e, y, hy, rfl⟩
          · exact within ⟨_, _, hz⟩
          · exact within (viable_of_word hz)
          · -- A block that is closed, and the beginning of a body behind it.
            have hlt : (e :: y).length < k := by
              have := congrArg List.length hy
              simp only [List.length_append, List.length_cons] at this ⊢
              omega
            rw [hy, ← List.append_assoc]
            exact (ih _ hlt ⟨t, raw', hw'⟩ rfl).behind_block (block_of_body hb hz)
    · cases v with
      | nil => exact .inr ⟨_, exists_body_of_short n (v := []) (by simp)⟩
      | cons d v =>
        simp only [List.cons_append, List.cons.injEq] at he
        obtain ⟨rfl, rfl⟩ := he
        have hlt : v.length < k := by
          rw [← hk, List.length_cons]
          omega
        rw [List.append_nil] at hB hE
        exact (ih _ hlt ⟨t, raw', hw'⟩ rfl).behind_char hB hE

theorem Open.viable {v : List Char} (h : Open n v) (hn : v.length ≤ n) : (body n).Viable v := by
  obtain ⟨t, raw, ht⟩ := exists_body_of_open n v hn h
  exact ⟨' ' :: t, raw, ht⟩

end Grammar

end FuncScript

import FuncScript.Proofs.Blocks
import FuncScript.Proofs.Reading.Scalar

/-!
What an outcome for the body of a block reads, put together from those for its first part and for
the rest. Where the body stays open to the end of the text, every character could follow there.
-/

namespace FuncScript

open Phrase (IsBlank)

variable {α : Type} {P : Prop} {K K' : Char → Prop} {L L' : Phrase α} {x y p : List Char}
  {i j m n : Nat} {o : Outcome α} {s : State}

namespace Phrase

def skip (L : Phrase α) : Phrase Unit := L >>= fun _ => pure ()

theorem skip_iff {w : List Char} {u : Unit} : skip L w u ↔ ∃ a, L w a := by
  rw [skip, bind_pure_iff]
  simp

theorem viable_skip_iff {u : List Char} : (skip L).Viable u ↔ L.Viable u := viable_map_iff

end Phrase

open Phrase (skip skip_iff viable_skip_iff)

theorem Reading.of_skip {found : Option α} {notes : List Note}
    (h : Reading P K (skip L) x i ⟨found.map fun _ => (), j, notes⟩)
    (hf : ∀ a w y a', found = some a → x = w ++ y → j = i + w.length → L w a' → a' = a) :
    Reading P K L x i ⟨found, j, notes⟩ := by
  constructor
  · rintro a rfl
    obtain ⟨w, y, he, hw, hj⟩ := h.sound () rfl
    obtain ⟨a', ha'⟩ := skip_iff.mp hw
    rw [hf a w y a' rfl he hj ha'] at ha'
    exact ⟨w, y, he, ha', hj⟩
  · intro w y a' he ha' hy
    obtain ⟨hs, hj⟩ := h.complete w y () he (skip_iff.mpr ⟨a', ha'⟩) hy
    obtain ⟨a, rfl, _⟩ := Option.map_eq_some_iff.mp hs
    exact ⟨by rw [hf a w y a' rfl he hj ha'], hj⟩
  · intro hP
    constructor
    · intro w y a he ha
      simpa using (h.exact hP).maximal w y () he (skip_iff.mpr ⟨a, ha⟩)
    · obtain ⟨u, y, he, hu⟩ := (h.exact hP).horizon
      refine ⟨u, y, he, hu.transfer (viable_skip_iff.mp hu.viable)
        (fun _ => viable_skip_iff.symm) (fun _ => id) (fun _ => .inl) ?_⟩
      simpa using hu.reached
  · refine ⟨h.placed.within, ?_, ?_, ?_⟩
    · intro n hn u y he hu hlen hle
      exact viable_skip_iff.mp (h.placed.begun n hn u y he hu hlen hle)
    · intro w y a he ha hy
      exact h.placed.inside w y () he (skip_iff.mpr ⟨a, ha⟩) hy
    · intro hx
      simpa using h.placed.touches (viable_skip_iff.mpr hx)

section Agree

variable {notes : List Note}

theorem viable_agree_iff (hL : ∀ t a, L (p ++ t) a ↔ L' (p ++ t) a) (v : List Char) :
    L.Viable (p ++ v) ↔ L'.Viable (p ++ v) := by
  simp only [Phrase.Viable, List.append_assoc, hL]

theorem words_agree (hL : ∀ t a, L (p ++ t) a ↔ L' (p ++ t) a)
    (hshort : ∀ w z a, p ++ y = w ++ z → L w a ∨ L' w a → p.length ≤ w.length) {w z : List Char}
    {a : α} (he : p ++ y = w ++ z) (hw : L w a ∨ L' w a) : L w a ∧ L' w a := by
  have hlen := hshort w z a he hw
  obtain ⟨t, rfl⟩ : ∃ t, w = p ++ t := by
    rcases split_cases he with ⟨d, t, rfl, _⟩ | ⟨rfl, _⟩ | ⟨d, t, rfl, _⟩
    · exact ⟨_, rfl⟩
    · exact ⟨[], by simp⟩
    · simp only [List.length_append, List.length_cons] at hlen
      omega
  rw [hL] at hw ⊢
  exact ⟨hw.elim id id, hw.elim id id⟩

theorem Exact.agree (h : Exact L' (p ++ y) i o) (hL : ∀ t a, L (p ++ t) a ↔ L' (p ++ t) a)
    (hshort : ∀ w z a, p ++ y = w ++ z → L w a ∨ L' w a → p.length ≤ w.length)
    (hp : L'.Viable p) (hpos : 0 < p.length) (hsub : ∀ n ∈ o.notes, n ∈ notes)
    (hback : ∀ n ∈ notes, n ∈ o.notes ∨ n.1 ≤ i) :
    Exact L (p ++ y) i ⟨o.found, o.stop, notes⟩ := by
  constructor
  · intro w z a he hw
    exact h.maximal w z a he (words_agree hL hshort he (.inl hw)).2
  · obtain ⟨u, z, he, hu⟩ := h.horizon
    obtain ⟨t, rfl, _⟩ := hu.begins hp he.symm
    refine ⟨p ++ t, z, he, hu.transfer ((viable_agree_iff hL t).mpr hu.viable) ?_ hsub ?_
      hu.reached⟩
    · intro c
      rw [List.append_assoc]
      exact viable_agree_iff hL _
    · intro n hn
      refine (hback n hn).imp_right fun hle => ?_
      rw [List.length_append]
      omega

theorem Placed.agree (h : Placed K L' (p ++ y) i o) (hL : ∀ t a, L (p ++ t) a ↔ L' (p ++ t) a)
    (hshort : ∀ w z a, p ++ y = w ++ z → L w a ∨ L' w a → p.length ≤ w.length)
    (hv : L'.Viable [] → L'.Viable p) (hpos : 0 < p.length) (hsub : ∀ n ∈ o.notes, n ∈ notes)
    (hback : ∀ n ∈ notes, n ∈ o.notes ∨ n.1 ≤ i) :
    Placed K L (p ++ y) i ⟨o.found, o.stop, notes⟩ := by
  refine ⟨?_, ?_, ?_, ?_⟩
  · intro n hn
    rcases hback n hn with hn | hn
    · exact h.within n hn
    · exact Nat.le_add_right_of_le hn
  · intro n hn u z he hu hlen hle
    have := List.length_pos_iff.mpr hu
    rcases hback n hn with hn | hn
    · have hu' := h.begun n hn u z he hu hlen hle
      have hp' : L.Viable p := by
        simpa using (viable_agree_iff hL []).mpr (by simpa using hv hu'.nil)
      rcases split_cases he with ⟨d, t, rfl, _⟩ | ⟨rfl, _⟩ | ⟨d, t, rfl, _⟩
      · exact (viable_agree_iff hL _).mpr hu'
      · exact hp'
      · exact hp'.of_append
    · omega
  · intro w z a he hw hz n hn
    have hlen := hshort w z a he (.inl hw)
    rcases hback n hn with hn | hn
    · exact h.inside w z a he (words_agree hL hshort he (.inl hw)).2 hz n hn
    · exact ⟨by omega, fun hat => by omega⟩
  · intro hx
    rcases h.touches ((viable_agree_iff hL y).mp hx) with ⟨n, hn, hat⟩ | hs
    · exact .inl ⟨n, hsub n hn, hat⟩
    · exact .inr hs

theorem Reading.agree (h : Reading P K L' (p ++ y) i o)
    (hL : ∀ t a, L (p ++ t) a ↔ L' (p ++ t) a)
    (hshort : ∀ w z a, p ++ y = w ++ z → L w a ∨ L' w a → p.length ≤ w.length)
    (hp : P → L'.Viable p) (hv : L'.Viable [] → L'.Viable p) (hpos : 0 < p.length)
    (hsub : ∀ n ∈ o.notes, n ∈ notes) (hback : ∀ n ∈ notes, n ∈ o.notes ∨ n.1 ≤ i) :
    Reading P K L (p ++ y) i ⟨o.found, o.stop, notes⟩ := by
  constructor
  · intro a ha
    obtain ⟨w, z, he, hw, hs⟩ := h.sound a ha
    exact ⟨w, z, he, (words_agree hL hshort he (.inr hw)).1, hs⟩
  · intro w z a he hw hz
    exact h.complete w z a he (words_agree hL hshort he (.inl hw)).2 hz
  · exact fun hP => (h.exact hP).agree hL hshort (hp hP) hpos hsub hback
  · exact h.placed.agree hL hshort hv hpos hsub hback

end Agree

namespace Grammar

open Keyword (startsAt_iff startsAt_append)

variable {v w raw : List Char}

theorem viable_body_iff (hn : v.length ≤ n) :
    (body n).Viable v ↔ ∀ w d z raw, v = w ++ d :: z → ¬ body n w raw := by
  constructor
  · rintro ⟨t, raw, ht⟩ w d z raw' rfl hw
    have he : w ++ (d :: z ++ t) = w ++ d :: z ++ t ++ [] := by simp
    have h := congrArg List.length (prefixFree_body (prefixFree_block n) w _ _ [] raw' raw hw ht he)
    simp only [List.length_append, List.length_cons] at h
    omega
  · intro h
    by_cases hopen : Open n v
    · exact hopen.viable hn
    · simp only [Open, Classical.not_forall, Classical.not_not] at hopen
      obtain ⟨w, z, raw, he, hw⟩ := hopen
      cases z with
      | nil =>
        rw [List.append_nil] at he
        exact he ▸ Phrase.viable_of_word hw
      | cons d z => exact absurd hw (h w d z raw he)

theorem startsAt_of_viable_block {c : Char} {z : List Char} (hw : body n w raw)
    (h : (block m).Viable (c :: w ++ z)) : Keyword.blockBegin.startsAt (c :: w) = true := by
  obtain ⟨t, r, ht⟩ := h
  obtain ⟨closing, rfl, he, _⟩ := hw
  cases m with
  | zero => exact ht.elim
  | succ m =>
    rw [block_succ] at ht
    obtain ⟨opening, v, _, ho, hb, _⟩ := ht
    have hs := startsAt_iff.mpr ⟨opening, v, ho, hb⟩
    have hc := startsAt_append (.inl rfl) he (c :: raw) (z ++ t)
    simp only [List.cons_append, List.append_assoc] at hs hc ⊢
    exact hc.symm.trans hs

theorem partial_of_viable_block (h : (block m).Viable v)
    (hB : Keyword.blockBegin.startsAt v = false) :
    ∃ d t, word .blockBegin (v ++ d :: t) () := by
  obtain ⟨t, r, ht⟩ := h
  cases m with
  | zero => exact ht.elim
  | succ m =>
    rw [block_succ] at ht
    obtain ⟨opening, z, _, he, hb, _⟩ := ht
    rcases split_cases he with ⟨d, x, rfl, _⟩ | ⟨rfl, _⟩ | ⟨d, x, rfl, _⟩
    · exact ⟨d, x, hb⟩
    · rw [startsAt_iff.mpr ⟨v, [], by simp, hb⟩] at hB
      simp at hB
    · rw [startsAt_iff.mpr ⟨opening, _, rfl, hb⟩] at hB
      simp at hB

theorem viable_body_cons {c : Char} {z : List Char}
    (hB : Keyword.blockBegin.startsAt (c :: (v ++ z)) = false)
    (hE : Keyword.blockEnd.startsAt (c :: (v ++ z)) = false) (h : (body m).Viable v) :
    (body m).Viable (c :: v) :=
  ((body_space h).behind_char hB hE).viable

end Grammar

section Body

open Grammar (body block word body_cases body_end body_block body_char viable_body_iff)

variable {opening closing u : List Char} {c : Char} {o : Outcome Unit} {notes : List Note}

theorem length_of_skip_body {w : List Char} (h : skip (body m) w ()) : 3 ≤ w.length := by
  obtain ⟨raw, hw⟩ := skip_iff.mp h
  rw [Grammar.length_of_body hw]
  omega

theorem Reading.body_end (h : Reading P Never (word .blockEnd) (closing ++ y) i o)
    (he : word .blockEnd closing ()) (hn : ∀ n ∈ notes, n.1 ≤ i) :
    Reading P Never (skip (body m)) (closing ++ y) i ⟨o.found, o.stop, notes ++ o.notes⟩ := by
  have hlen : closing.length = 3 := Keyword.length_of_word he
  apply h.agree
  · rintro t ⟨⟩
    rw [skip_iff]
    constructor
    · rintro ⟨raw, hw⟩
      have hE : Keyword.blockEnd.startsAt (closing ++ t ++ []) = true :=
        Keyword.startsAt_iff.mpr ⟨closing, t, by simp, he⟩
      rcases body_cases hw [] with ⟨_, hw, _⟩ | ⟨hB, _⟩ | ⟨_, hE', _⟩
      · exact hw
      · exact (Keyword.not_both hB hE).elim
      · rw [hE] at hE'
        simp at hE'
    · exact fun hw => ⟨[], Grammar.body_end hw⟩
  · rintro w z ⟨⟩ _ (hw | hw)
    · rw [hlen]
      exact length_of_skip_body hw
    · rw [hlen, Keyword.length_of_word hw]
      exact Nat.le_refl 3
  · exact fun _ => Phrase.viable_of_word he
  · exact fun _ => Phrase.viable_of_word he
  · omega
  · exact fun n hn => List.mem_append_right _ hn
  · intro n hmem
    exact (List.mem_append.mp hmem).symm.imp id (hn n)

def withBlock (m : Nat) : Phrase Unit := skip (block m) >>= fun _ => skip (body m)

theorem withBlock_iff {w : List Char} : withBlock m w () ↔
    ∃ u r w' raw', block m u r ∧ body m w' raw' ∧ w = u ++ w' := by
  constructor
  · rintro ⟨u, v, _, rfl, hu, hv⟩
    obtain ⟨r, hu⟩ := skip_iff.mp hu
    obtain ⟨raw, hv⟩ := skip_iff.mp hv
    exact ⟨u, r, v, raw, hu, hv, rfl⟩
  · rintro ⟨u, r, v, raw, hu, hv, rfl⟩
    exact Phrase.bind_mk (a := ()) (skip_iff.mpr ⟨r, hu⟩) (skip_iff.mpr ⟨raw, hv⟩)

theorem withBlock_of_body {w raw : List Char} (hw : body m w raw) (z : List Char)
    (hB : Keyword.blockBegin.startsAt (w ++ z) = true) : withBlock m w () := by
  rcases body_cases hw z with ⟨hE, _⟩ | ⟨_, u, r, w', raw', hu, hw', rfl, _⟩ | ⟨hB', _⟩
  · exact (Keyword.not_both hB hE).elim
  · exact withBlock_iff.mpr ⟨u, r, w', raw', hu, hw', rfl⟩
  · rw [hB] at hB'
    simp at hB'

theorem length_of_withBlock {w : List Char} (h : withBlock m w ()) : 5 ≤ w.length := by
  obtain ⟨u, r, v, raw, hu, _, rfl⟩ := withBlock_iff.mp h
  cases m with
  | zero => exact hu.elim
  | succ m =>
    obtain ⟨opening, closing, rfl, hb, _⟩ := hu
    have hlen : opening.length = 5 := Keyword.length_of_word hb
    simp only [List.length_append]
    omega

theorem viable_block (hb : word .blockBegin opening ()) (hm : 0 < m) :
    (block m).Viable opening := by
  obtain ⟨m, rfl⟩ : ∃ k, m = k + 1 := ⟨m - 1, by omega⟩
  rw [Grammar.block_succ]
  exact ⟨_, _, Phrase.bind_mk hb (Grammar.body_end Grammar.word_blockEnd)⟩

theorem viable_body_nil (m : Nat) : (body m).Viable [] :=
  ⟨_, _, Grammar.body_end Grammar.word_blockEnd⟩

theorem Reading.body_block (h : Reading P Never (withBlock m) (opening ++ y) i o)
    (hb : word .blockBegin opening ()) (hm : P → 0 < m) (hsub : ∀ n ∈ o.notes, n ∈ notes)
    (hn : ∀ n ∈ notes, n ∈ o.notes ∨ n.1 ≤ i) :
    Reading P Never (skip (body m)) (opening ++ y) i ⟨o.found, o.stop, notes⟩ := by
  have hlen : opening.length = 5 := Keyword.length_of_word hb
  have hbegun : 0 < m → (withBlock m).Viable opening := fun hm =>
    Phrase.viable_nil_bind (viable_skip_iff.mpr (viable_block hb hm))
      fun _ => viable_skip_iff.mpr (viable_body_nil m)
  apply h.agree
  · rintro t ⟨⟩
    constructor
    · intro hw
      obtain ⟨raw, hw⟩ := skip_iff.mp hw
      exact withBlock_of_body hw [] (Keyword.startsAt_iff.mpr ⟨opening, t, by simp, hb⟩)
    · intro hw
      obtain ⟨u, r, v, raw, hu, hv, he⟩ := withBlock_iff.mp hw
      exact skip_iff.mpr ⟨_, he ▸ Grammar.body_block hu hv⟩
  · rintro w z ⟨⟩ he (hw | hw)
    · obtain ⟨raw, hw⟩ := skip_iff.mp hw
      rw [hlen]
      exact length_of_withBlock
        (withBlock_of_body hw z (Keyword.startsAt_iff.mpr ⟨opening, y, he.symm, hb⟩))
    · rw [hlen]
      exact length_of_withBlock hw
  · exact fun hP => hbegun (hm hP)
  · rintro ⟨t, _, ht⟩
    obtain ⟨_, _, _, _, hu, _⟩ := withBlock_iff.mp ht
    exact hbegun (Grammar.pos_of_block hu)
  · omega
  · exact hsub
  · exact hn

theorem body_cons_iff {w z : List Char} (hB : Keyword.blockBegin.startsAt (c :: (w ++ z)) = false)
    (hE : Keyword.blockEnd.startsAt (c :: (w ++ z)) = false) :
    skip (body m) (c :: w) () ↔ skip (body m) w () := by
  simp only [skip_iff]
  constructor
  · rintro ⟨raw, hw⟩
    rcases body_cases hw z with ⟨hE', _⟩ | ⟨hB', _⟩ | ⟨_, _, c', w', raw', hw', he, _⟩
    · rw [List.cons_append, hE] at hE'
      simp at hE'
    · rw [List.cons_append, hB] at hB'
      simp at hB'
    · simp only [List.cons.injEq] at he
      exact ⟨raw', he.2 ▸ hw'⟩
  · rintro ⟨raw, hw⟩
    exact ⟨_, body_char hB hE hw⟩

theorem viable_body_cons_iff {v x : List Char} (hm : (c :: v).length ≤ m)
    (hv : ∀ w d r, v = w ++ d :: r → ∃ z, x = w ++ z)
    (hB : Keyword.blockBegin.startsAt (c :: x) = false)
    (hE : Keyword.blockEnd.startsAt (c :: x) = false) :
    (body m).Viable (c :: v) ↔ (body m).Viable v := by
  rw [viable_body_iff hm, viable_body_iff (by simp only [List.length_cons] at hm; omega)]
  constructor
  · rintro h w d r raw rfl hw
    obtain ⟨z, rfl⟩ := hv w d r rfl
    exact h (c :: w) d r _ rfl (body_char hB hE hw)
  · intro h w d r raw he hw
    cases w with
    | nil =>
      have hlen := length_of_skip_body (skip_iff.mpr ⟨raw, hw⟩)
      simp at hlen
    | cons c' w =>
      simp only [List.cons_append, List.cons.injEq] at he
      obtain ⟨rfl, rfl⟩ := he
      obtain ⟨z, rfl⟩ := hv w d r rfl
      obtain ⟨raw', hw'⟩ := skip_iff.mp ((body_cons_iff hB hE).mp (skip_iff.mpr ⟨raw, hw⟩))
      exact h w d r raw' rfl hw'

theorem prefix_of_snoc {u w r z : List Char} {d e : Char} (h : u ++ [d] = w ++ e :: r) :
    ∃ q, u = w ++ q ∧ u ++ z = w ++ (q ++ z) := by
  have hw : w <+: u ++ [d] := h ▸ List.prefix_append w (e :: r)
  have hlen := congrArg List.length h
  simp only [List.length_append, List.length_cons, List.length_nil] at hlen
  obtain ⟨q, rfl⟩ := List.prefix_of_prefix_length_le hw (List.prefix_append u [d]) (by omega)
  exact ⟨q, rfl, by simp⟩

theorem viable_body_snoc_iff {u z : List Char} (hm : u.length + 1 < m)
    (hB : Keyword.blockBegin.startsAt (c :: (u ++ z)) = false)
    (hE : Keyword.blockEnd.startsAt (c :: (u ++ z)) = false) (d : Char) :
    (body m).Viable (c :: (u ++ [d])) ↔ (body m).Viable (u ++ [d]) := by
  apply viable_body_cons_iff _ _ hB hE
  · rw [List.length_cons, List.length_append, List.length_singleton]
    omega
  · intro w e r he
    obtain ⟨q, _, hq⟩ := prefix_of_snoc (z := z) he
    exact ⟨_, hq⟩

theorem not_viable_block {w z r : List Char} (hw : skip (body m) w ())
    (hB : Keyword.blockBegin.startsAt (c :: (w ++ z)) = false) :
    ¬ (block m).Viable (c :: w ++ r) := by
  intro hv
  obtain ⟨raw, hw⟩ := skip_iff.mp hw
  obtain ⟨opening, y, he, hb⟩ := Keyword.startsAt_iff.mp (Grammar.startsAt_of_viable_block hw hv)
  have hB' : Keyword.blockBegin.startsAt (c :: (w ++ z)) = true := by
    apply Keyword.startsAt_iff.mpr
    refine ⟨opening, y ++ z, ?_, hb⟩
    rw [← List.append_assoc, ← he]
    rfl
  rw [hB] at hB'
  simp at hB'

theorem viable_body_of_block_snoc {u z : List Char} {d : Char} (hm : u.length < m)
    (hB : Keyword.blockBegin.startsAt (c :: (u ++ z)) = false)
    (hv : (block m).Viable (c :: u ++ [d])) : (body m).Viable (u ++ [d]) := by
  rw [viable_body_iff (by rw [List.length_append, List.length_singleton]; omega)]
  intro w e r raw he hw
  obtain ⟨q, rfl, hq⟩ := prefix_of_snoc (z := z) he
  rw [hq] at hB
  refine not_viable_block (r := e :: r) (skip_iff.mpr ⟨raw, hw⟩) hB ?_
  rw [List.cons_append, he] at hv
  exact hv

theorem length_le_of_viable_block {u u₁ z z₁ : List Char} (hm : u.length < m)
    (hB : Keyword.blockBegin.startsAt (c :: (u ++ z)) = false) (hu₁ : (block m).Viable u₁)
    (he : c :: (u ++ z) = u₁ ++ z₁) (hstuck : ∀ d r, z = d :: r → ¬ (body m).Viable (u ++ [d])) :
    u₁.length ≤ u.length + 1 := by
  have he' : (c :: u) ++ z = u₁ ++ z₁ := he
  rcases split_cases he' with ⟨d, r, rfl, hz⟩ | ⟨rfl, _⟩ | ⟨d, r, hr, _⟩
  · have hd := hstuck d (r ++ z₁) hz
    rw [viable_body_iff (by rw [List.length_append, List.length_singleton]; omega)] at hd
    simp only [Classical.not_forall, Classical.not_not] at hd
    obtain ⟨w, e, r', raw, hw, hbody⟩ := hd
    obtain ⟨q, rfl, hq⟩ := prefix_of_snoc (z := z) hw
    rw [hq] at hB
    have hnone := fun r => not_viable_block (r := r) (skip_iff.mpr ⟨raw, hbody⟩) hB
    cases q with
    | nil => exact absurd (by simpa using hu₁) (hnone (d :: r))
    | cons e q => exact absurd (by simpa using hu₁) (hnone (e :: q ++ d :: r))
  · simp
  · have hlen := congrArg List.length hr
    simp only [List.length_append, List.length_cons] at hlen
    omega

theorem viable_body_of_block {v : List Char} (h : (block m).Viable v)
    (hB : Keyword.blockBegin.startsAt v = false) : (body m).Viable v := by
  obtain ⟨d, t, hb⟩ := Grammar.partial_of_viable_block h hB
  obtain ⟨raw, hr⟩ := Grammar.exists_body_of_partial m hb
  exact ⟨_, raw, hr⟩

theorem viable_body_of_cons {v : List Char} (hB : Keyword.blockBegin.startsAt (c :: v) = false)
    (h : (body m).Viable (c :: v)) :
    (body m).Viable v ∨ (block m).Viable (c :: v) := by
  obtain ⟨t, raw, ht⟩ := h
  rcases body_cases ht [] with ⟨_, hw, _⟩ | ⟨_, u, r, w', _, hu, _, he, _⟩ |
    ⟨_, _, c', w', raw', hw', he, _⟩
  · left
    have hlen := Keyword.length_of_word hw
    rw [List.length_append, List.length_cons, show Keyword.blockEnd.letters.length = 3 from rfl]
      at hlen
    obtain ⟨raw, h⟩ := Grammar.exists_body_of_short m (v := v) (by omega)
    exact ⟨_, raw, h⟩
  · rcases split_cases he with ⟨d, x, rfl, _⟩ | ⟨rfl, _⟩ | ⟨d, x, hx, _⟩
    · exact .inr ⟨_, r, hu⟩
    · exact .inr (Phrase.viable_of_word hu)
    · rw [hx, Grammar.startsAt_of_block hu] at hB
      simp at hB
  · simp only [List.cons_append, List.cons.injEq] at he
    obtain ⟨rfl, rfl⟩ := he
    exact .inl ⟨t, raw', hw'⟩

/-- Where a body stands behind a character, what a block expected at that character lies before the
end of the body: all of it would have to be part of the word BEGIN. -/
theorem Placed.lt_of_body {o₁ : Outcome Unit} {v z : List Char}
    (h : Placed Never (skip (block m)) (c :: (v ++ z)) i o₁) (hv : skip (body m) v ())
    (hB : Keyword.blockBegin.startsAt (c :: (v ++ z)) = false) :
    ∀ n ∈ o₁.notes, n.1 < i + (v.length + 1) := by
  intro n hn
  apply Classical.byContradiction
  intro hge
  obtain ⟨u, r, he, hu⟩ : ∃ u r, c :: v = u ++ r ∧ u.length = min 5 (c :: v).length :=
    ⟨_, _, (List.take_append_drop 5 (c :: v)).symm, List.length_take⟩
  rw [List.length_cons] at hu
  have hne : u ≠ [] := List.ne_nil_of_length_pos (by omega)
  have he' : c :: (v ++ z) = u ++ (r ++ z) := by
    rw [← List.append_assoc, ← he]
    rfl
  have hb : (block m).Viable u :=
    viable_skip_iff.mp (h.begun n hn u _ he' hne (by omega) (by omega))
  obtain ⟨d, t, hword⟩ := Grammar.partial_of_viable_block hb
    (Keyword.not_startsAt_of_append (y := r ++ z) (he' ▸ hB))
  have hfive := Keyword.length_of_word hword
  rw [List.length_append, List.length_cons, show Keyword.blockBegin.letters.length = 5 from rfl]
    at hfive
  have hlen := congrArg List.length he
  rw [List.length_append, List.length_cons] at hlen
  obtain rfl : r = [] := List.eq_nil_of_length_eq_zero (by omega)
  rw [List.append_nil] at he
  exact not_viable_block (r := []) hv hB (by simpa [he] using hb)

theorem found_inside {x : List Char} (h : Reading P Never (skip (block m)) x i o)
    (hB : Keyword.blockBegin.startsAt x = false) : o.found = none := by
  cases hf : o.found with
  | none => rfl
  | some _ =>
    obtain ⟨w, y, rfl, hw, _⟩ := h.sound _ hf
    obtain ⟨r, hw⟩ := skip_iff.mp hw
    rw [Grammar.startsAt_of_block hw] at hB
    simp at hB

section Char

variable {o₁ : Outcome Unit}

theorem body_behind {w z : List Char} (hB : Keyword.blockBegin.startsAt (c :: x) = false)
    (hE : Keyword.blockEnd.startsAt (c :: x) = false) (he : c :: x = w ++ z)
    (hw : skip (body m) w ()) : ∃ v, w = c :: v ∧ x = v ++ z ∧ skip (body m) v () := by
  cases w with
  | nil =>
    have hlen := length_of_skip_body hw
    simp at hlen
  | cons c' w =>
    simp only [List.cons_append, List.cons.injEq] at he
    obtain ⟨rfl, rfl⟩ := he
    exact ⟨w, rfl, rfl, (body_cons_iff hB hE).mp hw⟩

theorem Horizon.body_char {u z u₁ z₁ : List Char} (hu : Horizon (skip (body m)) u z (i + 1) o)
    (hu₁ : Horizon (skip (block m)) u₁ z₁ i o₁) (he₁ : c :: (u ++ z) = u₁ ++ z₁)
    (hB : Keyword.blockBegin.startsAt (c :: (u ++ z)) = false)
    (hE : Keyword.blockEnd.startsAt (c :: (u ++ z)) = false) (hm : u.length + z.length + 1 < m) :
    Horizon (skip (body m)) (c :: u) z i ⟨o.found, o.stop, o₁.notes ++ o.notes⟩ := by
  have hself : (body m).Viable (c :: u) ↔ (body m).Viable u := by
    apply viable_body_cons_iff (by rw [List.length_cons]; omega) _ hB hE
    rintro w d r rfl
    exact ⟨d :: r ++ z, by simp⟩
  have hroom : u.length + 1 < m := by omega
  have hnext := viable_body_snoc_iff hroom hB hE
  -- The notes of the block stay within the horizon of the body, so those of the body decide.
  have hle : u₁.length ≤ u.length + 1 := by
    have hm : u.length < m := by omega
    apply length_le_of_viable_block hm hB (viable_skip_iff.mp hu₁.viable) he₁
    intro d r hz
    rw [← viable_skip_iff]
    exact hu.stuck d r hz
  have hlen : i + (c :: u).length = i + 1 + u.length := by
    rw [List.length_cons]
    omega
  refine ⟨viable_skip_iff.mpr (hself.mpr (viable_skip_iff.mp hu.viable)), ?_, ?_, ?_, ?_⟩
  · intro d r hz
    rw [List.cons_append, viable_skip_iff, hnext d, ← viable_skip_iff]
    exact hu.stuck d r hz
  · intro n hn
    rcases List.mem_append.mp hn with hn | hn
    · have := hu₁.noted_le n hn
      omega
    · have := hu.noted_le n hn
      omega
  · intro d hd
    rw [List.cons_append, viable_skip_iff, hnext d, ← viable_skip_iff, ← hu.noted_iff d hd, hlen]
    constructor
    · -- A note of the block this far on needs all of the text to begin a block, and then a body goes on.
      rintro ⟨n, hn, hi, ha⟩
      rcases List.mem_append.mp hn with hn | hn
      · have hlen₁ : (c :: u).length = u₁.length := by
          have := hu₁.noted_le n hn
          rw [List.length_cons]
          omega
        obtain ⟨rfl, _⟩ := List.append_inj (show c :: u ++ z = u₁ ++ z₁ from he₁) hlen₁
        have hv := (hu₁.noted_iff d hd).mp ⟨n, hn, by omega, ha⟩
        rw [hu.noted_iff d hd, viable_skip_iff]
        exact viable_body_of_block_snoc (by omega) hB (viable_skip_iff.mp hv)
      · exact ⟨n, hn, hi, ha⟩
    · rintro ⟨n, hn, hi, ha⟩
      exact ⟨n, List.mem_append_right _ hn, hi, ha⟩
  · rw [hlen]
    rcases hu.reached with ⟨n, hn, hi⟩ | hr
    · exact .inl ⟨n, List.mem_append_right _ hn, hi⟩
    · exact .inr hr

theorem Placed.body_char (h : Placed Never (skip (body m)) x (i + 1) o)
    (h₁ : Placed Never (skip (block m)) (c :: x) i o₁) (hnone : o₁.found = none)
    (hB : Keyword.blockBegin.startsAt (c :: x) = false)
    (hE : Keyword.blockEnd.startsAt (c :: x) = false) :
    Placed Never (skip (body m)) (c :: x) i ⟨o.found, o.stop, o₁.notes ++ o.notes⟩ := by
  have hlen : i + (c :: x).length = i + 1 + x.length := by
    rw [List.length_cons]
    omega
  refine ⟨?_, ?_, ?_, ?_⟩
  · intro n hn
    rw [hlen]
    rcases List.mem_append.mp hn with hn | hn
    · exact hlen ▸ h₁.within n hn
    · exact h.within n hn
  · intro n hn u z he hu hshort hle
    rw [he] at hB hE
    rcases List.mem_append.mp hn with hn | hn
    · have hv := viable_skip_iff.mp (h₁.begun n hn u z he hu hshort hle)
      exact viable_skip_iff.mpr (viable_body_of_block hv (Keyword.not_startsAt_of_append hB))
    · obtain ⟨d, v, rfl⟩ := List.exists_cons_of_ne_nil hu
      refine viable_skip_iff.mpr (Grammar.viable_body_cons hB hE ?_)
      cases v with
      | nil => exact viable_body_nil m
      | cons e v =>
        simp only [List.cons_append, List.cons.injEq] at he
        rw [List.length_cons] at hshort hle
        exact viable_skip_iff.mp (h.begun n hn (e :: v) z he.2 (by simp) (by omega) (by omega))
  · rintro w z ⟨⟩ he hw hz n hn
    obtain ⟨v, rfl, rfl, hv⟩ := body_behind hB hE he hw
    have hlenv := length_of_skip_body hv
    rw [List.length_cons]
    rcases List.mem_append.mp hn with hn | hn
    · have hlt := h₁.lt_of_body hv hB n hn
      exact ⟨by omega, fun hat => by omega⟩
    · obtain ⟨hle, hgo⟩ := h.inside v z () rfl hv hz n hn
      exact ⟨by omega, fun hat => hgo (by omega)⟩
  · intro hx
    rw [hlen]
    rcases viable_body_of_cons hB (viable_skip_iff.mp hx) with hv | hv
    · rcases h.touches (viable_skip_iff.mpr hv) with ⟨n, hn, hat⟩ | hs
      · exact .inl ⟨n, List.mem_append_right _ hn, hat⟩
      · exact .inr hs
    · obtain ⟨n, hn, hat⟩ := h₁.noted_of_none hnone (viable_skip_iff.mpr hv)
      exact .inl ⟨n, List.mem_append_left _ hn, hlen ▸ hat⟩

theorem Reading.body_char (h : Reading P Never (skip (body m)) x (i + 1) o)
    (h₁ : Reading P Never (skip (block m)) (c :: x) i o₁)
    (hB : Keyword.blockBegin.startsAt (c :: x) = false)
    (hE : Keyword.blockEnd.startsAt (c :: x) = false) (hm : P → x.length + 1 < m) :
    Reading P Never (skip (body m)) (c :: x) i ⟨o.found, o.stop, o₁.notes ++ o.notes⟩ := by
  refine ⟨?_, ?_, fun hP => ⟨?_, ?_⟩, h.placed.body_char h₁.placed (found_inside h₁ hB) hB hE⟩
  · rintro ⟨⟩ hf
    obtain ⟨w, z, rfl, hw, hj⟩ := h.sound () hf
    refine ⟨c :: w, z, rfl, (body_cons_iff hB hE).mpr hw, ?_⟩
    rw [List.length_cons]
    simp only
    omega
  · rintro w z ⟨⟩ he hw _
    obtain ⟨v, rfl, rfl, hv⟩ := body_behind hB hE he hw
    obtain ⟨hf, hj⟩ := h.complete v z () rfl hv (by simp)
    refine ⟨hf, ?_⟩
    rw [List.length_cons]
    simp only
    omega
  · rintro w z ⟨⟩ he hw
    obtain ⟨v, rfl, rfl, hv⟩ := body_behind hB hE he hw
    have hmax := (h.exact hP).maximal v z () rfl hv
    rw [List.length_cons]
    exact ⟨hmax.1, by simp only; omega⟩
  · obtain ⟨u, z, rfl, hu⟩ := (h.exact hP).horizon
    obtain ⟨u₁, z₁, he₁, hu₁⟩ := (h₁.exact hP).horizon
    have hlt := hm hP
    rw [List.length_append] at hlt
    exact ⟨c :: u, z, rfl, hu.body_char hu₁ he₁ hB hE hlt⟩

end Char

theorem Reading.body_nil {o₁ : Outcome Unit} (h : Reading P Never (word .blockEnd) [] i o)
    (h₁ : Reading P Never (skip (block m)) [] i o₁) (hf : o.found = none) (hm : P → 0 < m) :
    Reading P Never (skip (body m)) [] i
      ⟨o.found, o.stop, o₁.notes ++ [(i, .anyChar)] ++ o.notes⟩ := by
  have missing : ∀ w z, [] = w ++ z → ¬ skip (body m) w () := by
    intro w z he hw
    obtain ⟨rfl, _⟩ := List.append_eq_nil_iff.mp he.symm
    have hlen := length_of_skip_body hw
    simp at hlen
  constructor
  · rintro ⟨⟩ ha
    rw [hf] at ha
    simp at ha
  · rintro w z ⟨⟩ he hw
    exact absurd hw (missing w z he)
  · intro hP
    constructor
    · rintro w z ⟨⟩ he hw
      exact absurd hw (missing w z he)
    · have hany : (i, Expectation.anyChar) ∈ o₁.notes ++ [(i, .anyChar)] ++ o.notes := by simp
      refine ⟨[], [], rfl, viable_skip_iff.mpr (viable_body_nil m), by simp, ?_, ?_, ?_⟩
      · intro n hn
        rcases List.mem_append.mp hn with hn | hn
        · rcases List.mem_append.mp hn with hn | hn
          · exact h₁.placed.within n hn
          · rw [List.mem_singleton.mp hn]
            simp
        · exact h.placed.within n hn
      · intro d _
        refine iff_of_true ⟨_, hany, rfl, rfl⟩ ?_
        have hlen : ([] ++ [d] : List Char).length ≤ m := hm hP
        rw [viable_skip_iff, viable_body_iff hlen]
        intro w e r raw he hw
        have hw' := length_of_skip_body (skip_iff.mpr ⟨raw, hw⟩)
        have hd := congrArg List.length he
        simp only [List.length_append, List.length_cons, List.length_nil] at hd
        omega
      · exact .inl ⟨_, hany, rfl⟩
  · have hany : (i, Expectation.anyChar) ∈ o₁.notes ++ [(i, .anyChar)] ++ o.notes := by simp
    refine ⟨?_, ?_, fun w z _ he hw => absurd hw (missing w z he), fun _ => .inl ⟨_, hany, rfl⟩⟩
    · simp only [List.mem_append, List.mem_singleton]
      rintro n ((hn | rfl) | hn)
      · exact h₁.placed.within n hn
      · exact Nat.le_refl _
      · exact h.placed.within n hn
    · intro n hn u z he hu
      exact absurd (List.append_eq_nil_iff.mp he.symm).1 hu

theorem begins_block : ∀ m, (block m).Begins ((CharClass.letter 'B').contains · = true)
  | 0 => fun _ _ h => h.elim
  | m + 1 => by
    rw [Grammar.block_succ]
    exact (Rule.begins_word rfl).bind _

theorem settled_skip_block (m : Nat) : (skip (block m)).Settled Never := by
  constructor
  · rintro c ⟨w, _, hw, t, _, ht⟩
    obtain ⟨r, hw⟩ := skip_iff.mp hw
    obtain ⟨r', ht⟩ := skip_iff.mp ht
    have he : w ++ ([c] ++ t) = w ++ [c] ++ t ++ [] := by simp
    have hlen := congrArg List.length
      (Grammar.prefixFree_block m w _ ([c] ++ t) [] r r' hw ht he)
    simp only [List.length_append, List.length_cons] at hlen
    omega
  · exact fun _ _ _ _ _ => rfl

theorem follows_block (m : Nat) : Follows Never fun _ : Unit => skip (body m) :=
  ⟨by simp, fun _ => viable_skip_iff.mpr (viable_body_nil m), fun _ b _ hb => ⟨b, hb⟩⟩

end Body

end FuncScript

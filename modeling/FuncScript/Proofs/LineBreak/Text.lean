import FuncScript.Proofs.Denotation

/-!
Line feeds turned into carriage returns with line feeds, where no carriage return stands before a
line feed yet: which places of the two texts belong together, and what is kept of a block.
-/

namespace FuncScript.LineBreak

variable {x y u : List Char} {i j k n : Nat} {c : Char}

def crlf (x : List Char) : List Char := x.flatMap fun c => if c = '\n' then ['\r', '\n'] else [c]

/-- The place after the conversion of a place before it. -/
def shift (x : List Char) (i : Nat) : Nat := (crlf (x.take i)).length

def Bare (x : List Char) : Prop := ¬ ['\r', '\n'] <:+: x

theorem Bare.part (h : Bare x) (hy : y <:+: x) : Bare y := fun hp => h (hp.trans hy)

theorem bare_of_not_mem (h : '\r' ∉ x) : Bare x :=
  fun hp => h (hp.subset List.mem_cons_self)

@[simp] theorem crlf_nil : crlf [] = [] := rfl

theorem crlf_cons (c : Char) (x : List Char) :
    crlf (c :: x) = (if c = '\n' then ['\r', '\n'] else [c]) ++ crlf x := by
  simp [crlf]

@[simp] theorem crlf_feed (x : List Char) : crlf ('\n' :: x) = '\r' :: '\n' :: crlf x := rfl

theorem crlf_of_ne (h : c ≠ '\n') (x : List Char) : crlf (c :: x) = c :: crlf x := by
  simp [crlf_cons, h]

@[simp] theorem crlf_append (x y : List Char) : crlf (x ++ y) = crlf x ++ crlf y := by
  simp [crlf]

@[simp] theorem shift_zero (x : List Char) : shift x 0 = 0 := rfl

theorem shift_length (x : List Char) : shift x x.length = (crlf x).length := by
  rw [shift, List.take_length]

theorem crlf_take_drop (x : List Char) (i : Nat) :
    crlf x = crlf (x.take i) ++ crlf (x.drop i) := by
  rw [← crlf_append, List.take_append_drop]

theorem drop_shift (x : List Char) (i : Nat) : (crlf x).drop (shift x i) = crlf (x.drop i) := by
  rw [crlf_take_drop x i, shift, List.drop_left]

theorem shift_add (x : List Char) (i n : Nat) :
    shift x (i + n) = shift x i + (crlf ((x.drop i).take n)).length := by
  rw [shift, List.take_add, crlf_append, List.length_append, shift]

theorem take_shift (x : List Char) (i n : Nat) :
    (crlf (x.drop i)).take (shift x (i + n) - shift x i) = crlf ((x.drop i).take n) := by
  rw [shift_add, Nat.add_sub_cancel_left, crlf_take_drop (x.drop i) n, List.take_left]

theorem length_crlf_pos (h : x ≠ []) : 0 < (crlf x).length := by
  obtain ⟨c, t, rfl⟩ := List.exists_cons_of_ne_nil h
  rw [crlf_cons, List.length_append]
  split <;> simp only [List.length_cons, List.length_nil] <;> omega

theorem shift_lt (h : i < j) (hj : j ≤ x.length) : shift x i < shift x j := by
  obtain ⟨n, rfl⟩ : ∃ n, j = i + (n + 1) := ⟨j - i - 1, by omega⟩
  rw [shift_add]
  have hne : (x.drop i).take (n + 1) ≠ [] := by
    apply List.ne_nil_of_length_pos
    simp only [List.length_take, List.length_drop]
    omega
  have := length_crlf_pos hne
  omega

theorem shift_le (h : i ≤ j) : shift x i ≤ shift x j := by
  obtain ⟨n, rfl⟩ := Nat.exists_eq_add_of_le h
  rw [shift_add]
  exact Nat.le_add_right _ _

theorem shift_inj (hi : i ≤ x.length) (hj : j ≤ x.length) : shift x i = shift x j ↔ i = j := by
  constructor
  · intro h
    rcases Nat.lt_trichotomy i j with hlt | heq | hlt
    · have := shift_lt hlt hj
      omega
    · exact heq
    · have := shift_lt hlt hi
      omega
  · exact fun h => congrArg _ h

theorem shift_succ (h : x[i]? = some c) :
    shift x (i + 1) = shift x i + if c = '\n' then 2 else 1 := by
  have hd : (x.drop i).take 1 = [c] := by
    rw [List.take_one, List.head?_drop, h]
    rfl
  rw [shift_add, hd, crlf_cons]
  split <;> rfl

theorem getElem?_shift (x : List Char) (i : Nat) :
    (crlf x)[shift x i]? = x[i]?.map fun c => if c = '\n' then '\r' else c := by
  rw [← List.head?_drop, drop_shift, ← List.head?_drop]
  cases x.drop i with
  | nil => rfl
  | cons c t =>
    rw [crlf_cons]
    split <;> simp [*]

theorem getElem?_behind_shift (h : x[i]? = some '\n') : (crlf x)[shift x i + 1]? = some '\n' := by
  obtain ⟨t, ht⟩ : ∃ t, x.drop i = '\n' :: t := by
    rw [← List.head?_drop] at h
    exact List.head?_eq_some_iff.mp h
  rw [← List.getElem?_drop, drop_shift, ht]
  rfl

theorem takeWhile_crlf (x : List Char) :
    (crlf x).takeWhile CharClass.whitespace.contains =
      crlf (x.takeWhile CharClass.whitespace.contains) := by
  induction x with
  | nil => rfl
  | cons c x ih =>
    by_cases hc : c = '\n'
    · subst hc
      have hr : CharClass.whitespace.contains '\r' = true := by decide
      have hn : CharClass.whitespace.contains '\n' = true := by decide
      simp [hr, hn, ih]
    · rw [crlf_of_ne hc, List.takeWhile_cons, List.takeWhile_cons]
      split
      · rw [ih, crlf_of_ne hc]
      · rfl

theorem dropLeading_of_other (hc : c ∉ [' ', '\t', '\n'])
    (hr : c = '\r' → x.head? ≠ some '\n') : Body.dropLeading (c :: x) = c :: x := by
  unfold Body.dropLeading
  split <;> simp_all

theorem dropTrailingReversed_of_other (hc : c ∉ [' ', '\t', '\n']) :
    Body.dropTrailingReversed (c :: x) = c :: x := by
  unfold Body.dropTrailingReversed
  split <;> simp_all

theorem dropTrailingReversed_of_feed (h : x.head? ≠ some '\r') :
    Body.dropTrailingReversed ('\n' :: x) = x := by
  unfold Body.dropTrailingReversed
  split <;> simp_all

theorem Bare.head_ne (h : Bare ('\r' :: x)) : x.head? ≠ some '\n' := by
  intro hx
  obtain ⟨t, rfl⟩ := List.head?_eq_some_iff.mp hx
  exact h ⟨[], t, rfl⟩

theorem head?_crlf_ne (x : List Char) : (crlf x).head? ≠ some '\n' := by
  cases x with
  | nil => simp
  | cons c x =>
    rw [crlf_cons]
    split <;> simp [*]

theorem dropLeading_crlf (h : Bare x) : Body.dropLeading (crlf x) = crlf (Body.dropLeading x) := by
  cases x with
  | nil => rfl
  | cons c x =>
    by_cases hn : c = '\n'
    · subst hn
      rfl
    rw [crlf_of_ne hn]
    by_cases hb : c ∈ [' ', '\t', '\n']
    · rcases List.mem_cons.mp hb with rfl | hb
      · rfl
      rcases List.mem_cons.mp hb with rfl | hb
      · rfl
      · exact absurd (List.mem_singleton.mp hb) hn
    · rw [dropLeading_of_other hb fun _ => head?_crlf_ne x,
        dropLeading_of_other hb fun hc => (hc ▸ h).head_ne, crlf_of_ne hn]

theorem dropTrailing_concat (x : List Char) (c : Char) :
    Body.dropTrailing (x ++ [c]) = (Body.dropTrailingReversed (c :: x.reverse)).reverse := by
  simp [Body.dropTrailing]

theorem dropTrailing_crlf (h : Bare x) :
    Body.dropTrailing (crlf x) = crlf (Body.dropTrailing x) := by
  rcases List.eq_nil_or_concat x with rfl | ⟨y, c, rfl⟩
  · rfl
  rw [List.concat_eq_append] at h ⊢
  by_cases hn : c = '\n'
  · subst hn
    have hlast : y.reverse.head? ≠ some '\r' := by
      intro hr
      obtain ⟨t, ht⟩ := List.head?_eq_some_iff.mp hr
      obtain rfl : y = t.reverse ++ ['\r'] := by simpa using congrArg List.reverse ht
      exact h ⟨t.reverse, [], by simp⟩
    have hy : Body.dropTrailing (y ++ ['\n']) = y := by
      rw [dropTrailing_concat, dropTrailingReversed_of_feed hlast, List.reverse_reverse]
    have hy' : Body.dropTrailing (crlf y ++ ['\r', '\n']) = crlf y := by
      simp [Body.dropTrailing, Body.dropTrailingReversed]
    rw [hy, crlf_append]
    exact hy'
  · have hc : crlf [c] = [c] := by rw [crlf_of_ne hn, crlf_nil]
    rw [crlf_append, hc, dropTrailing_concat, dropTrailing_concat]
    by_cases hb : c ∈ [' ', '\t', '\n']
    · rcases List.mem_cons.mp hb with rfl | hb
      · simp [Body.dropTrailingReversed]
      rcases List.mem_cons.mp hb with rfl | hb
      · simp [Body.dropTrailingReversed]
      · exact absurd (List.mem_singleton.mp hb) hn
    · rw [dropTrailingReversed_of_other hb, dropTrailingReversed_of_other hb]
      simp [hc]

theorem joinLinesOnto_crlf : ∀ (x acc : List Char), Bare x →
    Body.joinLinesOnto acc (crlf x) = Body.joinLinesOnto acc x
  | [], _, _ => rfl
  | c :: x, acc, h => by
    have hx : Bare x := h.part (List.suffix_cons c x).isInfix
    by_cases hn : c = '\n'
    · subst hn
      rw [crlf_feed, Body.joinLinesOnto, Body.joinLinesOnto, joinLinesOnto_crlf x acc hx]
    · rw [crlf_of_ne hn, Body.joinLinesOnto_of_ne hn fun _ => head?_crlf_ne x,
        Body.joinLinesOnto_of_ne hn fun hc => (hc ▸ h).head_ne, joinLinesOnto_crlf x _ hx]

theorem dropLeading_suffix (x : List Char) : Body.dropLeading x <:+ x := by
  unfold Body.dropLeading
  split
  · exact List.suffix_cons _ _
  · exact List.suffix_cons _ _
  · exact (List.suffix_cons _ _).trans (List.suffix_cons _ _)
  · exact List.suffix_cons _ _
  · exact List.suffix_refl _

theorem dropTrailingReversed_suffix (x : List Char) : Body.dropTrailingReversed x <:+ x := by
  unfold Body.dropTrailingReversed
  split
  · exact List.suffix_cons _ _
  · exact List.suffix_cons _ _
  · exact (List.suffix_cons _ _).trans (List.suffix_cons _ _)
  · exact List.suffix_cons _ _
  · exact List.suffix_refl _

theorem dropTrailing_initial (x : List Char) : Body.dropTrailing x <+: x := by
  have h := List.reverse_prefix.mpr (dropTrailingReversed_suffix x.reverse)
  rwa [List.reverse_reverse] at h

theorem tidy_crlf (h : Bare x) : Body.tidy (crlf x) = Body.tidy x := by
  have hl : Bare (Body.dropLeading x) := h.part (dropLeading_suffix x).isInfix
  have ht : Bare (Body.dropTrailing (Body.dropLeading x)) :=
    hl.part (dropTrailing_initial _).isInfix
  rw [Body.tidy, dropLeading_crlf h, dropTrailing_crlf hl]
  exact joinLinesOnto_crlf _ [] ht

end FuncScript.LineBreak

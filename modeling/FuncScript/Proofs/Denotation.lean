import FuncScript.Body
import FuncScript.Text.Quoted

/-!
What the parts of a script stand for, said of the result and not of a way to compute it: the units of
a string, the letters and digits of its escapes, and the raw text of a block. Each is then shown to be
what the function for it computes.
-/

namespace FuncScript

namespace Units

inductive Decodes : List UInt16 → List Char → Prop
  | nil : Decodes [] []
  | pair {u v : UInt16} {c : Char} {units : List UInt16} {cs : List Char}
      (hu : isHigh u = true) (hv : isLow v = true)
      (hc : c.toNat = 0x10000 + (u.toNat - 0xD800) * 0x400 + (v.toNat - 0xDC00))
      (h : Decodes units cs) : Decodes (u :: v :: units) (c :: cs)
  | lost {u : UInt16} {units : List UInt16} {cs : List Char}
      (hu : isHigh u = true ∨ isLow u = true)
      (hv : isHigh u = true → ∀ v ∈ units.head?, isLow v = false)
      (h : Decodes units cs) : Decodes (u :: units) ('\uFFFD' :: cs)
  | own {u : UInt16} {c : Char} {units : List UInt16} {cs : List Char} (hc : c.toNat = u.toNat)
      (h : Decodes units cs) : Decodes (u :: units) (c :: cs)

variable {u v : UInt16} {c : Char} {units : List UInt16} {cs : List Char}

theorem toNat_bounds (c : Char) : c.toNat < 0xD800 ∨ (0xDFFF < c.toNat ∧ c.toNat < 0x110000) :=
  c.valid

theorem decode_cons (h : isHigh u = true → ∀ v ∈ units.head?, isLow v = false) :
    decode (u :: units) = lone u :: decode units := by
  cases units with
  | nil => rfl
  | cons v units =>
    apply decode_lone
    cases hu : isHigh u with
    | false => rfl
    | true => exact h hu v rfl

theorem not_surrogate (hc : c.toNat = u.toNat) : isHigh u = false ∧ isLow u = false := by
  have hbounds := toNat_bounds c
  simp only [isHigh, isLow, Bool.and_eq_false_iff, decide_eq_false_iff_not]
  omega

theorem decode_of_decodes (h : Decodes units cs) : decode units = cs := by
  induction h with
  | nil => rfl
  | pair hu hv hc _ ih =>
    rw [decode_pair _ (by rw [hu, hv]; rfl), ih, Units.pair, ← hc, Char.ofNat_toNat]
  | lost hu hv _ ih =>
    rw [decode_cons hv, ih, lone, if_pos (by simpa using hu), replacement]
  | own hc _ ih =>
    obtain ⟨hhigh, hlow⟩ := not_surrogate hc
    rw [decode_cons (by simp [hhigh]), ih, lone, hhigh, hlow, ← hc]
    exact congrArg (· :: _) (Char.ofNat_toNat _)

theorem toNat_ofNat_of_valid {n : Nat} (h : n.isValidChar) : (Char.ofNat n).toNat = n := by
  rw [Char.ofNat, dif_pos h]
  rfl

theorem toNat_pair (hu : isHigh u = true) (hv : isLow v = true) : (pair u v).toNat =
    0x10000 + (u.toNat - 0xD800) * 0x400 + (v.toNat - 0xDC00) := by
  simp only [isHigh, isLow, Bool.and_eq_true, decide_eq_true_eq] at hu hv
  apply toNat_ofNat_of_valid
  unfold Nat.isValidChar
  omega

theorem toNat_lone (hu : isHigh u = false) (hv : isLow u = false) : (lone u).toNat = u.toNat := by
  have hlt : u.toNat < 65536 := u.toNat_lt_size
  rw [lone, hu, hv, if_neg (by simp)]
  apply toNat_ofNat_of_valid
  simp only [isHigh, isLow, Bool.and_eq_false_iff, decide_eq_false_iff_not] at hu hv
  unfold Nat.isValidChar
  omega

theorem decodes_decode : ∀ units, Decodes units (decode units)
  | [] => .nil
  | u :: units => by
    -- A pair takes two units at once, so the recursion goes on behind both of them.
    by_cases hpair : ∃ v rest, units = v :: rest ∧ isHigh u = true ∧ isLow v = true
    · obtain ⟨v, rest, rfl, hu, hv⟩ := hpair
      rw [decode_pair _ (by rw [hu, hv]; rfl)]
      exact .pair hu hv (toNat_pair hu hv) (decodes_decode rest)
    · have hlone : isHigh u = true → ∀ v ∈ units.head?, isLow v = false := by
        intro hu v hv
        obtain ⟨rest, rfl⟩ := List.head?_eq_some_iff.mp hv
        exact Bool.eq_false_iff.mpr fun hlow => hpair ⟨v, rest, rfl, hu, hlow⟩
      have ih := decodes_decode units
      rw [decode_cons hlone]
      by_cases hs : isHigh u = true ∨ isLow u = true
      · rw [lone, if_pos (by simpa using hs)]
        exact .lost hs hlone ih
      · simp only [not_or, Bool.not_eq_true] at hs
        exact .own (toNat_lone hs.1 hs.2) ih

theorem decodes_iff : Decodes units cs ↔ cs = decode units := by
  constructor
  · exact fun h => (decode_of_decodes h).symm
  · rintro rfl
    exact decodes_decode units

end Units

def ClassPart.last : ClassPart → Char
  | .single c => c
  | .range _ hi => hi

theorem CharClass.lt_of_contains {k : CharClass} {c : Char} {n : Nat} (hk : k.inverted = false)
    (hn : ∀ p ∈ k.parts, p.last.toNat < n) (h : k.contains c = true) : c.toNat < n := by
  rw [contains, hk, Bool.bne_false, List.any_eq_true] at h
  obtain ⟨p, hp, hc⟩ := h
  refine Nat.lt_of_le_of_lt ?_ (hn p hp)
  cases p with
  | single x =>
    have he : c = x := beq_iff_eq.mp hc
    exact Nat.le_of_eq (congrArg Char.toNat he)
  | range lo hi =>
    obtain ⟨-, hle⟩ := Bool.and_eq_true_iff.mp hc
    exact Char.le_def.mp (of_decide_eq_true hle)

namespace Quoted

def letters : List (Char × Char) :=
  [('"', '"'), ('\\', '\\'), ('/', '/'), ('b', '\x08'), ('f', '\x0c'), ('n', '\n'), ('r', '\r'),
    ('t', '\t')]

theorem mem_letters_iff {c d : Char} :
    (c, d) ∈ letters ↔ CharClass.simpleEscape.contains c = true ∧ unescape c = d := by
  constructor
  · intro h
    have hall : letters.all (fun p =>
        CharClass.simpleEscape.contains p.1 && unescape p.1 == p.2) = true := by decide
    simpa using List.all_eq_true.mp hall _ h
  · rintro ⟨hc, rfl⟩
    simp only [CharClass.contains, CharClass.simpleEscape, ClassPart.contains, List.any_cons,
      List.any_nil, Bool.or_false, Bool.bne_false, Bool.or_eq_true, beq_iff_eq] at hc
    rcases hc with rfl | rfl | rfl | rfl | rfl | rfl | rfl | rfl <;> decide

def hexDigits : List (List Char) := ["0123456789abcdef".toList, "0123456789ABCDEF".toList]

theorem exists_hexDigits_iff {c : Char} {n : Nat} : (∃ digits ∈ hexDigits, digits[n]? = some c) ↔
    CharClass.hexDigit.contains c = true ∧ Hex.value c = n := by
  constructor
  · rintro ⟨digits, hd, hc⟩
    have hall : (hexDigits.all fun ds => (List.range 16).all fun k => ds[k]?.all fun d =>
        CharClass.hexDigit.contains d && Hex.value d == k) = true := by decide
    have hlen : ∀ ds ∈ hexDigits, ds.length = 16 := by decide
    obtain ⟨hn, _⟩ := List.getElem?_eq_some_iff.mp hc
    have hrange : n ∈ List.range 16 := List.mem_range.mpr (hlen digits hd ▸ hn)
    have hdigit := List.all_eq_true.mp (List.all_eq_true.mp hall digits hd) n hrange
    rw [hc, Option.all_some, Bool.and_eq_true, beq_iff_eq] at hdigit
    exact hdigit
  · rintro ⟨hc, rfl⟩
    have hall : ∀ k : Fin 103, CharClass.hexDigit.contains (Char.ofNat k) = true →
        ∃ ds ∈ hexDigits, ds[Hex.value (Char.ofNat k)]? = some (Char.ofNat k) := by decide
    have hlt : c.toNat < 103 := CharClass.lt_of_contains rfl (by decide) hc
    have hfound := hall ⟨c.toNat, hlt⟩
    simp only [Char.ofNat_toNat] at hfound
    exact hfound hc

end Quoted

namespace Body

def separators : List (List Char) := [[], [' '], ['\t'], ['\n'], ['\r', '\n']]

/-- The longest separator at an end of a text. -/
structure Edge (At : List Char → Prop) (separator : List Char) : Prop where
  mem : separator ∈ separators
  here : At separator
  longest : ∀ other ∈ separators, At other → other.length ≤ separator.length

inductive Joins : List Char → List Char → Prop
  | nil : Joins [] []
  | feed {text line : List Char} (h : Joins text line) : Joins ('\n' :: text) line
  | crlf {text line : List Char} (h : Joins text line) : Joins ('\r' :: '\n' :: text) line
  | char {c : Char} {text line : List Char} (hc : c ≠ '\n')
      (hr : c = '\r' → text.head? ≠ some '\n') (h : Joins text line) : Joins (c :: text) (c :: line)

/-- One separator is taken off in front, one at the end of what is left, and then all line breaks. -/
def Tidies (raw body : List Char) : Prop :=
  ∃ front inner back, raw = front ++ (inner ++ back) ∧ Edge (· <+: raw) front ∧
    Edge (· <:+ inner ++ back) back ∧ Joins inner body

variable {raw text line body : List Char}

theorem edge_dropLeading (text : List Char) :
    ∃ front, Edge (· <+: text) front ∧ text = front ++ dropLeading text := by
  unfold dropLeading
  split
  · exact ⟨[' '], ⟨by decide, by simp, by simp [separators]⟩, rfl⟩
  · exact ⟨['\t'], ⟨by decide, by simp, by simp [separators]⟩, rfl⟩
  · exact ⟨['\r', '\n'], ⟨by decide, by simp, by simp [separators]⟩, rfl⟩
  · exact ⟨['\n'], ⟨by decide, by simp, by simp [separators]⟩, rfl⟩
  · next h₁ h₂ h₃ h₄ =>
    refine ⟨[], ⟨by decide, List.nil_prefix, ?_⟩, rfl⟩
    rintro other ho ⟨t, rfl⟩
    simp only [separators, List.mem_cons, List.not_mem_nil, or_false] at ho
    rcases ho with rfl | rfl | rfl | rfl | rfl
    · exact Nat.le_refl _
    · exact (h₁ t rfl).elim
    · exact (h₂ t rfl).elim
    · exact (h₄ t rfl).elim
    · exact (h₃ t rfl).elim

theorem edge_dropTrailingReversed (text : List Char) : ∃ back ∈ separators,
    text = back.reverse ++ dropTrailingReversed text ∧
      ∀ other ∈ separators, other.reverse <+: text → other.length ≤ back.length := by
  unfold dropTrailingReversed
  split
  · exact ⟨[' '], by decide, rfl, by simp [separators]⟩
  · exact ⟨['\t'], by decide, rfl, by simp [separators]⟩
  · exact ⟨['\r', '\n'], by decide, rfl, by simp [separators]⟩
  · next h =>
    refine ⟨['\n'], by decide, rfl, ?_⟩
    rintro other ho ⟨t, ht⟩
    simp only [separators, List.mem_cons, List.not_mem_nil, or_false] at ho
    rcases ho with rfl | rfl | rfl | rfl | rfl
    all_goals simp at ht ⊢
    exact (h t ht.symm).elim
  · next h₁ h₂ h₃ h₄ =>
    refine ⟨[], by decide, rfl, ?_⟩
    rintro other ho ⟨t, rfl⟩
    simp only [separators, List.mem_cons, List.not_mem_nil, or_false] at ho
    rcases ho with rfl | rfl | rfl | rfl | rfl
    · exact Nat.le_refl _
    · exact (h₁ t rfl).elim
    · exact (h₂ t rfl).elim
    · exact (h₄ t rfl).elim
    · exact (h₃ t rfl).elim

theorem edge_dropTrailing (text : List Char) :
    ∃ back, Edge (· <:+ text) back ∧ text = dropTrailing text ++ back := by
  obtain ⟨back, hmem, he, hlongest⟩ := edge_dropTrailingReversed text.reverse
  have htext : text = dropTrailing text ++ back := by
    simpa [dropTrailing] using congrArg List.reverse he
  refine ⟨back, ⟨hmem, ⟨_, htext.symm⟩, fun other ho hs => ?_⟩, htext⟩
  exact hlongest other ho (List.reverse_prefix.mpr hs)

theorem Edge.unique {At : List Char → Prop} {s s' : List Char} (h : Edge At s) (h' : Edge At s') :
    s.length = s'.length :=
  Nat.le_antisymm (h'.longest s h.mem h.here) (h.longest s' h'.mem h'.here)

theorem joinLinesOnto_of_ne {c : Char} (hn : c ≠ '\n') (hr : c = '\r' → text.head? ≠ some '\n')
    (acc : List Char) : joinLinesOnto acc (c :: text) = joinLinesOnto (c :: acc) text := by
  rw [joinLinesOnto.eq_def]
  split <;> simp_all

theorem joinLinesOnto_of_joins (h : Joins text line) (acc : List Char) :
    joinLinesOnto acc text = acc.reverse ++ line := by
  induction h generalizing acc with
  | nil => exact (List.append_nil _).symm
  | feed _ ih => exact ih acc
  | crlf _ ih => exact ih acc
  | char hc hr _ ih => rw [joinLinesOnto_of_ne hc hr, ih, List.reverse_cons, List.append_assoc,
      List.singleton_append]

theorem exists_joins (acc text : List Char) :
    ∃ line, Joins text line := by
  induction acc, text using joinLinesOnto.induct with
  | case1 acc => exact ⟨[], .nil⟩
  | case2 acc rest ih => exact ih.imp fun _ => .crlf
  | case3 acc rest ih => exact ih.imp fun _ => .feed
  | case4 acc c rest h₁ h₂ ih =>
    obtain ⟨line, h⟩ := ih
    refine ⟨c :: line, .char h₂ ?_ h⟩
    rintro rfl hhead
    obtain ⟨t, rfl⟩ := List.head?_eq_some_iff.mp hhead
    exact h₁ t rfl rfl

theorem joins_iff : Joins text line ↔ line = joinLines text := by
  have of_joins : ∀ {line}, Joins text line → line = joinLines text := fun h =>
    (joinLinesOnto_of_joins h []).symm
  constructor
  · exact of_joins
  · rintro rfl
    obtain ⟨line, h⟩ := exists_joins [] text
    exact of_joins h ▸ h

theorem tidies_iff : Tidies raw body ↔ body = tidy raw := by
  constructor
  · rintro ⟨front, inner, back, hraw, hfront, hback, hjoins⟩
    obtain ⟨front', hfront', hf⟩ := edge_dropLeading raw
    obtain ⟨back', hback', hb⟩ := edge_dropTrailing (inner ++ back)
    have hinner : dropLeading raw = inner ++ back :=
      (List.append_inj (hf.symm.trans hraw) (hfront'.unique hfront)).2
    have htrailing : dropTrailing (inner ++ back) = inner :=
      (List.append_inj' hb (hback.unique hback')).1.symm
    rw [tidy, hinner, htrailing]
    exact joins_iff.mp hjoins
  · rintro rfl
    obtain ⟨front, hfront, hf⟩ := edge_dropLeading raw
    obtain ⟨back, hback, hb⟩ := edge_dropTrailing (dropLeading raw)
    refine ⟨front, _, back, ?_, hfront, ?_, joins_iff.mpr rfl⟩
    · rw [← hb, ← hf]
    · rwa [← hb]

end Body

end FuncScript

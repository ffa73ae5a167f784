import FuncScript.Expectation

/-!
Descriptions read back. A character as it is written can be told from the text behind it, and so
can the text of a literal, a class, and every expectation that is not in words of its own.
-/

namespace FuncScript

namespace Describe

def escaped (marks : List Char) (c : Char) : List Char :=
  if c ∈ marks then ['\\', c] else (control? c).getD [c]

def literalMarks : List Char := ['\\', '"']

def classMarks : List Char := ['\\', ']', '^', '-']

theorem inLiteral_eq (c : Char) : inLiteral c = escaped literalMarks c := by
  unfold inLiteral escaped literalMarks
  by_cases h : c = '\\'
  · simp [h]
  · by_cases h' : c = '"'
    · simp [h']
    · simp [h, h']

theorem inClass_eq (c : Char) : inClass c = escaped classMarks c := by
  unfold inClass escaped classMarks
  grind

def named (c : Char) : Char :=
  if c = '0' then '\x00' else if c = 't' then '\t' else if c = 'n' then '\n'
  else if c = 'r' then '\r' else c

def unescape : List Char → Option (Char × List Char)
  | '\\' :: 'x' :: hi :: lo :: rest => some (Char.ofNat (16 * Hex.value hi + Hex.value lo), rest)
  | '\\' :: c :: rest => some (named c, rest)
  | c :: rest => some (c, rest)
  | [] => none

theorem unescape_named {c : Char} (h : c ≠ 'x') (rest : List Char) :
    unescape ('\\' :: c :: rest) = some (named c, rest) := by
  unfold unescape
  split <;> grind

theorem unescape_plain {c : Char} (h : c ≠ '\\') (rest : List Char) :
    unescape (c :: rest) = some (c, rest) := by
  unfold unescape
  split <;> simp_all

theorem unescape_hex {c : Char} (h : c.toNat < 256) (rest : List Char) :
    unescape ('\\' :: 'x' :: Hex.upper (c.toNat / 16) :: Hex.upper (c.toNat % 16) :: rest) =
      some (c, rest) := by
  have hdigits : 16 * (c.toNat / 16) + c.toNat % 16 = c.toNat := Nat.div_add_mod c.toNat 16
  rw [unescape, Hex.value_upper (by omega), Hex.value_upper (by omega), hdigits,
    Char.ofNat_toNat]

theorem unescape_control (c : Char) (hc : c ≠ '\\') (rest : List Char) :
    unescape ((control? c).getD [c] ++ rest) = some (c, rest) := by
  unfold control?
  split
  · next h => exact h ▸ unescape_named (by decide) rest
  split
  · next h => exact h ▸ unescape_named (by decide) rest
  split
  · next h => exact h ▸ unescape_named (by decide) rest
  split
  · next h => exact h ▸ unescape_named (by decide) rest
  split
  · exact unescape_hex (by omega) rest
  · exact unescape_plain hc rest

/-- Marks that a backslash is one of, and no letter of an escape. -/
structure Sound (marks : List Char) : Prop where
  backslash : '\\' ∈ marks
  hex : 'x' ∉ marks
  named : ∀ c ∈ marks, named c = c

theorem sound_literalMarks : Sound literalMarks where
  backslash := by decide
  hex := by decide
  named := by simp [literalMarks, Describe.named]

theorem sound_classMarks : Sound classMarks where
  backslash := by decide
  hex := by decide
  named := by simp [classMarks, Describe.named]

variable {marks : List Char} {a b c : Char} {u v : List Char}

theorem unescape_escaped (h : Sound marks) (c : Char) (rest : List Char) :
    unescape (escaped marks c ++ rest) = some (c, rest) := by
  unfold escaped
  split
  · next hc =>
    have hx : c ≠ 'x' := fun hx => h.hex (hx ▸ hc)
    have hn := unescape_named hx rest
    rw [h.named c hc] at hn
    exact hn
  · next hc => exact unescape_control c (fun hb => hc (hb ▸ h.backslash)) rest

theorem escaped_append_inj (h : Sound marks) (heq : escaped marks a ++ u = escaped marks b ++ v) :
    a = b ∧ u = v := by
  have hu := unescape_escaped h a u
  rw [heq, unescape_escaped h b v] at hu
  obtain ⟨rfl, rfl⟩ := Prod.mk.inj (Option.some.inj hu)
  exact ⟨rfl, rfl⟩

theorem escaped_append_ne (h : Sound marks) (hc : c ∈ marks) (hne : c ≠ '\\') (a : Char)
    (u v : List Char) : escaped marks a ++ u ≠ c :: v := by
  intro heq
  have hu := unescape_escaped h a u
  rw [heq, unescape_plain hne] at hu
  obtain ⟨rfl, rfl⟩ := Prod.mk.inj (Option.some.inj hu)
  rw [escaped, if_pos hc] at heq
  exact hne (List.cons.inj heq).1.symm

theorem flatMap_append_inj {α : Type} {code : α → List Char} {stop : Char}
    (behind : List Char → Prop) (hstop : ∀ a u v, code a ++ u ≠ stop :: v)
    (hcode : ∀ a b u v, behind u → behind v → code a ++ u = code b ++ v → a = b ∧ u = v)
    (hbehind : ∀ as u, behind (List.flatMap code as ++ stop :: u)) :
    ∀ {as bs : List α} {u v : List Char},
      as.flatMap code ++ stop :: u = bs.flatMap code ++ stop :: v → as = bs ∧ u = v
  | [], [], _, _, heq => ⟨rfl, (List.cons.inj heq).2⟩
  | [], b :: bs, u, v, heq => by
    rw [List.flatMap_cons, List.append_assoc] at heq
    exact absurd heq.symm (hstop b _ _)
  | a :: as, [], u, v, heq => by
    rw [List.flatMap_cons, List.append_assoc] at heq
    exact absurd heq (hstop a _ _)
  | a :: as, b :: bs, u, v, heq => by
    rw [List.flatMap_cons, List.append_assoc, List.flatMap_cons, List.append_assoc] at heq
    obtain ⟨hab, hrest⟩ := hcode a b _ _ (hbehind as u) (hbehind bs v) heq
    obtain ⟨htail, huv⟩ := flatMap_append_inj behind hstop hcode hbehind hrest
    exact ⟨by rw [hab, htail], huv⟩

theorem quoted_append_inj {s t : List Char} (heq : quoted s ++ u = quoted t ++ v) :
    s = t ∧ u = v := by
  simp only [quoted, List.cons_append, List.append_assoc, List.nil_append, List.cons.injEq,
    true_and] at heq
  refine flatMap_append_inj (fun _ => True) ?_ ?_ (fun _ _ => trivial) heq
  · intro a
    rw [inLiteral_eq]
    exact escaped_append_ne sound_literalMarks (by decide) (by decide) a
  · intro a b u v _ _ heq
    rw [inLiteral_eq, inLiteral_eq] at heq
    exact escaped_append_inj sound_literalMarks heq

theorem inClass_append_inj (heq : inClass a ++ u = inClass b ++ v) : a = b ∧ u = v := by
  rw [inClass_eq, inClass_eq] at heq
  exact escaped_append_inj sound_classMarks heq

theorem part_append_ne (hc : c ∈ classMarks) (hne : c ≠ '\\') (p : ClassPart) (u v : List Char) :
    part p ++ u ≠ c :: v := by
  cases p with
  | single a =>
    rw [part, inClass_eq]
    exact escaped_append_ne sound_classMarks hc hne a u v
  | range lo hi =>
    rw [part, inClass_eq, List.append_assoc]
    exact escaped_append_ne sound_classMarks hc hne lo _ v

theorem part_append_inj {p q : ClassPart} (hu : ∀ w, u ≠ '-' :: w) (hv : ∀ w, v ≠ '-' :: w)
    (heq : part p ++ u = part q ++ v) : p = q ∧ u = v := by
  cases p with
  | single a =>
    cases q with
    | single b =>
      obtain ⟨rfl, huv⟩ := inClass_append_inj heq
      exact ⟨rfl, huv⟩
    | range lo hi =>
      rw [part, part, List.append_assoc] at heq
      exact absurd (inClass_append_inj heq).2 (hu _)
  | range lo hi =>
    cases q with
    | single b =>
      rw [part, part, List.append_assoc] at heq
      exact absurd (inClass_append_inj heq).2.symm (hv _)
    | range lo' hi' =>
      rw [part, part, List.append_assoc, List.append_assoc] at heq
      obtain ⟨rfl, hrest⟩ := inClass_append_inj heq
      obtain ⟨rfl, huv⟩ := inClass_append_inj (List.cons.inj hrest).2
      exact ⟨rfl, huv⟩

theorem parts_append_ne (hc : c ∈ classMarks) (hne : c ≠ '\\') (hstop : c ≠ ']')
    (ps : List ClassPart) (u v : List Char) : ps.flatMap part ++ ']' :: u ≠ c :: v := by
  cases ps with
  | nil => exact fun heq => hstop (List.cons.inj heq).1.symm
  | cons p ps =>
    rw [List.flatMap_cons, List.append_assoc]
    exact part_append_ne hc hne p _ v

theorem parts_append_inj {ps qs : List ClassPart}
    (heq : ps.flatMap part ++ ']' :: u = qs.flatMap part ++ ']' :: v) : ps = qs ∧ u = v := by
  refine flatMap_append_inj (fun u => ∀ w, u ≠ '-' :: w) ?_ ?_ ?_ heq
  · exact part_append_ne (by decide) (by decide)
  · intro p q u v
    exact part_append_inj
  · exact parts_append_ne (by decide) (by decide) (by decide)

theorem bracketed_append_inj {k l : CharClass} (heq : bracketed k ++ u = bracketed l ++ v) :
    k = l ∧ u = v := by
  have hparts := parts_append_ne (c := '^') (by decide) (by decide) (by decide)
  obtain ⟨ps, inverted⟩ := k
  obtain ⟨qs, inverted'⟩ := l
  simp only [bracketed, List.cons_append, List.append_assoc, List.nil_append, List.cons.injEq,
    true_and] at heq
  cases inverted with
  | false =>
    cases inverted' with
    | false =>
      obtain ⟨rfl, huv⟩ := parts_append_inj heq
      exact ⟨rfl, huv⟩
    | true => exact absurd heq (hparts ps u _)
  | true =>
    cases inverted' with
    | false => exact absurd heq.symm (hparts qs v _)
    | true =>
      obtain ⟨rfl, huv⟩ := parts_append_inj (List.cons.inj heq).2
      exact ⟨rfl, huv⟩

end Describe

/-- An expectation of the input itself, which is not put in words of its own. -/
def Expectation.Formal (e : Expectation) : Prop := ∀ d, e ≠ .other d

def Expectation.initial : Expectation → Option Char
  | .literal _ => some '"'
  | .oneOf _ => some '['
  | .anyChar => some 'a'
  | .endOfInput => some 'e'
  | .other _ => none

variable {e f : Expectation} {u v : List Char}

theorem Expectation.Formal.head_describe (h : e.Formal) (u : List Char) :
    (e.describe.toList ++ u).head? = e.initial := by
  cases e with
  | literal text => simp [describe, Describe.quoted, initial]
  | oneOf cls => simp [describe, Describe.bracketed, initial]
  | anyChar => rfl
  | endOfInput => rfl
  | other d => exact absurd rfl (h d)

theorem Expectation.Formal.describe_append_inj (he : e.Formal) (hf : f.Formal)
    (heq : e.describe.toList ++ u = f.describe.toList ++ v) : e = f ∧ u = v := by
  have hinitial : e.initial = f.initial := by
    rw [← he.head_describe u, heq, hf.head_describe v]
  cases e with
  | literal s =>
    cases f with
    | literal t =>
      rw [describe, describe, String.toList_ofList, String.toList_ofList] at heq
      obtain ⟨hst, huv⟩ := Describe.quoted_append_inj heq
      exact ⟨congrArg literal (String.toList_inj.mp hst), huv⟩
    | _ => simp [initial] at hinitial
  | oneOf k =>
    cases f with
    | oneOf l =>
      rw [describe, describe, String.toList_ofList, String.toList_ofList] at heq
      obtain ⟨rfl, huv⟩ := Describe.bracketed_append_inj heq
      exact ⟨rfl, huv⟩
    | _ => simp [initial] at hinitial
  | anyChar =>
    cases f with
    | anyChar => exact ⟨rfl, List.append_cancel_left heq⟩
    | _ => simp [initial] at hinitial
  | endOfInput =>
    cases f with
    | endOfInput => exact ⟨rfl, List.append_cancel_left heq⟩
    | _ => simp [initial] at hinitial
  | other d => exact absurd rfl (he d)

end FuncScript

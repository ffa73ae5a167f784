import FuncScript.Proofs.Levels
import FuncScript.Proofs.Reading.Script

/-!
Where the levels of a script come to their end: the beginnings of scripts behind which a container
or a block can still be opened, but only one that is nested a level too deep. Behind each of them
the text goes on to a script of one level more.
-/

namespace FuncScript

open Phrase

variable {α β : Type} {n m : Nat} {c : Char} {u v w y z p : List Char}

namespace Phrase

variable {L : Phrase α} {f : α → Phrase β} {a : α}

theorem viable_bind (hu : L u a) (hv : (f a).Viable v) : (L >>= f).Viable (u ++ v) := by
  obtain ⟨t, b, ht⟩ := hv
  refine ⟨t, b, ?_⟩
  rw [List.append_assoc]
  exact bind_mk hu ht

theorem viable_star_append {as : List α} (hs : L.star w as) (h : L.Viable v) :
    L.star.Viable (w ++ v) := by
  obtain ⟨t, a, ht⟩ := h
  refine ⟨t, as ++ [a], ?_⟩
  rw [List.append_assoc]
  exact star_append hs (star_one_word ht)

theorem viable_separated {separator : Phrase Unit} {as : List α} (h : L u a)
    (hs : (separator >>= fun _ => L).star w as) (hw : separator y ()) (hv : L.Viable v) :
    (separated separator L).Viable (u ++ (w ++ (y ++ v))) := by
  obtain ⟨t, bs, ht⟩ := viable_star_append hs (viable_bind hw hv)
  refine ⟨t, a :: bs, .inr ?_⟩
  rw [List.append_assoc]
  exact bind_mk h (bind_pure_iff.mpr ⟨bs, ht, rfl⟩)

end Phrase

namespace Grammar

def enclosedBrink (opening : Char) (item : Phrase α) (brink : Phrase Unit) : Phrase Unit := do
  let _ ← symbol opening
  blanks
  either brink do
    let _ ← item
    let _ ← star do comma; item
    comma
    brink

def pairBrink (brink : Phrase Unit) : Phrase Unit := do
  let _ ← name
  blanks
  let _ ← symbol '='
  blanks
  brink

def valueBrink : Nat → Phrase Unit
  | 0 => pure ()
  | n + 1 => either (enclosedBrink '(' (pair (value n)) (pairBrink (valueBrink n)))
      (enclosedBrink '[' (value n) (valueBrink n))

def configurationBrink : Nat → Phrase Unit
  | 0 => pure ()
  | n + 1 => enclosedBrink '(' (pair (value n)) (pairBrink (valueBrink n))

theorem viable_enclosedBrink {opening closing : Char} {item item' : Phrase α} {brink : Phrase Unit}
    (hitem : ∀ w a, item w a → item' w a) (hbrink : ∀ v, brink v () → item'.Viable (v ++ z))
    (h : enclosedBrink opening item brink u ()) :
    (enclosed opening closing item').Viable (u ++ z) := by
  obtain ⟨_, rfl, b, x, _, rfl, hb, hx⟩ := symbol_bind_iff.mp h
  have hitems : (separated comma item').Viable (x ++ z) := by
    rcases hx with hx | ⟨w, _, a, rfl, hw, more, _, as, rfl, hmore, y, v, _, rfl, hy, hv⟩
    · obtain ⟨t, a, ht⟩ := hbrink x hx
      refine ⟨t, [a], .inr ?_⟩
      rw [← List.append_nil (x ++ z ++ t)]
      exact bind_mk ht (bind_pure_iff.mpr ⟨[], .nil, rfl⟩)
    · have hmore' := star_mono (fun _ _ => bind_mono (fun _ _ h => h) fun _ => hitem) hmore
      simpa using viable_separated (hitem w a hw) hmore' hy (hbrink v hv)
  have hrest (as : List α) : (blanks >>= fun _ => symbol closing >>= fun _ =>
      (pure as : Phrase (List α))).Viable [] :=
    viable_nil_bind viable_nil_blanks fun _ => viable_map_iff.mpr (viable_nil_symbol closing)
  rw [List.cons_append, List.append_assoc]
  exact viable_bind (u := [opening]) (a := opening) ⟨rfl, beq_self_eq_true opening⟩
    (viable_bind hb (viable_nil_bind hitems hrest))

theorem viable_pairBrink {value : Phrase α} {brink : Phrase Unit}
    (hbrink : ∀ v, brink v () → value.Viable (v ++ z)) (h : pairBrink brink u ()) :
    (pair value).Viable (u ++ z) := by
  obtain ⟨w, _, key, rfl, hw, b, _, _, rfl, hb, hequals⟩ := h
  obtain ⟨_, rfl, b', v, _, rfl, hb', hv⟩ := symbol_bind_iff.mp hequals
  have hvalue : (value >>= fun a => (pure (key, a) : Phrase (String × α))).Viable (v ++ z) :=
    viable_map_iff.mpr (hbrink v hv)
  have hassigned : (symbol '=' >>= fun _ => blanks >>= fun _ => value >>= fun a =>
      (pure (key, a) : Phrase (String × α))).Viable (['='] ++ (b' ++ (v ++ z))) :=
    viable_bind (a := '=') ⟨rfl, beq_self_eq_true '='⟩ (viable_bind hb' hvalue)
  have hpair : (pair value).Viable (w ++ (b ++ (['='] ++ (b' ++ (v ++ z))))) :=
    viable_bind hw (viable_bind hb hassigned)
  simpa using hpair

theorem viable_object_open (value : Phrase α) : (object value).Viable ['('] := by
  rw [object_eq, viable_map_iff, enclosed_eq]
  exact viable_bind (u := ['(']) (a := '(') ⟨rfl, beq_self_eq_true '('⟩
    (viable_nil_bind viable_nil_blanks fun _ => viable_or_closed ')' _)

theorem viable_object {value value' : Phrase α} {brink : Phrase Unit}
    (hvalue : ∀ w a, value w a → value' w a) (hbrink : ∀ v, brink v () → value'.Viable (v ++ z))
    (h : enclosedBrink '(' (pair value) (pairBrink brink) u ()) :
    (object value').Viable (u ++ z) := by
  rw [object_eq, viable_map_iff]
  exact viable_enclosedBrink (fun _ _ => pair_mono hvalue) (fun _ => viable_pairBrink hbrink) h

theorem viable_valueBrink : ∀ {n : Nat} {u : List Char}, valueBrink n u () →
    (value (n + 1)).Viable (u ++ ['('])
  | 0, _, h => by
    obtain rfl := h.1
    obtain ⟨t, fields, ht⟩ := viable_object_open (value 0)
    exact ⟨t, .object fields, .inl (bind_pure_iff.mpr ⟨fields, ht, rfl⟩)⟩
  | n + 1, u, h => by
    rcases h with h | h
    · obtain ⟨t, fields, ht⟩ := viable_object (fun _ _ => value_succ) (fun _ => viable_valueBrink) h
      exact ⟨t, .object fields, .inl (bind_pure_iff.mpr ⟨fields, ht, rfl⟩)⟩
    · have harray : (enclosed '[' ']' (value (n + 1))).Viable (u ++ ['(']) :=
        viable_enclosedBrink (fun _ _ => value_succ) (fun _ => viable_valueBrink) h
      obtain ⟨t, vs, ht⟩ := harray
      exact ⟨t, .array vs, .inr (.inl (bind_pure_iff.mpr ⟨vs, ht, rfl⟩))⟩

theorem viable_configurationBrink (h : configurationBrink n u ()) :
    (configuration (n + 1)).Viable (u ++ ['(']) := by
  cases n with
  | zero =>
    obtain rfl := h.1
    exact viable_object_open (value 0)
  | succ n => exact viable_object (fun _ _ => value_succ) (fun _ => viable_valueBrink) h

/-- The start of a body, as far as nothing behind it belongs to a keyword that starts in it. -/
def bodyStart (n : Nat) : Phrase Unit := fun p _ => Contents (fun u => ∃ r, block n u r) [] p

def blockBrink : Nat → Phrase Unit
  | 0 => pure ()
  | n + 1 => do
    word .blockBegin
    bodyStart n
    blockBrink n

section Contents

variable {inner : List Char → Prop}

theorem contents_nil (h : Contents inner y p) : Contents inner [] p := by
  induction h with
  | nil => exact .nil
  | block hu _ ih => exact .block hu ih
  | char hb he _ ih =>
    refine .char ?_ ?_ ih
    · exact Keyword.not_startsAt_of_append (by simpa using hb)
    · exact Keyword.not_startsAt_of_append (by simpa using he)

theorem contents_begin (hc : (CharClass.letter 'B').contains c = true) (h : Contents inner [] p)
    (y : List Char) : Contents inner (c :: y) p := by
  induction h with
  | nil => exact .nil
  | block hu _ ih => exact .block hu ih
  | @char d v hb he _ ih =>
    rw [List.append_nil] at hb he
    refine .char ?_ ?_ ih
    · rw [Keyword.startsAt_begin (.inl rfl) hc, hb]
    · rw [Keyword.startsAt_begin (.inr rfl) hc, he]

theorem contents_append (h : Contents inner (v ++ y) p) (h' : Contents inner y v) :
    Contents inner y (p ++ v) := by
  induction h with
  | nil => exact h'
  | block hu _ ih =>
    rw [List.append_assoc]
    exact .block hu ih
  | char hb he _ ih =>
    rw [← List.append_assoc] at hb he
    exact .char hb he ih

end Contents

theorem bodyStart_mono (h : n ≤ m) (hp : bodyStart n p ()) : bodyStart m p () :=
  contents_mono (fun _ ⟨r, hr⟩ => ⟨r, block_mono h hr⟩) hp

theorem letters_self : ∀ cs : List Char, letters cs cs ()
  | [] => ⟨rfl, rfl⟩
  | c :: cs => one_bind_iff.mpr ⟨c, cs, rfl, contains_letter c, letters_self cs⟩

theorem viable_bodyStart (hp : bodyStart n p ()) (hc : (CharClass.letter 'B').contains c = true)
    (h : (body n).Viable (c :: v)) : (body n).Viable (p ++ c :: v) := by
  obtain ⟨t, raw, closing, he, hclosing, hcontents⟩ := h
  have hfirst := contents_begin hc hp (v ++ t)
  rw [show c :: (v ++ t) = raw ++ closing from he] at hfirst
  refine ⟨t, p ++ raw, closing, ?_, hclosing, contents_append hfirst hcontents⟩
  rw [List.append_assoc, List.append_assoc, ← he]

theorem body_of_viable_block (h : (block n).Viable v) : (body n).Viable v := by
  obtain ⟨t, raw, ht⟩ := h
  have hbody := body_block ht (body_end (n := n) word_blockEnd)
  exact ⟨t ++ ['E', 'N', 'D'], _, by simpa using hbody⟩

theorem viable_block_begun {o : List Char} (ho : word .blockBegin o ()) (hp : bodyStart n p ())
    (hc : (CharClass.letter 'B').contains c = true) (h : (body n).Viable (c :: v)) :
    (block (n + 1)).Viable (o ++ (p ++ c :: v)) := by
  rw [block_succ]
  exact viable_bind ho (viable_bodyStart hp hc h)

theorem viable_blockBrink : ∀ {n : Nat} {u : List Char}, blockBrink n u () →
    (block (n + 1)).Viable (u ++ Keyword.blockBegin.letters)
  | 0, _, h => by
    obtain rfl := h.1
    have hword : word .blockBegin Keyword.blockBegin.letters () := letters_self _
    have hblock := viable_bind (f := fun _ => body 0) hword (viable_body_nil 0)
    rwa [List.append_nil, ← block_succ] at hblock
  | n + 1, _, ⟨o, _, _, rfl, ho, p, q, _, rfl, hp, hq⟩ => by
    have hinner := viable_blockBrink hq
    obtain ⟨c, v, hv⟩ : ∃ c v, q ++ Keyword.blockBegin.letters = c :: v :=
      List.exists_cons_of_ne_nil (List.append_ne_nil_of_right_ne_nil q (by decide))
    rw [List.append_assoc, List.append_assoc, hv]
    rw [hv] at hinner
    exact viable_block_begun ho (bodyStart_mono (Nat.le_succ n) hp) ((begins_block _).viable hinner)
      (body_of_viable_block hinner)

theorem viable_blockBrink_letter (hc : (CharClass.letter 'B').contains c = true) :
    ∀ {n : Nat} {u : List Char}, 0 < n → blockBrink n u () → (block n).Viable (u ++ [c])
  | n + 1, _, _, ⟨o, _, _, rfl, ho, p, q, _, rfl, hp, hq⟩ => by
    rw [List.append_assoc, List.append_assoc]
    cases n with
    | zero =>
      obtain rfl := hq.1
      obtain ⟨raw, hraw⟩ := exists_body_of_short 0 (v := [c]) (by simp)
      exact viable_block_begun ho hp hc ⟨_, raw, hraw⟩
    | succ n =>
      have hinner := viable_blockBrink_letter hc (Nat.succ_pos n) hq
      obtain ⟨d, v, hv⟩ : ∃ d v, q ++ [c] = d :: v := List.exists_cons_of_ne_nil (by simp)
      rw [hv] at hinner ⊢
      exact viable_block_begun ho hp ((begins_block _).viable hinner) (body_of_viable_block hinner)

def header : Phrase Unit := do
  blanks
  word .func
  blanks
  let _ ← name
  blanks

def fieldsBrink (levels : Nat) : Phrase Unit := do
  header
  configurationBrink levels

def bodyBrink (levels : Nat) : Phrase Unit := do
  header
  let _ ← configuration levels
  blanks
  blockBrink levels

theorem viable_script (hu : header u ()) (hv : ∀ key, (configuration n >>= fun fields =>
    afterConfiguration n key fields).Viable v) : (script n).Viable (u ++ v) := by
  obtain ⟨b₀, _, _, rfl, hb₀, w, _, _, rfl, hw, b₁, _, _, rfl, hb₁, x, b₂, key, rfl, hx, hb₂⟩ := hu
  rw [script_afterFunc]
  simp only [List.append_assoc]
  exact viable_bind hb₀ (viable_bind hw (viable_bind hb₁
    (viable_bind hx (viable_bind hb₂ (hv key)))))

theorem viable_fieldsBrink (h : fieldsBrink n u ()) : (script (n + 1)).Viable (u ++ ['(']) := by
  obtain ⟨w, v, _, rfl, hw, hv⟩ := h
  rw [List.append_assoc]
  exact viable_script hw fun key => viable_nil_bind (viable_configurationBrink hv)
    (viable_afterConfiguration (Nat.succ_pos n) key)

theorem viable_behind_configuration {fields : Entries Value} {b : List Char} (hu : header u ())
    (hw : configuration n w fields) (hb : ∀ c ∈ b, IsBlank c) (hv : (block n).Viable v) :
    (script n).Viable (u ++ (w ++ (b ++ v))) :=
  viable_script hu fun key => viable_bind hw (viable_bind (a := ()) hb
    (viable_nil_bind hv (viable_afterBlock key fields)))

theorem viable_bodyBrink (h : bodyBrink n u ()) :
    (script (n + 1)).Viable (u ++ Keyword.blockBegin.letters) := by
  obtain ⟨x, _, _, rfl, hx, w, _, fields, rfl, hw, b, v, _, rfl, hb, hv⟩ := h
  simpa using viable_behind_configuration hx (configuration_mono (Nat.le_succ n) hw) hb
    (viable_blockBrink hv)

theorem viable_bodyBrink_letter (hc : (CharClass.letter 'B').contains c = true)
    (h : bodyBrink n u ()) : (script n).Viable (u ++ [c]) := by
  obtain ⟨x, _, _, rfl, hx, w, _, fields, rfl, hw, b, v, _, rfl, hb, hv⟩ := h
  have hn : 0 < n := by
    cases n with
    | zero => exact hw.elim
    | succ n => exact n.succ_pos
  simpa using viable_behind_configuration hx hw hb (viable_blockBrink_letter hc hn hv)

end Grammar

end FuncScript

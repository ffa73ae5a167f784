import FuncScript.Proofs.Brink.Grammar
import FuncScript.Proofs.Nesting.Script

/-!
How deep the brinks lie: what can be opened behind the beginning of a script that has used up its
levels is nested one level deeper.
-/

namespace FuncScript.Nesting

open Grammar
open Phrase

variable {α : Type} {p p' p'' : Place} {u v w y : List Char} {o : Opening} {c : Char}
  {d n M : Nat} {L : Phrase α}

theorem offset_lt_of_mem {place : Place} {offset : Nat} (h : o ∈ openingsFrom place offset u) :
    o.offset < offset + u.length := by
  obtain ⟨c, rest, hdrop, -⟩ := opening_at h
  have hlen := congrArg List.length hdrop
  rw [List.length_drop, List.length_cons] at hlen
  omega

theorem Crosses.mem_openings {marks : List Opening} (h : Crosses (.fields 0) u v marks p)
    (ho : o ∈ openingsFrom p u.length v) : o ∈ openings (u ++ v) := by
  rw [openings, h 0, Nat.zero_add]
  exact List.mem_append_right _ ho

section Bracket

variable (hc : c = '(' ∨ c = '[') (p : Place) (x y : List Char)

include hc

theorem opens_before_bracket : p.opens (x ++ c :: y) = p.opens (x ++ [c]) := by
  have hb : Keyword.blockBegin.startsAt (x ++ c :: y) = Keyword.blockBegin.startsAt (x ++ [c]) := by
    rw [Keyword.startsAt_bracket (.inl rfl) hc, Keyword.startsAt_bracket (.inl rfl) hc]
  cases p with
  | body d => simp only [Place.opens, hb]
  | fields d | quoted d | escaped d | behind => cases x <;> rfl

theorem next_before_bracket : p.next (x ++ c :: y) = p.next (x ++ [c]) := by
  have hfence : ∀ k : Keyword, k.IsFence → k.startsAt (x ++ c :: y) = k.startsAt (x ++ [c]) := by
    intro k hk
    rw [Keyword.startsAt_bracket hk hc, Keyword.startsAt_bracket hk hc]
  cases p with
  | body d => simp only [Place.next, hfence _ (.inl rfl), hfence _ (.inr rfl)]
  | fields d | quoted d | escaped d | behind => cases x <;> rfl

end Bracket

theorem openingFrom_of_bracket (hc : c = '(' ∨ c = '[') : ∀ {u : List Char} {p : Place} {i : Nat},
    o ∈ openingsFrom p i (u ++ c :: v) → o.offset = i + u.length →
      o ∈ openingsFrom p i (u ++ c :: y)
  | [], p, i, ho, hat => by
    have hopens : p.opens (c :: v) = p.opens (c :: y) :=
      (opens_before_bracket hc p [] v).trans (opens_before_bracket hc p [] y).symm
    rw [List.nil_append, openingsFrom, hopens] at ho
    rw [List.nil_append, openingsFrom]
    split at ho
    · rcases List.mem_cons.mp ho with rfl | ho
      · exact List.mem_cons_self
      · have hle := offset_le_of_mem ho
        simp only [List.length_nil] at hat
        omega
    · have hle := offset_le_of_mem ho
      simp only [List.length_nil] at hat
      omega
  | d :: u, p, i, ho, hat => by
    have hopens : p.opens (d :: (u ++ c :: v)) = p.opens (d :: (u ++ c :: y)) :=
      (opens_before_bracket hc p (d :: u) v).trans (opens_before_bracket hc p (d :: u) y).symm
    have hnext : p.next (d :: (u ++ c :: v)) = p.next (d :: (u ++ c :: y)) :=
      (next_before_bracket hc p (d :: u) v).trans (next_before_bracket hc p (d :: u) y).symm
    rw [List.length_cons] at hat
    rw [List.cons_append, openingsFrom, hopens, hnext] at ho
    rw [List.cons_append, openingsFrom]
    split at ho
    · rcases List.mem_cons.mp ho with rfl | ho
      · simp only at hat
        omega
      · exact List.mem_cons_of_mem _ (openingFrom_of_bracket hc ho (by omega))
    · exact openingFrom_of_bracket hc ho (by omega)

theorem opening_of_bracket (hc : c = '(' ∨ c = '[') (ho : o ∈ openings (u ++ c :: v))
    (hat : o.offset = u.length) (y : List Char) : o ∈ openings (u ++ c :: y) :=
  openingFrom_of_bracket hc ho (hat.trans (Nat.zero_add _).symm)

def Leads (p : Place) (u : List Char) (p' : Place) : Prop := ∃ marks, ∀ v, Crosses p u v marks p'

theorem Leads.append (h : Leads p u p') (h' : Leads p' v p'') : Leads p (u ++ v) p'' := by
  obtain ⟨marks, hu⟩ := h
  obtain ⟨more, hv⟩ := h'
  exact ⟨_, fun y => (hu (v ++ y)).append (hv y)⟩

theorem leads_ordinary (h : ∀ c ∈ u, Ordinary c) : Leads (.fields d) u (.fields d) :=
  ⟨[], fun _ => crosses_fields h⟩

theorem leads_star (h : ∀ w a, L w a → Leads p w p) {as : List α} (hs : L.star w as) :
    Leads p w p := by
  induction hs with
  | nil => exact ⟨[], crosses_nil p⟩
  | cons hu _ ih => exact (h _ _ hu).append ih

theorem leads_comma (h : comma u ()) : Leads (.fields d) u (.fields d) := by
  obtain ⟨b, _, _, rfl, hb, hcomma⟩ := h
  obtain ⟨b', rfl, hb'⟩ := symbol_bind_iff.mp hcomma
  apply leads_ordinary
  simp only [List.forall_mem_append, List.forall_mem_cons]
  exact ⟨ordinary_blanks hb, by decide, ordinary_blanks hb'⟩

theorem leads_enclosedBrink {opening : Char} {brink : Phrase Unit}
    (hopen : opening = '(' ∨ opening = '[')
    (hitem : ∀ w a, L w a → Leads (.fields (d + 1)) w (.fields (d + 1)))
    (hbrink : ∀ v, brink v () → Leads (.fields (d + 1)) v p)
    (h : enclosedBrink opening L brink u ()) : Leads (.fields d) u p := by
  obtain ⟨_, rfl, b, x, _, rfl, hb, hx⟩ := symbol_bind_iff.mp h
  have hfirst : Leads (.fields d) [opening] (.fields (d + 1)) := by
    refine ⟨[⟨0, d + 1⟩], fun v => ?_⟩
    rcases hopen with rfl | rfl <;> exact crosses_open rfl
  refine hfirst.append ((leads_ordinary (ordinary_blanks hb)).append ?_)
  rcases hx with hx | ⟨w, _, a, rfl, hw, more, _, as, rfl, hmore, y, v, _, rfl, hy, hv⟩
  · exact hbrink x hx
  · refine (hitem w a hw).append ((leads_star ?_ hmore).append
      ((leads_comma hy).append (hbrink v hv)))
    rintro _ _ ⟨y, w, _, rfl, hy, hw⟩
    exact (leads_comma hy).append (hitem w _ hw)

theorem leads_pairBrink {brink : Phrase Unit} (hbrink : ∀ v, brink v () → Leads (.fields d) v p)
    (h : pairBrink brink u ()) : Leads (.fields d) u p := by
  obtain ⟨w, _, key, rfl, hw, b, _, _, rfl, hb, hequals⟩ := h
  obtain ⟨_, rfl, b', v, _, rfl, hb', hv⟩ := symbol_bind_iff.mp hequals
  have hkey : ∀ c ∈ w ++ (b ++ '=' :: b'), Ordinary c := by
    simp only [List.forall_mem_append, List.forall_mem_cons]
    exact ⟨ordinary_name hw, ordinary_blanks hb, by decide, ordinary_blanks hb'⟩
  simpa using (leads_ordinary hkey).append (hbrink v hv)

theorem leads_value (hd : 0 < d) {v : Value} (h : value n w v) :
    Leads (.fields d) w (.fields d) := by
  obtain ⟨marks, hw⟩ := weighed_value n hd h
  exact ⟨marks, hw.crosses⟩

theorem leads_pair (hd : 0 < d) {q : String × Value} (h : pair (value n) w q) :
    Leads (.fields d) w (.fields d) := by
  have hitems := (itemized_value fun _ _ => weighed_value n hd).pair begins_value viable_value
  obtain ⟨marks, hw⟩ := hitems.weighed w q h
  exact ⟨marks, hw.crosses⟩

theorem leads_objectBrink
    (hbrink : ∀ v, valueBrink n v () → Leads (.fields (d + 1)) v (.fields (d + 1 + n)))
    (h : enclosedBrink '(' (pair (value n)) (pairBrink (valueBrink n)) u ()) :
    Leads (.fields d) u (.fields (d + (n + 1))) := by
  rw [show d + (n + 1) = d + 1 + n by omega]
  exact leads_enclosedBrink (.inl rfl) (fun _ _ => leads_pair (Nat.succ_pos d))
    (fun _ => leads_pairBrink hbrink) h

theorem leads_valueBrink : ∀ {n d : Nat} {u : List Char}, 0 < d → valueBrink n u () →
    Leads (.fields d) u (.fields (d + n))
  | 0, _, _, _, h => by
    obtain rfl := h.1
    exact ⟨[], crosses_nil _⟩
  | n + 1, d, u, hd, h => by
    have hinner : ∀ v, valueBrink n v () → Leads (.fields (d + 1)) v (.fields (d + 1 + n)) :=
      fun _ => leads_valueBrink (Nat.succ_pos d)
    rcases h with h | h
    · exact leads_objectBrink hinner h
    · rw [show d + (n + 1) = d + 1 + n by omega]
      exact leads_enclosedBrink (.inr rfl) (fun _ _ => leads_value (Nat.succ_pos d)) hinner h

theorem leads_configurationBrink (h : configurationBrink n u ()) :
    Leads (.fields 0) u (.fields n) := by
  cases n with
  | zero =>
    obtain rfl := h.1
    exact ⟨[], crosses_nil _⟩
  | succ n =>
    have hobject := leads_objectBrink (fun _ => leads_valueBrink (Nat.succ_pos 0)) h
    rwa [Nat.zero_add] at hobject

theorem leads_header (h : header u ()) : Leads (.fields 0) u (.fields 0) := by
  obtain ⟨b₀, _, _, rfl, hb₀, w, _, _, rfl, hw, b₁, _, _, rfl, hb₁, x, b₂, key, rfl, hx, hb₂⟩ := h
  exact leads_ordinary (ordinary_header hb₀ hw hb₁ hx hb₂)

theorem leads_fieldsBrink (h : fieldsBrink n u ()) : Leads (.fields 0) u (.fields n) := by
  obtain ⟨w, v, _, rfl, hw, hv⟩ := h
  exact (leads_header hw).append (leads_configurationBrink hv)

theorem opening_of_fieldsBrink (h : fieldsBrink n u ()) (v : List Char) :
    ⟨u.length, n + 1⟩ ∈ openings (u ++ '(' :: v) := by
  obtain ⟨marks, hu⟩ := leads_fieldsBrink h
  exact (hu _).mem_openings List.mem_cons_self

theorem bracket_of_opening (h : fieldsBrink n u ()) (ho : o ∈ openings (u ++ c :: v))
    (hat : o.offset = u.length) : c = '(' ∨ c = '[' := by
  obtain ⟨marks, hu⟩ := leads_fieldsBrink h
  rw [openings, hu (c :: v) 0, Nat.zero_add] at ho
  rcases List.mem_append.mp ho with ho | ho
  · -- what is opened in `u` is opened before its end
    have hbefore : o ∈ openingsFrom (.fields 0) 0 (u ++ []) := by
      rw [hu [] 0]
      exact List.mem_append_left _ ho
    have hlt := offset_lt_of_mem hbefore
    rw [List.append_nil] at hlt
    omega
  · apply Classical.byContradiction
    intro hc
    rw [openingsFrom, Place.opens, if_neg hc] at ho
    have hle := offset_le_of_mem ho
    omega

theorem crosses_contents (hd : 0 < d) (h : Contents (fun u => ∃ r, block M u r) y w) :
    ∃ marks, Crosses (.body d) w y marks (.body d) := by
  induction h with
  | nil => exact ⟨[], crosses_nil _ _⟩
  | @block u v hu _ ih =>
    obtain ⟨r, hu⟩ := hu
    obtain ⟨first, hfirst⟩ := weighed_block (d := d) hu
    obtain ⟨rest, hrest⟩ := ih
    have hin := hfirst.crosses (v ++ y)
    rw [leave_body hd] at hin
    exact ⟨_, hin.append hrest⟩
  | char hb he _ ih =>
    obtain ⟨rest, hrest⟩ := ih
    exact ⟨_, (crosses_char hb he).append_quiet hrest⟩

theorem begins_blockBrink (h : blockBrink n u ()) (hv : Keyword.blockBegin.startsAt v = true) :
    ∃ c t, u ++ v = c :: t ∧ (CharClass.letter 'B').contains c = true := by
  have first : ∀ {x : List Char}, Keyword.blockBegin.startsAt x = true →
      ∃ c t, x = c :: t ∧ (CharClass.letter 'B').contains c = true := by
    intro x hx
    cases x with
    | nil => exact absurd hx (by decide)
    | cons c t => exact ⟨c, t, rfl, Rule.letter_of_startsAt rfl hx⟩
  cases n with
  | zero =>
    obtain rfl := h.1
    exact first hv
  | succ n =>
    obtain ⟨o, q, _, rfl, ho, -⟩ := h
    exact first (Keyword.startsAt_iff.mpr ⟨o, q ++ v, by simp, ho⟩)

theorem crosses_blockBrink : ∀ {n d : Nat} {u : List Char}, blockBrink n u () →
    Keyword.blockBegin.startsAt v = true → ∃ marks, Crosses (.body d) u v marks (.body (d + n))
  | 0, _, _, h, _ => by
    obtain rfl := h.1
    exact ⟨[], crosses_nil _ _⟩
  | n + 1, d, _, ⟨o, _, _, rfl, ho, x, q, _, rfl, hx, hq⟩, hv => by
    obtain ⟨c, t, he, hc⟩ := begins_blockBrink hq hv
    have hcontents := contents_begin hc hx t
    rw [← he] at hcontents
    obtain ⟨middle, hmiddle⟩ := crosses_contents (Nat.succ_pos d) hcontents
    obtain ⟨last, hlast⟩ := crosses_blockBrink (d := d + 1) hq hv
    rw [show d + (n + 1) = d + 1 + n by omega]
    have hword : Crosses (.body d) o (x ++ q ++ v) [⟨0, d + 1⟩] (.body (d + 1)) := crosses_begin ho
    exact ⟨_, hword.append (hmiddle.append hlast)⟩

theorem opening_of_bodyBrink (h : bodyBrink n u ()) (hv : Keyword.blockBegin.startsAt v = true) :
    ⟨u.length, n + 1⟩ ∈ openings (u ++ v) := by
  obtain ⟨x, _, _, rfl, hx, w, _, fields, rfl, hw, b, q, _, rfl, hb, hq⟩ := h
  obtain ⟨first, hfirst⟩ := leads_header hx
  obtain ⟨second, hsecond, -⟩ := weighed_configuration hw
  obtain ⟨third, hthird⟩ := crosses_blockBrink (d := 0) hq hv
  have hblanks : Crosses (.body 0) b (q ++ v) [] (.body 0) :=
    crosses_plain fun c hc => plain_blank (hb c hc)
  have hall := (hfirst _).append ((hsecond _).append (hblanks.append hthird))
  apply hall.mem_openings
  rw [Nat.zero_add]
  cases v with
  | nil => exact absurd hv (by decide)
  | cons c v =>
    rw [openingsFrom, Place.opens, if_pos hv]
    exact List.mem_cons_self

theorem not_script_of_opening {text : List Char} {result : Definition} (ho : o ∈ openings text)
    (hlevel : o.level = n + 1) : ¬ script n text result := by
  intro h
  have hle := level_le_depth ho
  obtain ⟨e, he, -⟩ := read_of_deep h (by omega : n < depth text)
  rw [Script.read_ok_iff.mpr h] at he
  cases he

end FuncScript.Nesting

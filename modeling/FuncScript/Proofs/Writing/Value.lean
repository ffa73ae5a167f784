import FuncScript.Proofs.Blocks
import FuncScript.Proofs.Merging
import FuncScript.Proofs.Writing.Number
import FuncScript.Proofs.Writing.Quoted
import FuncScript.Value.Printer

/-!
The text of a value is a word of the grammar for that value, provided that the value can be written
at all; and all values of the grammar can.
-/

namespace FuncScript

open Phrase

variable {α : Type} {n : Nat} {w : List Char}

def IsName (key : String) : Prop :=
  ∃ c t, key.toList = c :: t ∧ CharClass.nameStart.contains c = true ∧
    ∀ d ∈ t, CharClass.nameContinue.contains d = true

/-- The values that have a text: keys are names, each given once, and numbers are finite. -/
inductive Value.Expressible : Value → Prop
  | object {fields : Entries Value} (hd : fields.keys.Nodup) (hn : ∀ p ∈ fields, IsName p.1)
      (hv : ∀ p ∈ fields, p.2.Expressible) : Expressible (.object fields)
  | array {items : List Value} (hv : ∀ v ∈ items, v.Expressible) : Expressible (.array items)
  | string (text : String) : Expressible (.string text)
  | number {x : Binary64} (h : x.isFinite = true) : Expressible (.number x)
  | boolean (b : Bool) : Expressible (.boolean b)

namespace Value

theorem fieldsNesting_le_iff {fields : List (String × Value)} :
    fieldsNesting fields ≤ n ↔ ∀ p ∈ fields, p.2.nesting ≤ n := by
  induction fields with
  | nil => simp [fieldsNesting]
  | cons p rest ih => rw [fieldsNesting, Nat.max_le, ih, List.forall_mem_cons]

theorem itemsNesting_le_iff {items : List Value} :
    itemsNesting items ≤ n ↔ ∀ v ∈ items, v.nesting ≤ n := by
  induction items with
  | nil => simp [itemsNesting]
  | cons v rest ih => rw [itemsNesting, Nat.max_le, ih, List.forall_mem_cons]

def listed (write : α → List Char) : List α → List Char
  | [] => []
  | a :: rest => write a ++ rest.flatMap fun b => ',' :: ' ' :: write b

def fieldText (p : String × Value) : List Char := p.1.toList ++ '=' :: p.2.text

theorem moreFields_eq (fields : List (String × Value)) :
    moreFields fields = fields.flatMap fun p => ',' :: ' ' :: fieldText p := by
  induction fields with
  | nil => simp [moreFields]
  | cons p rest ih => simp [moreFields, ih, fieldText]

theorem moreItems_eq (items : List Value) :
    moreItems items = items.flatMap fun v => ',' :: ' ' :: v.text := by
  induction items with
  | nil => simp [moreItems]
  | cons v rest ih => simp [moreItems, ih]

theorem text_object (fields : List (String × Value)) :
    text (.object fields) = '(' :: (listed fieldText fields ++ [')']) := by
  cases fields with
  | nil => simp [text, listed]
  | cons p rest => simp [text, listed, fieldText, moreFields_eq]

theorem text_array (items : List Value) :
    text (.array items) = '[' :: (listed text items ++ [']']) := by
  cases items with
  | nil => simp [text, listed]
  | cons v rest => simp [text, listed, moreItems_eq]

end Value

namespace Grammar

theorem name_iff {key : String} : name w key ↔ w = key.toList ∧ IsName key := by
  constructor
  · intro h
    obtain ⟨c, t, rfl, hc, ht⟩ := one_bind_iff.mp h
    obtain ⟨cs, hs, rfl⟩ := bind_pure_iff.mp ht
    obtain ⟨rfl, hd⟩ := star_one_iff.mp hs
    rw [IsName, String.toList_ofList]
    exact ⟨rfl, c, _, rfl, hc, hd⟩
  · rintro ⟨rfl, c, t, he, hc, hd⟩
    rw [he]
    refine one_bind_iff.mpr ⟨c, t, rfl, hc, bind_pure_iff.mpr ⟨t, star_one_iff.mpr ⟨rfl, hd⟩, ?_⟩⟩
    rw [← he, String.ofList_toList]

theorem blanks_bind {f : Unit → Phrase α} {a : α} (h : f () w a) : (blanks >>= f) w a :=
  ⟨[], w, (), rfl, by simp [blanks], h⟩

theorem comma_blank : comma [',', ' '] () := by
  refine blanks_bind (symbol_bind_iff.mpr ⟨[' '], rfl, ?_⟩)
  intro c hc
  obtain rfl := List.mem_singleton.mp hc
  decide

theorem separated_listed {item : Phrase α} {write : α → List Char} {as : List α}
    (h : ∀ a ∈ as, item (write a) a) : separated comma item (Value.listed write as) as := by
  cases as with
  | nil => exact .inl ⟨rfl, rfl⟩
  | cons a rest =>
    refine .inr (bind_mk (h a List.mem_cons_self) (bind_pure_iff.mpr ⟨rest, ?_, rfl⟩))
    have hrest : ∀ b ∈ rest, item (write b) b := fun b hb => h b (List.mem_cons_of_mem a hb)
    clear h
    induction rest with
    | nil => exact .nil
    | cons b rest ih =>
      rw [List.flatMap_cons]
      refine .cons (bind_mk (u := [',', ' ']) comma_blank (hrest b List.mem_cons_self)) ?_
      exact ih fun b' hb' => hrest b' (List.mem_cons_of_mem b hb')

theorem enclosed_listed {item : Phrase α} {write : α → List Char} {as : List α}
    (opening closing : Char) (h : ∀ a ∈ as, item (write a) a) :
    enclosed opening closing item (opening :: (Value.listed write as ++ [closing])) as := by
  refine symbol_bind_iff.mpr ⟨_, rfl, blanks_bind ?_⟩
  refine bind_mk (separated_listed h) (blanks_bind ?_)
  exact symbol_bind_iff.mpr ⟨[], rfl, rfl, rfl⟩

theorem pair_fieldText {value : Phrase Value} {p : String × Value} (hn : IsName p.1)
    (hv : value p.2.text p.2) : pair value (Value.fieldText p) p := by
  refine bind_mk (name_iff.mpr ⟨rfl, hn⟩) (blanks_bind ?_)
  refine symbol_bind_iff.mpr ⟨_, rfl, blanks_bind ?_⟩
  exact bind_pure_iff.mpr ⟨p.2, hv, rfl⟩

theorem object_text {value : Phrase Value} {fields : Entries Value} (hd : fields.keys.Nodup)
    (hn : ∀ p ∈ fields, IsName p.1) (hv : ∀ p ∈ fields, value p.2.text p.2) :
    object value (Value.text (.object fields)) fields := by
  rw [object, Value.text_object]
  simp only [merged_eq]
  refine bind_pure_iff.mpr ⟨fields, ?_, (Entries.ofList_of_nodup hd).symm⟩
  exact enclosed_listed '(' ')' fun p hp => pair_fieldText (hn p hp) (hv p hp)

theorem boolean_text (b : Bool) : boolean (Value.text (.boolean b)) b := by
  cases b with
  | true => exact .inl (bind_pure_iff.mpr ⟨(), Keyword.word_of_startsAt (by decide) (by decide), rfl⟩)
  | false => exact .inr (bind_pure_iff.mpr ⟨(), Keyword.word_of_startsAt (by decide) (by decide), rfl⟩)

theorem value_of_scalar {v : Value} (h : scalar w v) : ∀ n, value n w v
  | 0 => h
  | _ + 1 => .inr (.inr h)

theorem value_text {v : Value} (h : v.Expressible) : ∀ {n : Nat}, v.nesting ≤ n →
    value n v.text v := by
  induction h with
  | @object fields hd hn _ ih =>
    intro n hle
    rw [Value.nesting] at hle
    obtain ⟨n, rfl⟩ : ∃ k, n = k + 1 := ⟨n - 1, by omega⟩
    have hfields : Value.fieldsNesting fields ≤ n := by omega
    refine .inl (bind_pure_iff.mpr ⟨fields, object_text hd hn fun p hp => ih p hp ?_, rfl⟩)
    exact Value.fieldsNesting_le_iff.mp hfields p hp
  | @array items _ ih =>
    intro n hle
    rw [Value.nesting] at hle
    obtain ⟨n, rfl⟩ : ∃ k, n = k + 1 := ⟨n - 1, by omega⟩
    have hitems : Value.itemsNesting items ≤ n := by omega
    refine .inr (.inl (bind_pure_iff.mpr ⟨items, ?_, rfl⟩))
    rw [Value.text_array]
    exact enclosed_listed '[' ']' fun v hv => ih v hv (Value.itemsNesting_le_iff.mp hitems v hv)
  | string text =>
    intro n _
    refine value_of_scalar (.inr (.inl (bind_pure_iff.mpr ⟨text, ?_, rfl⟩))) n
    rw [Value.text]
    exact string_quote text
  | @number x hx =>
    intro n _
    refine value_of_scalar (.inl (bind_pure_iff.mpr ⟨x, ?_, rfl⟩)) n
    rw [Value.text]
    exact Binary64.number_text hx
  | boolean b =>
    intro n _
    exact value_of_scalar (.inr (.inr (bind_pure_iff.mpr ⟨b, boolean_text b, rfl⟩))) n

theorem configuration_text {fields : Entries Value} (h : (Value.object fields).Expressible) {n : Nat}
    (hn : (Value.object fields).nesting ≤ n) :
    configuration n (Value.text (.object fields)) fields := by
  rw [Value.nesting] at hn
  obtain ⟨n, rfl⟩ : ∃ k, n = k + 1 := ⟨n - 1, by omega⟩
  have hfields : Value.fieldsNesting fields ≤ n := by omega
  cases h with
  | object hd hnames hv =>
    exact object_text hd hnames fun p hp =>
      value_text (hv p hp) (Value.fieldsNesting_le_iff.mp hfields p hp)

theorem exists_word_of_star {L : Phrase α} {as : List α} (h : Star L w as) :
    ∀ a ∈ as, ∃ u, L u a := by
  induction h with
  | nil => simp
  | @cons u v a as hu _ ih =>
    intro b hb
    rcases List.mem_cons.mp hb with rfl | hb
    · exact ⟨u, hu⟩
    · exact ih b hb

theorem exists_word_of_enclosed {item : Phrase α} {opening closing : Char} {as : List α}
    (h : enclosed opening closing item w as) : ∀ a ∈ as, ∃ u, item u a := by
  obtain ⟨_, _, h₁⟩ := symbol_bind_iff.mp h
  obtain ⟨_, _, _, _, _, h₂⟩ := bind_iff.mp h₁
  obtain ⟨_, _, bs, _, hs, h₃⟩ := bind_iff.mp h₂
  obtain ⟨_, _, _, _, _, h₄⟩ := bind_iff.mp h₃
  obtain ⟨_, _, -, rfl⟩ := symbol_bind_iff.mp h₄
  rcases hs with ⟨-, rfl⟩ | hs
  · simp
  · obtain ⟨_, _, first, rfl, hfirst, hs⟩ := bind_iff.mp hs
    obtain ⟨rest, hrest, rfl⟩ := bind_pure_iff.mp hs
    intro a ha
    rcases List.mem_cons.mp ha with rfl | ha
    · exact ⟨_, hfirst⟩
    · obtain ⟨_, _, v, _, rfl, _, hv⟩ := exists_word_of_star hrest a ha
      exact ⟨v, hv⟩

theorem exists_word_of_pair {value : Phrase α} {p : String × α} (h : pair value w p) :
    IsName p.1 ∧ ∃ u, value u p.2 := by
  obtain ⟨_, _, key, _, hk, h₁⟩ := bind_iff.mp h
  obtain ⟨_, _, _, _, _, h₂⟩ := bind_iff.mp h₁
  obtain ⟨_, _, h₃⟩ := symbol_bind_iff.mp h₂
  obtain ⟨_, _, _, _, _, h₄⟩ := bind_iff.mp h₃
  obtain ⟨a, ha, rfl⟩ := bind_pure_iff.mp h₄
  exact ⟨(name_iff.mp hk).2, _, ha⟩

theorem object_expressible {value : Phrase Value} {fields : Entries Value}
    (hv : ∀ u v, value u v → v.Expressible ∧ v.nesting ≤ n) (h : object value w fields) :
    (Value.object fields).Expressible ∧ (Value.object fields).nesting ≤ n + 1 := by
  rw [object] at h
  simp only [merged_eq] at h
  obtain ⟨pairs, hp, rfl⟩ := bind_pure_iff.mp h
  have hpair : ∀ p ∈ Entries.ofList pairs, IsName p.1 ∧ p.2.Expressible ∧ p.2.nesting ≤ n := by
    intro p hmem
    obtain ⟨_, hu⟩ := exists_word_of_enclosed hp p (Entries.mem_of_mem_ofList hmem)
    obtain ⟨hn, _, hw⟩ := exists_word_of_pair hu
    exact ⟨hn, hv _ _ hw⟩
  constructor
  · exact .object (Entries.nodup_ofList pairs) (fun p hm => (hpair p hm).1)
      fun p hm => (hpair p hm).2.1
  · rw [Value.nesting, Nat.add_comm]
    exact Nat.succ_le_succ (Value.fieldsNesting_le_iff.mpr fun p hm => (hpair p hm).2.2)

theorem scalar_expressible {v : Value} (h : scalar w v) : v.Expressible ∧ v.nesting = 0 := by
  rcases h with h | h | h
  · obtain ⟨x, ⟨_, _, hx⟩, rfl⟩ := bind_pure_iff.mp h
    exact ⟨.number hx.finite, by simp [Value.nesting]⟩
  · obtain ⟨text, _, rfl⟩ := bind_pure_iff.mp h
    exact ⟨.string text, by simp [Value.nesting]⟩
  · obtain ⟨b, _, rfl⟩ := bind_pure_iff.mp h
    exact ⟨.boolean b, by simp [Value.nesting]⟩

theorem value_expressible : ∀ {n : Nat} {w : List Char} {v : Value}, value n w v →
    v.Expressible ∧ v.nesting ≤ n
  | 0, _, _, h => ⟨(scalar_expressible h).1, Nat.le_of_eq (scalar_expressible h).2⟩
  | n + 1, _, _, h => by
    rcases h with h | h | h
    · obtain ⟨fields, hf, rfl⟩ := bind_pure_iff.mp h
      exact object_expressible (fun _ _ => value_expressible) hf
    · obtain ⟨items, hi, rfl⟩ := bind_pure_iff.mp h
      have hitem : ∀ v ∈ items, v.Expressible ∧ v.nesting ≤ n := by
        intro v hv
        obtain ⟨_, hu⟩ := exists_word_of_enclosed hi v hv
        exact value_expressible hu
      refine ⟨.array fun v hv => (hitem v hv).1, ?_⟩
      rw [Value.nesting, Nat.add_comm]
      exact Nat.succ_le_succ (Value.itemsNesting_le_iff.mpr fun v hv => (hitem v hv).2)
    · obtain ⟨hv, hn⟩ := scalar_expressible h
      exact ⟨hv, by omega⟩

theorem configuration_expressible : ∀ {n : Nat} {w : List Char} {fields : Entries Value},
    configuration n w fields →
      (Value.object fields).Expressible ∧ (Value.object fields).nesting ≤ n
  | 0, _, _, h => h.elim
  | _ + 1, _, _, h => object_expressible (fun _ _ => value_expressible) h

end Grammar

end FuncScript

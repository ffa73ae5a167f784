import FuncScript.Keyword

/-!
Where containers and blocks open in a script, and how deep. One look through the text is enough:
brackets count up to the one that closes the configuration, unless they are quoted, and then the
words BEGIN and END up to the one that closes the block.
-/

namespace FuncScript.Nesting

/-- What a character stands in, with the number of containers or blocks around it. -/
inductive Place where
  | fields (level : Nat)
  | quoted (level : Nat)
  | escaped (level : Nat)
  | body (level : Nat)
  | behind
  deriving DecidableEq, Repr

/-- A container or block: the offset of its first character, and its level. The outermost are at
level one. -/
structure Opening where
  offset : Nat
  level : Nat
  deriving DecidableEq, Repr

namespace Place

def leave : Place → Place
  | fields level => if level ≤ 1 then body 0 else fields (level - 1)
  | body level => if level ≤ 1 then behind else body (level - 1)
  | place => place

def opens : Place → List Char → Option Nat
  | fields level, c :: _ => if c = '(' ∨ c = '[' then some (level + 1) else none
  | body level, text => if Keyword.blockBegin.startsAt text then some (level + 1) else none
  | _, _ => none

def next : Place → List Char → Place
  | fields level, c :: _ =>
    if c = '(' ∨ c = '[' then fields (level + 1)
    else if c = ')' ∨ c = ']' then leave (fields level)
    else if c = '"' then quoted level
    else fields level
  | quoted level, c :: _ =>
    if c = '\\' then escaped level else if c = '"' then fields level else quoted level
  | escaped level, _ => quoted level
  | body level, text =>
    if Keyword.blockBegin.startsAt text then body (level + 1)
    else if Keyword.blockEnd.startsAt text then leave (body level)
    else body level
  | place, _ => place

end Place

def openingsFrom : Place → Nat → List Char → List Opening
  | _, _, [] => []
  | place, offset, c :: text =>
    match place.opens (c :: text) with
    | some level => ⟨offset, level⟩ :: openingsFrom (place.next (c :: text)) (offset + 1) text
    | none => openingsFrom (place.next (c :: text)) (offset + 1) text

def openings (text : List Char) : List Opening := openingsFrom (.fields 0) 0 text

def depth (text : List Char) : Nat := ((openings text).map Opening.level).foldr max 0

example : openings "FUNC f(a=[(),\"(\"]) BEGIN begin END END @k=\"[\";".toList =
    [⟨6, 1⟩, ⟨9, 2⟩, ⟨10, 3⟩, ⟨19, 1⟩, ⟨25, 2⟩] := by decide +kernel

variable {place : Place} {offset level : Nat} {text : List Char} {o : Opening}

def Place.Below (level : Nat) : Place → Prop
  | .fields n | .quoted n | .escaped n | .body n => n ≤ level
  | .behind => True

theorem Place.Below.mono {m : Nat} (h : place.Below level) (hm : level ≤ m) : place.Below m := by
  cases place with
  | behind => trivial
  | fields | quoted | escaped | body => exact Nat.le_trans h hm

theorem Place.Below.leave (h : place.Below level) : place.leave.Below level := by
  cases place with
  | fields n =>
    rw [Place.leave]
    split
    · exact Nat.zero_le level
    · exact Nat.le_trans (Nat.sub_le n 1) h
  | body n =>
    rw [Place.leave]
    split
    · trivial
    · exact Nat.le_trans (Nat.sub_le n 1) h
  | quoted | escaped | behind => exact h

theorem Place.Below.next (h : place.Below level) (hnone : place.opens text = none) :
    (place.next text).Below level := by
  cases place with
  | fields n =>
    cases text with
    | nil => exact h
    | cons c text =>
      have hc : ¬ (c = '(' ∨ c = '[') := by simpa [Place.opens] using hnone
      rw [Place.next, if_neg hc]
      split
      · exact h.leave
      · split <;> exact h
  | quoted n =>
    cases text with
    | nil => exact h
    | cons c text =>
      rw [Place.next]
      split
      · exact h
      · split <;> exact h
  | escaped n => exact h
  | body n =>
    have hb : ¬ Keyword.blockBegin.startsAt text = true := by simpa [Place.opens] using hnone
    rw [Place.next, if_neg hb]
    split
    · exact h.leave
    · exact h
  | behind => exact h

theorem Place.Below.enter {n : Nat} (h : place.Below level) (hn : place.opens text = some n) :
    n ≤ level + 1 ∧ (place.next text).Below n := by
  cases place with
  | fields m =>
    cases text with
    | nil => simp [Place.opens] at hn
    | cons c text =>
      rw [Place.opens] at hn
      split at hn
      · next hc =>
        obtain rfl := Option.some.inj hn
        rw [Place.next, if_pos hc]
        exact ⟨Nat.succ_le_succ h, Nat.le_refl _⟩
      · simp at hn
  | body m =>
    rw [Place.opens] at hn
    split at hn
    · next hb =>
      obtain rfl := Option.some.inj hn
      rw [Place.next, if_pos hb]
      exact ⟨Nat.succ_le_succ h, Nat.le_refl _⟩
    · simp at hn
  | quoted | escaped | behind => simp [Place.opens] at hn

theorem offset_le_of_mem : ∀ {text : List Char} {place : Place} {offset : Nat},
    o ∈ openingsFrom place offset text → offset ≤ o.offset
  | [], _, _, h => by simp [openingsFrom] at h
  | c :: text, place, offset, h => by
    rw [openingsFrom] at h
    split at h
    · rcases List.mem_cons.mp h with rfl | h
      · exact Nat.le_refl _
      · exact Nat.le_of_succ_le (offset_le_of_mem h)
    · exact Nat.le_of_succ_le (offset_le_of_mem h)

theorem sorted_openingsFrom : ∀ (text : List Char) (place : Place) (offset : Nat),
    (openingsFrom place offset text).Pairwise (·.offset < ·.offset)
  | [], _, _ => .nil
  | c :: text, place, offset => by
    rw [openingsFrom]
    split
    · exact .cons (fun _ => offset_le_of_mem) (sorted_openingsFrom text _ _)
    · exact sorted_openingsFrom text _ _

theorem exists_level : ∀ {text : List Char} {place : Place} {offset : Nat},
    place.Below level → o ∈ openingsFrom place offset text → level < o.level →
      ∃ o' ∈ openingsFrom place offset text, o'.level = level + 1
  | [], _, _, _, h, _ => by simp [openingsFrom] at h
  | c :: text, place, offset, hb, h, hlt => by
    rw [openingsFrom] at h ⊢
    split at h
    · next n hn =>
      obtain ⟨hle, hin⟩ := hb.enter hn
      rcases Nat.lt_or_eq_of_le hle with hle | rfl
      · have hle : n ≤ level := Nat.le_of_lt_succ hle
        rcases List.mem_cons.mp h with rfl | h
        · exact absurd hlt (Nat.not_lt.mpr hle)
        · obtain ⟨o', ho', heq⟩ := exists_level (hin.mono hle) h hlt
          exact ⟨o', List.mem_cons_of_mem _ ho', heq⟩
      · exact ⟨_, List.mem_cons_self, rfl⟩
    · next hnone =>
      obtain ⟨o', ho', heq⟩ := exists_level (hb.next hnone) h hlt
      exact ⟨o', ho', heq⟩

theorem opening_at : ∀ {text : List Char} {place : Place} {offset : Nat},
    o ∈ openingsFrom place offset text → ∃ c rest, text.drop (o.offset - offset) = c :: rest ∧
      (c = '(' ∨ c = '[' ∨ Keyword.blockBegin.startsAt (c :: rest) = true)
  | [], _, _, h => by simp [openingsFrom] at h
  | c :: text, place, offset, h => by
    have behind : ∀ {place : Place}, o ∈ openingsFrom place (offset + 1) text →
        ∃ d rest, (c :: text).drop (o.offset - offset) = d :: rest ∧
          (d = '(' ∨ d = '[' ∨ Keyword.blockBegin.startsAt (d :: rest) = true) := by
      intro place h
      have hle := offset_le_of_mem h
      rw [show o.offset - offset = o.offset - (offset + 1) + 1 by omega, List.drop_succ_cons]
      exact opening_at h
    rw [openingsFrom] at h
    split at h
    · next n hn =>
      rcases List.mem_cons.mp h with rfl | h
      · refine ⟨c, text, by simp, ?_⟩
        cases place with
        | fields m =>
          rw [Place.opens] at hn
          split at hn
          · next hc => exact hc.imp_right .inl
          · simp at hn
        | body m =>
          rw [Place.opens] at hn
          split at hn
          · next hb => exact .inr (.inr hb)
          · simp at hn
        | quoted | escaped | behind => simp [Place.opens] at hn
      · exact behind h
    · exact behind h

theorem le_foldr_max {n : Nat} : ∀ {ns : List Nat}, n ∈ ns → n ≤ ns.foldr max 0
  | [], h => by simp at h
  | m :: ns, h => by
    rcases List.mem_cons.mp h with rfl | h
    · exact Nat.le_max_left _ _
    · exact Nat.le_trans (le_foldr_max h) (Nat.le_max_right _ _)

theorem foldr_max_mem : ∀ {ns : List Nat}, 0 < ns.foldr max 0 → ns.foldr max 0 ∈ ns
  | [], h => by simp at h
  | m :: ns, h => by
    rw [List.foldr_cons] at h ⊢
    rcases Nat.le_total m (ns.foldr max 0) with hle | hle
    · rw [Nat.max_eq_right hle] at h ⊢
      exact List.mem_cons_of_mem _ (foldr_max_mem h)
    · rw [Nat.max_eq_left hle]
      exact List.mem_cons_self

theorem level_le_depth (h : o ∈ openings text) : o.level ≤ depth text :=
  le_foldr_max (List.mem_map_of_mem h)

theorem exists_opening (h : level < depth text) : ∃ o ∈ openings text, o.level = level + 1 := by
  obtain ⟨o, ho, hlevel⟩ := List.mem_map.mp (foldr_max_mem (Nat.zero_lt_of_lt h))
  have houtside : (Place.fields 0).Below level := Nat.zero_le level
  exact exists_level houtside ho (hlevel ▸ h)

end FuncScript.Nesting

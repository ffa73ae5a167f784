import Mathlib.Algebra.Group.Nat.Defs
import FuncScript.Position

/-!
The line and column of every offset that a cache answers for are those at which a walk from the
start of the text arrives, whatever was asked before.
-/

namespace FuncScript

def afterFeed (u : List Char) : Nat := (u.reverse.takeWhile (· ≠ '\n')).length

def lineAt (text : List Char) (offset : Nat) : Nat := 1 + (text.take offset).count '\n'

/-- The column of a place, where each place past the end of the text counts as one more. -/
def columnAt (text : List Char) (offset : Nat) : Nat :=
  1 + afterFeed (text.take offset) + (offset - text.length)

structure Position.Marks (p : Position) (text : List Char) : Prop where
  line : p.line.toNat = 1 + (text.take p.offset).count '\n'
  column : p.column.toNat = 1 + afterFeed (text.take p.offset)

variable {text : Array Char} {cache : PositionCache} {offset : Nat}

theorem afterFeed_concat (u : List Char) (c : Char) :
    afterFeed (u ++ [c]) = if c = '\n' then 0 else afterFeed u + 1 := by
  unfold afterFeed
  rw [List.reverse_concat, List.takeWhile_cons]
  by_cases h : c = '\n' <;> simp [h]

theorem afterFeed_le (u : List Char) : afterFeed u ≤ u.length := by
  unfold afterFeed
  have h := (List.takeWhile_prefix (p := (· ≠ '\n')) (l := u.reverse)).length_le
  rwa [List.length_reverse] at h

theorem lineAt_le (u : List Char) (n : Nat) : lineAt u n ≤ n + 1 := by
  have hcount := List.count_le_length (a := '\n') (l := u.take n)
  rw [List.length_take] at hcount
  unfold lineAt
  omega

theorem columnAt_le (u : List Char) (n : Nat) : columnAt u n ≤ n + 1 := by
  have hafter := afterFeed_le (u.take n)
  rw [List.length_take] at hafter
  unfold columnAt
  omega

theorem lineAt_succ (u : List Char) (n : Nat) :
    lineAt u (n + 1) = if u[n]? = some '\n' then lineAt u n + 1 else lineAt u n := by
  unfold lineAt
  rw [List.take_add_one, List.count_append]
  cases u[n]? with
  | none => simp
  | some c => by_cases hc : c = '\n' <;> simp [hc, Nat.add_assoc]

theorem columnAt_succ (u : List Char) (n : Nat) :
    columnAt u (n + 1) = if u[n]? = some '\n' then 1 else columnAt u n + 1 := by
  unfold columnAt
  rw [List.take_add_one]
  cases hc : u[n]? with
  | none =>
    have hle := List.getElem?_eq_none_iff.mp hc
    simp only [Option.toList_none, List.append_nil, reduceCtorEq, if_false]
    omega
  | some c =>
    have hlt := (List.getElem?_eq_some_iff.mp hc).1
    rw [Option.toList_some, afterFeed_concat]
    by_cases hn : c = '\n'
    · simp only [hn, if_true]
      omega
    · simp only [hn, Option.some.injEq, if_false]
      omega

namespace LineColumn

theorem walk_add (text : Array Char) : ∀ (m n offset : Nat) (here : LineColumn),
    walk text offset (m + n) here = walk text (offset + m) n (walk text offset m here)
  | 0, n, offset, here => by rw [Nat.zero_add, Nat.add_zero, walk]
  | m + 1, n, offset, here => by
    rw [show m + 1 + n = (m + n) + 1 by omega, walk, walk, walk_add text m n,
      show offset + 1 + m = offset + (m + 1) by omega]

def reached (text : Array Char) (offset : Nat) : LineColumn := walk text 0 offset first

theorem walk_reached (text : Array Char) (m n : Nat) :
    walk text m n (reached text m) = reached text (m + n) := by
  rw [reached, reached, walk_add, Nat.zero_add]

theorem reached_succ (text : Array Char) (n : Nat) :
    reached text (n + 1) = past text n (reached text n) := by
  rw [← walk_reached]
  rfl

theorem reached_congr {text text' : Array Char} :
    ∀ n, (∀ i < n, text'[i]? = text[i]?) → reached text' n = reached text n
  | 0, _ => rfl
  | n + 1, h => by
    have ih := reached_congr n fun i hi => h i (Nat.lt_succ_of_lt hi)
    rw [reached_succ, reached_succ, ih, past, past, h n (Nat.lt_succ_self n)]

theorem toNat_reached (text : Array Char) : ∀ n, n + 1 < 2 ^ 32 →
    (reached text n).line.toNat = lineAt text.toList n ∧
      (reached text n).column.toNat = columnAt text.toList n
  | 0, _ => by simp [reached, walk, first, lineAt, columnAt, afterFeed]
  | n + 1, hn => by
    obtain ⟨hline, hcolumn⟩ := toNat_reached text n (by omega)
    have hl := lineAt_le text.toList n
    have hc := columnAt_le text.toList n
    rw [reached_succ, past, lineAt_succ, columnAt_succ, Array.getElem?_toList]
    split
    · refine ⟨?_, rfl⟩
      simp only [UInt32.toNat_add, UInt32.toNat_ofNat, hline]
      omega
    · refine ⟨hline, ?_⟩
      simp only [UInt32.toNat_add, UInt32.toNat_ofNat, hcolumn]
      omega

end LineColumn

namespace PositionCache

/-- All that a cache knows is where a walk from the start arrives. -/
def Walked (cache : PositionCache) (text : Array Char) : Prop :=
  ∀ i here, cache.known i = some here → here = LineColumn.reached text i

def arrival (text : Array Char) (offset : Nat) : Position :=
  ⟨offset, (LineColumn.reached text offset).line, (LineColumn.reached text offset).column⟩

theorem size_ofLength (length : Nat) : (ofLength length).slots.size = length + 1 := by
  simp [ofLength]

theorem size_position (cache : PositionCache) (text : Array Char) (offset : Nat) :
    (cache.position text offset).2.slots.size = cache.slots.size := by
  simp [position]

theorem size_location (cache : PositionCache) (text : Array Char) (start stop : Nat) :
    (cache.location text start stop).2.slots.size = cache.slots.size := by
  change ((cache.position text start).2.position text stop).2.slots.size = _
  rw [size_position, size_position]

theorem known_put {slots : Array (Option LineColumn)} {i j : Nat} {place here : LineColumn}
    (h : known ⟨slots.setIfInBounds j (some place)⟩ i = some here) :
    i = j ∧ here = place ∨ known ⟨slots⟩ i = some here := by
  simp only [known, Array.getElem?_setIfInBounds] at h
  split at h
  · next hj =>
    split at h
    · exact .inl ⟨hj.symm, (Option.some.inj h).symm⟩
    · simp at h
  · exact .inr h

theorem walked_ofLength (text : Array Char) (length : Nat) : (ofLength length).Walked text := by
  intro i here h
  rcases known_put h with ⟨rfl, rfl⟩ | h
  · rfl
  · simp only [known, Array.getElem?_replicate] at h
    split at h <;> simp at h

theorem nearest_le (cache : PositionCache) : ∀ offset, (cache.nearest offset).1 ≤ offset
  | 0 => Nat.le_refl 0
  | offset + 1 => by
    unfold nearest
    split
    · exact Nat.le_refl _
    · exact Nat.le_succ_of_le (nearest_le cache offset)

theorem Walked.nearest (h : cache.Walked text) : ∀ offset,
    (cache.nearest offset).2 = LineColumn.reached text (cache.nearest offset).1
  | 0 => by
    unfold PositionCache.nearest
    cases hk : cache.known 0 with
    | none => rfl
    | some here => exact h 0 here hk
  | offset + 1 => by
    unfold PositionCache.nearest
    split
    · next here hk => exact h _ here hk
    · exact h.nearest offset

theorem Walked.walk_nearest (h : cache.Walked text) {k : Nat} (hk : (cache.nearest offset).1 ≤ k) :
    LineColumn.walk text (cache.nearest offset).1 (k - (cache.nearest offset).1)
      (cache.nearest offset).2 = LineColumn.reached text k := by
  rw [h.nearest, LineColumn.walk_reached, Nat.add_sub_cancel' hk]

theorem Walked.position (h : cache.Walked text) (offset : Nat) :
    (cache.position text offset).1 = arrival text (min offset (cache.slots.size - 1)) ∧
      (cache.position text offset).2.Walked text := by
  have hwalk := h.walk_nearest (nearest_le cache (min offset (cache.slots.size - 1)))
  unfold PositionCache.position
  dsimp only
  rw [hwalk]
  refine ⟨rfl, ?_⟩
  intro i here hk
  rcases known_put hk with ⟨rfl, rfl⟩ | hk
  · rfl
  · exact h i here hk

theorem Walked.location (h : cache.Walked text) (start stop : Nat) :
    (cache.location text start stop).1 =
        ⟨arrival text (min start (cache.slots.size - 1)),
          arrival text (min stop (cache.slots.size - 1))⟩ ∧
      (cache.location text start stop).2.Walked text := by
  obtain ⟨hstart, hwalked⟩ := h.position start
  obtain ⟨hstop, hwalked'⟩ := hwalked.position stop
  rw [size_position] at hstop
  exact ⟨congrArg₂ Location.mk hstart hstop, hwalked'⟩

theorem location_ofLength (text : Array Char) (length start stop : Nat) :
    ((ofLength length).location text start stop).1 =
      ⟨arrival text (min start length), arrival text (min stop length)⟩ := by
  have h := ((walked_ofLength text length).location start stop).1
  rwa [size_ofLength, Nat.add_sub_cancel] at h

theorem marks_arrival (hs : text.size + 1 < 2 ^ 32) (h : offset ≤ text.size) :
    (arrival text offset).Marks text.toList := by
  obtain ⟨hline, hcolumn⟩ := LineColumn.toNat_reached text offset (by omega)
  refine ⟨hline, hcolumn.trans ?_⟩
  rw [columnAt, Array.length_toList, Nat.sub_eq_zero_of_le h]
  rfl

end PositionCache

end FuncScript

import FuncScript.Proofs.Places

/-!
Many questions to one cache. Each is answered as if it were the first, by counting the characters
before the place that it is about, and no number on the way there grows too large.
-/

namespace FuncScript

/-- One more than the line, or than the column, as the character at a place asks for, is a number
that there is room for. -/
def LineColumn.HasRoom (text : Array Char) (offset : Nat) (here : LineColumn) : Prop :=
  if text[offset]? = some '\n' then here.line.toNat + 1 < 2 ^ 32 else here.column.toNat + 1 < 2 ^ 32

def Position.coordinates (p : Position) : Nat × Nat × Nat := (p.offset, p.line.toNat, p.column.toNat)

namespace PositionCache

inductive Query where
  | position (offset : Nat)
  | location (start stop : Nat)
  deriving DecidableEq, Repr

def Query.offsets : Query → List Nat
  | .position offset => [offset]
  | .location start stop => [start, stop]

def ask (cache : PositionCache) (text : Array Char) : Query → List Position × PositionCache
  | .position offset =>
    let (p, cache) := cache.position text offset
    ([p], cache)
  | .location start stop =>
    let (l, cache) := cache.location text start stop
    ([l.start, l.stop], cache)

def answers (text : Array Char) (cache : PositionCache) : List Query → List (List Position)
  | [] => []
  | q :: rest => (cache.ask text q).1 :: answers text (cache.ask text q).2 rest

def asked (text : Array Char) (cache : PositionCache) (queries : List Query) : PositionCache :=
  queries.foldl (fun cache q => (cache.ask text q).2) cache

def count (text : List Char) (length offset : Nat) : Nat × Nat × Nat :=
  (min offset length, lineAt text (min offset length), columnAt text (min offset length))

def SearchHasRoom (text : Array Char) (cache : PositionCache) (offset : Nat) : Prop :=
  let place := min offset (cache.slots.size - 1)
  let (start, here) := cache.nearest place
  ∀ k, start + k < place → (LineColumn.walk text start k here).HasRoom text (start + k)

variable {text : Array Char} {cache : PositionCache} {length : Nat} {queries : List Query}

structure Serves (cache : PositionCache) (text : Array Char) (length : Nat) : Prop where
  size : cache.slots.size = length + 1
  walked : cache.Walked text

theorem serves_ofLength (text : Array Char) (length : Nat) : (ofLength length).Serves text length :=
  ⟨size_ofLength length, walked_ofLength text length⟩

theorem Serves.ask (h : cache.Serves text length) (q : Query) :
    (cache.ask text q).1 = q.offsets.map (fun n => arrival text (min n length)) ∧
      (cache.ask text q).2.Serves text length := by
  have hlast : cache.slots.size - 1 = length := by
    rw [h.size, Nat.add_sub_cancel]
  cases q with
  | position offset =>
    obtain ⟨hanswer, hwalked⟩ := h.walked.position offset
    rw [hlast] at hanswer
    exact ⟨congrArg (fun p => [p]) hanswer, (size_position _ _ _).trans h.size, hwalked⟩
  | location start stop =>
    obtain ⟨hanswer, hwalked⟩ := h.walked.location start stop
    rw [hlast] at hanswer
    exact ⟨congrArg (fun l : Location => [l.start, l.stop]) hanswer,
      (size_location _ _ _ _).trans h.size, hwalked⟩

theorem Serves.answers (h : cache.Serves text length) (queries : List Query) :
    cache.answers text queries =
      queries.map fun q => q.offsets.map fun n => arrival text (min n length) := by
  induction queries generalizing cache with
  | nil => rfl
  | cons q queries ih =>
    obtain ⟨hanswer, hserves⟩ := h.ask q
    rw [PositionCache.answers, List.map_cons, hanswer, ih hserves]

theorem Serves.asked (h : cache.Serves text length) (queries : List Query) :
    (cache.asked text queries).Serves text length := by
  induction queries generalizing cache with
  | nil => exact h
  | cons q queries ih => exact ih (h.ask q).2

theorem coordinates_arrival {n : Nat} (h : n + 1 < 2 ^ 32) :
    (arrival text n).coordinates = (n, lineAt text.toList n, columnAt text.toList n) := by
  obtain ⟨hline, hcolumn⟩ := LineColumn.toNat_reached text n h
  rw [Position.coordinates, arrival, hline, hcolumn]

theorem hasRoom_reached {n : Nat} (h : n + 2 < 2 ^ 32) :
    (LineColumn.reached text n).HasRoom text n := by
  obtain ⟨hline, hcolumn⟩ := LineColumn.toNat_reached text n (by omega)
  have hl := lineAt_le text.toList n
  have hc := columnAt_le text.toList n
  unfold LineColumn.HasRoom
  split
  · omega
  · omega

theorem Serves.searchHasRoom (h : cache.Serves text length) (hlength : length + 1 < 2 ^ 32)
    (offset : Nat) : cache.SearchHasRoom text offset := by
  have hlast : cache.slots.size - 1 = length := by
    rw [h.size, Nat.add_sub_cancel]
  unfold SearchHasRoom
  rw [hlast]
  intro place k hk
  have hplace : place ≤ length := Nat.min_le_right offset length
  rw [h.walked.nearest, LineColumn.walk_reached]
  apply hasRoom_reached
  omega

/-- Whatever was asked before, a question is answered by counting; and there is room for every
number that a further search would add to. -/
theorem answers_eq_count (text : Array Char) (length : Nat) (queries : List Query)
    (hlength : length < 2 ^ 32 - 1) :
    ((ofLength length).answers text queries).map (List.map Position.coordinates) =
        queries.map (fun q => q.offsets.map (count text.toList length)) ∧
      ∀ offset, ((ofLength length).asked text queries).SearchHasRoom text offset := by
  have hserves := serves_ofLength text length
  constructor
  · rw [hserves.answers, List.map_map]
    apply List.map_congr_left
    intro q _
    rw [Function.comp, List.map_map]
    apply List.map_congr_left
    intro n _
    apply coordinates_arrival
    omega
  · exact (hserves.asked queries).searchHasRoom (by omega)

theorem answers_eq_count_of_jumps :
    let text := #['a', '\n', 'b', '\n', 'c', 'd']
    let queries : List Query := [.position 5, .position 9, .location 3 1]
    5 < 2 ^ 32 - 1 ∧
      ((ofLength 5).answers text queries).map (List.map Position.coordinates) =
        [[(5, 3, 2)], [(5, 3, 2)], [(3, 2, 2), (1, 1, 2)]] := by
  intro text queries
  have hlength : 5 < 2 ^ 32 - 1 := by decide
  refine ⟨hlength, (answers_eq_count text 5 queries hlength).1.trans ?_⟩
  decide

end PositionCache

end FuncScript

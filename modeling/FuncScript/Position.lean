/-!
Offsets of a text as lines and columns, both counted from one. Only a line feed ends a line.
Places found once are kept, and a later search starts from the nearest of them.
-/

namespace FuncScript

structure LineColumn where
  line : UInt32
  column : UInt32
  deriving DecidableEq, Repr

structure Position where
  offset : Nat
  line : UInt32
  column : UInt32
  deriving DecidableEq, Repr

structure Location where
  start : Position
  stop : Position
  deriving DecidableEq, Repr

namespace LineColumn

def first : LineColumn := ⟨1, 1⟩

def past (text : Array Char) (offset : Nat) (here : LineColumn) : LineColumn :=
  if text[offset]? = some '\n' then ⟨here.line + 1, 1⟩ else ⟨here.line, here.column + 1⟩

def walk (text : Array Char) (offset : Nat) : Nat → LineColumn → LineColumn
  | 0, here => here
  | count + 1, here => walk text (offset + 1) count (past text offset here)

end LineColumn

/-- Slot `i` holds the place of offset `i` once it is known. -/
structure PositionCache where
  slots : Array (Option LineColumn)

namespace PositionCache

def ofLength (length : Nat) : PositionCache :=
  ⟨(Array.replicate (length + 1) none).setIfInBounds 0 (some .first)⟩

def known (cache : PositionCache) (offset : Nat) : Option LineColumn :=
  (cache.slots[offset]?).join

def nearest (cache : PositionCache) : Nat → Nat × LineColumn
  | 0 => (0, (cache.known 0).getD .first)
  | offset + 1 =>
    match cache.known (offset + 1) with
    | some here => (offset + 1, here)
    | none => nearest cache offset

def position (cache : PositionCache) (text : Array Char) (offset : Nat) :
    Position × PositionCache :=
  let offset := min offset (cache.slots.size - 1)
  let (start, here) := cache.nearest offset
  let place := LineColumn.walk text start (offset - start) here
  (⟨offset, place.line, place.column⟩, ⟨cache.slots.setIfInBounds offset (some place)⟩)

def location (cache : PositionCache) (text : Array Char) (start stop : Nat) :
    Location × PositionCache :=
  let (first, cache) := cache.position text start
  let (last, cache) := cache.position text stop
  (⟨first, last⟩, cache)

end PositionCache

end FuncScript

/-!
The characters with the White_Space property, and the text that is left when a run of them is
taken off the end.
-/

namespace FuncScript.Blank

/-- The White_Space property, range by range. -/
def ranges : List (Nat × Nat) :=
  [(0x09, 0x0D), (0x20, 0x20), (0x85, 0x85), (0xA0, 0xA0), (0x1680, 0x1680), (0x2000, 0x200A),
    (0x2028, 0x2029), (0x202F, 0x202F), (0x205F, 0x205F), (0x3000, 0x3000)]

def isBlank (c : Char) : Bool :=
  ranges.any fun r => decide (r.1 ≤ c.toNat) && decide (c.toNat ≤ r.2)

theorem isBlank_of_isWhitespace {c : Char} (h : c.isWhitespace = true) : isBlank c = true := by
  simp only [Char.isWhitespace, Bool.or_eq_true, decide_eq_true_eq] at h
  rcases h with ((rfl | rfl) | rfl) | rfl <;> decide

def trimEnd (s : List Char) : List Char := (s.reverse.dropWhile isBlank).reverse

def trailing (s : List Char) : List Char := (s.reverse.takeWhile isBlank).reverse

theorem trimEnd_append_trailing (s : List Char) : trimEnd s ++ trailing s = s := by
  rw [trimEnd, trailing, ← List.reverse_append, List.takeWhile_append_dropWhile,
    List.reverse_reverse]

end FuncScript.Blank

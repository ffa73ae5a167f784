namespace FuncScript.Hex

def upper (n : Nat) : Char :=
  if n < 10 then Char.ofNat (48 + n) else Char.ofNat (55 + n)

def lower (n : Nat) : Char :=
  if n < 10 then Char.ofNat (48 + n) else Char.ofNat (87 + n)

def value (c : Char) : Nat :=
  if '0' ≤ c ∧ c ≤ '9' then c.toNat - 48
  else if 'a' ≤ c ∧ c ≤ 'f' then c.toNat - 87
  else c.toNat - 55

def four (digit : Nat → Char) (n : Nat) : List Char :=
  [digit (n / 4096 % 16), digit (n / 256 % 16), digit (n / 16 % 16), digit (n % 16)]

def read (cs : List Char) : Nat := cs.foldl (fun n c => 16 * n + value c) 0

theorem value_upper {n : Nat} (h : n < 16) : value (upper n) = n := by
  have : ∀ k : Fin 16, value (upper k) = k := by decide
  exact this ⟨n, h⟩

theorem value_lower {n : Nat} (h : n < 16) : value (lower n) = n := by
  have : ∀ k : Fin 16, value (lower k) = k := by decide
  exact this ⟨n, h⟩

theorem read_four_upper {n : Nat} (h : n < 65536) : read (four upper n) = n := by
  simp only [read, four, List.foldl_cons, List.foldl_nil]
  rw [value_upper (by omega), value_upper (by omega), value_upper (by omega),
    value_upper (by omega)]
  omega

end FuncScript.Hex

import FuncScript.Number.Shortest
import FuncScript.Proofs.Magnitude

/-!
The shortest decimal of a finite number reads back as that number. A grid gives a neighbour only
if it does, the whole expansion always does, and zeros at the end of a coefficient do not count.
-/

namespace FuncScript.Decimal

variable {d : Decimal} {tie : Tie} {m : Nat}

theorem denominator_pos (d : Decimal) : 0 < d.denominator := Nat.pow_pos (by decide)

theorem readsAs_iff : d.readsAs m = true ↔
    Binary64.nearestMagnitude d.numerator d.denominator = m := by
  rw [readsAs, decide_eq_true_eq]

theorem coefficient_ne_zero (h : d.readsAs m = true) (hm : m ≠ 0) : d.coefficient ≠ 0 := by
  intro hc
  apply hm
  rw [← readsAs_iff.mp h, numerator, hc, Nat.zero_mul,
    Binary64.nearestMagnitude_zero (denominator_pos d)]

theorem readsAs_carry (coefficient : Nat) (exponent : Int) (m : Nat) :
    readsAs ⟨10 * coefficient, exponent⟩ m = readsAs ⟨coefficient, exponent + 1⟩ m := by
  have hratio : numerator ⟨10 * coefficient, exponent⟩ * denominator ⟨coefficient, exponent + 1⟩ =
      numerator ⟨coefficient, exponent + 1⟩ * denominator ⟨10 * coefficient, exponent⟩ := by
    simp only [numerator, denominator, Nat.pow_eq]
    by_cases h : 0 ≤ exponent
    · have h₁ : (exponent + 1).toNat = exponent.toNat + 1 := by omega
      have h₂ : (-exponent).toNat = 0 := by omega
      have h₃ : (-(exponent + 1)).toNat = 0 := by omega
      rw [h₁, h₂, h₃, Nat.pow_succ]
      ac_rfl
    · have h₁ : exponent.toNat = 0 := by omega
      have h₂ : (exponent + 1).toNat = 0 := by omega
      have h₃ : (-exponent).toNat = (-(exponent + 1)).toNat + 1 := by omega
      rw [h₁, h₂, h₃, Nat.pow_succ]
      ac_rfl
  unfold readsAs
  rw [Binary64.nearestMagnitude_congr (denominator_pos _) (denominator_pos _) hratio]

theorem readsAs_stripped (bound : Nat) (d : Decimal) (m : Nat) :
    (stripped bound d).readsAs m = d.readsAs m := by
  induction bound generalizing d with
  | zero => rfl
  | succ bound ih =>
    unfold stripped
    split
    · next h =>
      have hd : 10 * (d.coefficient / 10) = d.coefficient := by omega
      rw [ih, ← readsAs_carry, hd]
    · rfl

theorem readsAs_onGrid {exponent : Int} (h : onGrid tie m exponent = some d) :
    d.readsAs m = true := by
  unfold onGrid at h
  dsimp only at h
  split at h
  · next hbelow =>
    split at h
    · next habove =>
      obtain rfl := Option.some.inj h
      exact (Bool.and_eq_true _ _ ▸ habove).1
    · obtain rfl := Option.some.inj h
      exact hbelow
  · split at h
    · next habove =>
      obtain rfl := Option.some.inj h
      exact habove
    · cases h

theorem readsAs_expansion {n : Nat} (hc : d.coefficient = Binary64.units m * Nat.pow 5 n)
    (hp : d.exponent.toNat = 0) (hn : (-d.exponent).toNat = n)
    (hs : Nat.pow 5 n * Binary64.one = Nat.pow 10 n) (h : m < Binary64.infiniteMagnitude) :
    d.readsAs m = true := by
  have hone : 0 < Binary64.one := by decide +kernel
  have hratio : d.numerator * Binary64.one = Binary64.units m * d.denominator := by
    have hten : Nat.pow 10 0 = 1 := rfl
    rw [numerator, denominator, hc, hp, hn, ← hs, hten, Nat.mul_one, Nat.mul_assoc]
  rw [readsAs_iff, Binary64.nearestMagnitude_congr (denominator_pos d) hone hratio]
  exact Binary64.nearestMagnitude_units h.le

theorem readsAs_exact (h : m < Binary64.infiniteMagnitude) : (exact m).readsAs m = true := by
  have hs : Nat.pow 5 1074 * Binary64.one = Nat.pow 10 1074 := by decide +kernel
  rw [exact, readsAs_stripped]
  exact readsAs_expansion rfl rfl rfl hs h

theorem getD_map_of {α β : Type} {P : β → Prop} {f : α → β} {found : Option α} {b : β}
    (hs : ∀ a, found = some a → P (f a)) (hn : P b) : P ((found.map f).getD b) := by
  cases found with
  | none => exact hn
  | some a => exact hs a rfl

theorem readsAs_shortest (tie : Tie) (h : m < Binary64.infiniteMagnitude) :
    (shortest tie m).readsAs m = true := by
  rw [shortest]
  apply getD_map_of (P := fun d : Decimal => d.readsAs m = true)
  · intro d hd
    obtain ⟨n, _, hgrid⟩ := List.exists_of_findSome?_eq_some hd
    rw [readsAs_stripped]
    exact readsAs_onGrid hgrid
  · exact readsAs_exact h

end FuncScript.Decimal

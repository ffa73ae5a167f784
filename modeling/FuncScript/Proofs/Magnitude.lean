import Mathlib.Algebra.Order.Field.Rat
import Mathlib.Data.Nat.Cast.Order.Field
import Mathlib.Data.Rat.Cast.Order
import Mathlib.Tactic.FieldSimp
import Mathlib.Tactic.Linarith
import Mathlib.Tactic.Positivity
import Mathlib.Tactic.Ring
import FuncScript.Number.Binary64

/-!
The magnitude nearest to a ratio. Numbers are rounded to the leading 53 bits, which gives the nearest
magnitude, and of two that are as near the even one; there is only one such. What is less than a
finite magnitude is rounded to a finite one.
-/

namespace FuncScript.Binary64

/-- The number that a magnitude stands for. That of infinity stands for the next power of two, since
numbers are rounded to infinity from half way to it. -/
def ratio (m : Nat) : ℚ := units m / one

/-- Of all magnitudes the nearest to a number, and of two that are as near the even one. -/
structure Nearest (q : ℚ) (m : Nat) : Prop where
  le : m ≤ infiniteMagnitude
  nearest : ∀ k ≤ infiniteMagnitude, |q - ratio m| ≤ |q - ratio k|
  even : ∀ k ≤ infiniteMagnitude, k ≠ m → |q - ratio m| = |q - ratio k| → m % 2 = 0

theorem one_pos : (0 : ℚ) < one := by
  have hone : 0 < one := by decide +kernel
  exact_mod_cast hone

theorem binade_pos : 0 < binade := by decide

theorem binade_mod_two : binade % 2 = 0 := by decide

theorem units_add {e r : Nat} (hr : r ≤ 2 * binade) (he : e = 0 ∨ binade ≤ r) :
    units (e * binade + r) = r * 2 ^ e := by
  have hb := binade_pos
  rcases Nat.lt_or_ge r binade with hlt | hge
  · obtain rfl : e = 0 := he.resolve_right (Nat.not_le.mpr hlt)
    rw [units, Nat.zero_mul, Nat.zero_add, if_pos hlt, Nat.pow_zero, Nat.mul_one]
  · obtain ⟨f, rfl⟩ := Nat.exists_eq_add_of_le hge
    have hsum : e * binade + (binade + f) = (e + 1) * binade + f := by ring
    rw [hsum, units, if_neg (by rw [Nat.succ_mul]; omega)]
    rcases Nat.lt_or_ge f binade with hf | hf
    · have hdiv : ((e + 1) * binade + f) / binade = e + 1 := by
        rw [Nat.add_comm, Nat.add_mul_div_right _ _ hb, Nat.div_eq_of_lt hf, Nat.zero_add]
      have hmod : ((e + 1) * binade + f) % binade = f := by
        rw [Nat.add_comm, Nat.add_mul_mod_self_right, Nat.mod_eq_of_lt hf]
      rw [hdiv, hmod]
      rfl
    · obtain rfl : f = binade := by omega
      have hdiv : ((e + 1) * binade + binade) / binade = e + 2 := by
        rw [← Nat.succ_mul, Nat.mul_div_cancel _ hb]
      have hmod : ((e + 1) * binade + binade) % binade = 0 := by
        rw [← Nat.succ_mul, Nat.mul_mod_left]
      rw [hdiv, hmod]
      change binade * 2 ^ (e + 1) = _
      rw [Nat.pow_succ]
      ring

theorem exists_units (m : Nat) :
    ∃ e r, m = e * binade + r ∧ r < 2 * binade ∧ (e = 0 ∨ binade ≤ r) := by
  have hb := binade_pos
  have hsplit := Nat.div_add_mod m binade
  have hmod := Nat.mod_lt m hb
  rcases hd : m / binade with _ | e
  · refine ⟨0, m, by omega, ?_, .inl rfl⟩
    rw [hd] at hsplit
    omega
  · refine ⟨e, binade + m % binade, ?_, by omega, .inr (by omega)⟩
    rw [hd, Nat.mul_succ, Nat.mul_comm] at hsplit
    omega

theorem units_lt_succ (m : Nat) : units m < units (m + 1) := by
  obtain ⟨e, r, rfl, hr, he⟩ := exists_units m
  rw [Nat.add_assoc, units_add (by omega) he, units_add (by omega) (he.imp_right (by omega))]
  exact Nat.mul_lt_mul_of_pos_right (Nat.lt_succ_self r) (Nat.two_pow_pos e)

theorem units_strictMono : StrictMono units := strictMono_nat_of_lt_succ units_lt_succ

theorem ratio_strictMono : StrictMono ratio := by
  intro m k h
  have hlt : (units m : ℚ) < units k := by exact_mod_cast units_strictMono h
  exact div_lt_div_of_pos_right hlt one_pos

theorem exists_units_eq_mul {e k : Nat} (h : e = 0 ∨ e * binade + binade ≤ k) :
    ∃ t, units k = t * 2 ^ e := by
  obtain ⟨f, r, rfl, hr, hf⟩ := exists_units k
  have hef : e ≤ f := by
    rcases h with rfl | h
    · exact Nat.zero_le f
    · by_contra hlt
      have hmul : (f + 1) * binade ≤ e * binade := Nat.mul_le_mul_right _ (by omega)
      rw [Nat.succ_mul] at hmul
      omega
  refine ⟨r * 2 ^ (f - e), ?_⟩
  rw [units_add (Nat.le_of_lt hr) hf, Nat.mul_assoc, ← Nat.pow_add, Nat.sub_add_cancel hef]

theorem two_mul_abs_roundHalfEven {den : Nat} (num : Nat) (hd : 0 < den) :
    2 * |(num : ℤ) - den * roundHalfEven num den| ≤ den ∧
      (2 * |(num : ℤ) - den * roundHalfEven num den| = den → roundHalfEven num den % 2 = 0) := by
  have hsplit : (num : ℤ) = den * (num / den : Nat) + (num % den : Nat) := by
    exact_mod_cast (Nat.div_add_mod num den).symm
  have hmod := Nat.mod_lt num hd
  unfold roundHalfEven
  dsimp only
  generalize num / den = q at hsplit ⊢
  generalize num % den = r at hsplit hmod ⊢
  have down : (num : ℤ) - den * q = r := by rw [hsplit]; ring
  have up : (num : ℤ) - den * (q + 1 : Nat) = r - den := by rw [hsplit]; push_cast; ring
  split
  · rw [down, abs_of_nonneg (by omega)]
    omega
  · split
    · rw [up, abs_of_nonpos (by omega)]
      omega
    · rcases Nat.mod_two_eq_zero_or_one q with hq | hq <;> rw [hq]
      · rw [Nat.add_zero, down, abs_of_nonneg (by omega)]
        omega
      · rw [up, abs_of_nonpos (by omega)]
        omega

theorem abs_sub_roundHalfEven {den : Nat} (num : Nat) (hd : 0 < den) :
    |(num / den : ℚ) - roundHalfEven num den| ≤ 1 / 2 ∧
      (|(num / den : ℚ) - roundHalfEven num den| = 1 / 2 → roundHalfEven num den % 2 = 0) := by
  have hden : (0 : ℚ) < den := by exact_mod_cast hd
  obtain ⟨hle, heq⟩ := two_mul_abs_roundHalfEven num hd
  generalize roundHalfEven num den = m at hle heq ⊢
  have hdist : |(num / den : ℚ) - m| = (|(num : ℤ) - den * m| : ℤ) / den := by
    push_cast
    rw [div_sub' hden.ne', abs_div, abs_of_pos hden]
  rw [hdist, div_le_div_iff₀ hden two_pos, div_eq_div_iff hden.ne' two_ne_zero, one_mul, mul_comm]
  exact ⟨by exact_mod_cast hle, fun h => heq (by exact_mod_cast h)⟩

theorem abs_sub_le_of_half {y : ℚ} {r t : ℤ} (h : |y - r| ≤ 1 / 2) :
    |y - r| ≤ |y - t| ∧ (t ≠ r → |y - r| = |y - t| → |y - r| = 1 / 2) := by
  by_cases htr : t = r
  · subst htr
    exact ⟨le_rfl, fun hne => absurd rfl hne⟩
  · have hone : (1 : ℚ) ≤ |(r : ℚ) - t| := by
      exact_mod_cast Int.one_le_abs (sub_ne_zero.mpr (Ne.symm htr))
    have htri : |(r : ℚ) - t| ≤ |y - r| + |y - t| := by
      rw [abs_sub_comm y r]
      exact abs_sub_le _ _ _
    exact ⟨by linarith, fun _ he => by linarith⟩

variable {num den m k : Nat} {q : ℚ}

theorem Nearest.unique (h : Nearest q m) (h' : Nearest q k) : m = k := by
  wlog hlt : m < k generalizing m k
  · rcases Nat.lt_or_ge k m with hk | hk
    · exact (this h' h hk).symm
    · omega
  have heq : |q - ratio m| = |q - ratio k| :=
    le_antisymm (h.nearest k h'.le) (h'.nearest m h.le)
  have hm := h.even k h'.le hlt.ne' heq
  have hk := h'.even m h.le hlt.ne heq.symm
  have hlow : ratio m < ratio (m + 1) := ratio_strictMono (by omega)
  have hhigh : ratio (m + 1) < ratio k := ratio_strictMono (by omega)
  have hmid : q - ratio m = ratio k - q := by
    rcases abs_eq_abs.mp heq with hs | hs <;> linarith
  have hbetween := h.nearest (m + 1) (by have := h'.le; omega)
  rw [abs_of_nonneg (by linarith : 0 ≤ q - ratio m)] at hbetween
  have hnearer : |q - ratio (m + 1)| < q - ratio m := abs_lt.mpr ⟨by linarith, by linarith⟩
  exact absurd hbetween (not_le.mpr hnearer)

theorem abs_sub_ratio (x : ℚ) (m : Nat) : |x / one - ratio m| = |x - units m| / one := by
  rw [ratio, ← sub_div, abs_div, abs_of_pos one_pos]

theorem abs_sub_units_le {x : ℚ} {e r : Nat} (hr : r ≤ 2 * binade)
    (he : e = 0 ∨ binade ≤ r ∧ (binade * 2 ^ e : ℚ) ≤ x) (h : |x / 2 ^ e - r| ≤ 1 / 2)
    (heven : |x / 2 ^ e - r| = 1 / 2 → r % 2 = 0) (k : Nat) :
    |x - units (e * binade + r)| ≤ |x - units k| ∧ (k ≠ e * binade + r →
      |x - units (e * binade + r)| = |x - units k| → (e * binade + r) % 2 = 0) := by
  have hpow : (0 : ℚ) < 2 ^ e := by positivity
  have hunits : (units (e * binade + r) : ℚ) = r * 2 ^ e := by
    rw [units_add hr (he.imp_right And.left)]
    push_cast
    rfl
  have hdist : ∀ t : Nat, |x - t * 2 ^ e| = |x / 2 ^ e - t| * 2 ^ e := by
    intro t
    rw [← abs_of_pos hpow, ← abs_mul, sub_mul, abs_of_pos hpow, div_mul_cancel₀ x hpow.ne']
  have hnear : ∀ t : Nat, |x / 2 ^ e - r| ≤ |x / 2 ^ e - t| ∧
      (t ≠ r → |x / 2 ^ e - r| = |x / 2 ^ e - t| → |x / 2 ^ e - r| = 1 / 2) := by
    intro t
    have := abs_sub_le_of_half (y := x / 2 ^ e) (r := r) (t := t) (by exact_mod_cast h)
    exact_mod_cast this
  rw [hunits, hdist r]
  by_cases hk : e = 0 ∨ e * binade + binade ≤ k
  · obtain ⟨t, ht⟩ := exists_units_eq_mul hk
    have htq : (units k : ℚ) = t * 2 ^ e := by exact_mod_cast ht
    rw [htq, hdist t]
    refine ⟨mul_le_mul_of_nonneg_right (hnear t).1 hpow.le, fun hne heq => ?_⟩
    have htr : t ≠ r := by
      rintro rfl
      exact hne (units_strictMono.injective (by rw [ht, units_add hr (he.imp_right And.left)]))
    have hrem := heven ((hnear t).2 htr (mul_right_cancel₀ hpow.ne' heq))
    rw [Nat.add_mod, Nat.mul_mod, binade_mod_two, hrem, Nat.mul_zero]
  · -- What lies below the binade is farther away than its foot, which is a whole number of steps.
    obtain ⟨he0, hlt⟩ := not_or.mp hk
    have hfoot : (binade * 2 ^ e : ℚ) ≤ x := (he.resolve_left he0).2
    have hbelow : (units k : ℚ) < binade * 2 ^ e := by
      have hlt' := units_strictMono (Nat.lt_of_not_le hlt)
      rw [units_add (by omega) (.inr le_rfl)] at hlt'
      exact_mod_cast hlt'
    have hstep := mul_le_mul_of_nonneg_right (hnear binade).1 hpow.le
    rw [← hdist binade, abs_of_nonneg (sub_nonneg.mpr hfoot)] at hstep
    have hfar : |x / 2 ^ e - r| * 2 ^ e < |x - units k| := by
      rw [abs_of_nonneg (a := x - units k) (by linarith)]
      linarith
    exact ⟨hfar.le, fun _ heq => absurd heq hfar.ne⟩

theorem roundHalfEven_bounds (num den : Nat) :
    num / den ≤ roundHalfEven num den ∧ roundHalfEven num den ≤ num / den + 1 := by
  unfold roundHalfEven
  dsimp only
  split
  · omega
  · split <;> omega

theorem abs_sub_lt_of_beyond {x : ℚ} {n : Nat} (hn : infiniteMagnitude < n)
    (h : |x - units n| ≤ |x - units infiniteMagnitude|) (hk : k < infiniteMagnitude) :
    |x - units infiniteMagnitude| < |x - units k| := by
  have hin : (units infiniteMagnitude : ℚ) < units n := by exact_mod_cast units_strictMono hn
  have hki : (units k : ℚ) < units infiniteMagnitude := by exact_mod_cast units_strictMono hk
  have hx : (units infiniteMagnitude : ℚ) < x := by
    by_contra hle
    rw [abs_of_nonpos (by linarith), abs_of_nonpos (by linarith)] at h
    linarith
  rw [abs_of_pos (by linarith), abs_of_pos (by linarith)]
  linarith

theorem rounded_bounds (s den : Nat) :
    roundHalfEven s (den * 2 ^ ((s / den).log2 - 52)) ≤ 2 * binade ∧
      ((s / den).log2 - 52 = 0 ∨ binade ≤ roundHalfEven s (den * 2 ^ ((s / den).log2 - 52)) ∧
        binade * 2 ^ ((s / den).log2 - 52) ≤ s / den) := by
  obtain ⟨hlow, hhigh⟩ := roundHalfEven_bounds s (den * 2 ^ ((s / den).log2 - 52))
  rw [← Nat.div_div_eq_div_mul] at hlow hhigh
  generalize s / den = b at hlow hhigh ⊢
  have hb : binade = 2 ^ 52 := rfl
  have hlt : b / 2 ^ (b.log2 - 52) < 2 * binade := by
    rw [Nat.div_lt_iff_lt_mul (Nat.two_pow_pos _), hb, Nat.mul_comm 2, ← Nat.pow_succ, ← Nat.pow_add]
    exact Nat.lt_of_lt_of_le Nat.lt_log2_self (Nat.pow_le_pow_right (by omega) (by omega))
  refine ⟨by omega, ?_⟩
  by_cases he : b.log2 - 52 = 0
  · exact .inl he
  · have hfoot : binade * 2 ^ (b.log2 - 52) ≤ b := by
      rw [hb, ← Nat.pow_add, Nat.add_sub_cancel' (by omega)]
      apply Nat.log2_self_le
      rintro rfl
      simp at he
    have hle := (Nat.le_div_iff_mul_le (Nat.two_pow_pos (b.log2 - 52))).mpr hfoot
    exact .inr ⟨by omega, hfoot⟩

theorem exists_leading (num : Nat) (hd : 0 < den) : ∃ e r : Nat,
    nearestMagnitude num den = min infiniteMagnitude (e * binade + r) ∧ r ≤ 2 * binade ∧
      (e = 0 ∨ binade ≤ r ∧ (binade * 2 ^ e : ℚ) ≤ num / den * one) ∧
      |(num / den * one : ℚ) / 2 ^ e - r| ≤ 1 / 2 ∧
      (|(num / den * one : ℚ) / 2 ^ e - r| = 1 / 2 → r % 2 = 0) := by
  obtain ⟨hr, he⟩ := rounded_bounds (num * one) den
  have hround := abs_sub_roundHalfEven (num * one)
    (Nat.mul_pos hd (Nat.two_pow_pos ((num * one / den).log2 - 52)))
  have hx : (num / den * one : ℚ) = (num * one : Nat) / den := by
    push_cast
    ring
  refine ⟨_, _, rfl, hr, he.imp_right fun h => ⟨h.1, ?_⟩, ?_⟩
  · rw [hx]
    have hle : (binade * 2 ^ ((num * one / den).log2 - 52) : ℚ) ≤ (num * one / den : Nat) := by
      exact_mod_cast h.2
    exact hle.trans Nat.cast_div_le
  · rw [hx, div_div]
    exact_mod_cast hround

theorem nearest_nearestMagnitude (num : Nat) (hd : 0 < den) :
    Nearest (num / den) (nearestMagnitude num den) := by
  obtain ⟨e, r, hm, hr, he, hhalf, heven⟩ := exists_leading num hd
  have hq : (num / den : ℚ) = num / den * one / one := (mul_div_cancel_right₀ _ one_pos.ne').symm
  rw [hm, hq]
  generalize (num / den * one : ℚ) = x at he hhalf heven ⊢
  have hnear := abs_sub_units_le hr he hhalf heven
  rcases Nat.lt_or_ge infiniteMagnitude (e * binade + r) with hlt | hle
  · have hbeyond := fun k => abs_sub_lt_of_beyond (k := k) hlt (hnear infiniteMagnitude).1
    rw [Nat.min_eq_left (Nat.le_of_lt hlt)]
    refine ⟨le_rfl, fun k hk => ?_, fun k hk hne heq => ?_⟩
    · rcases Nat.lt_or_eq_of_le hk with hk | rfl
      · rw [abs_sub_ratio, abs_sub_ratio]
        exact div_le_div_of_nonneg_right (hbeyond k hk).le one_pos.le
      · exact le_rfl
    · rw [abs_sub_ratio, abs_sub_ratio, div_left_inj' one_pos.ne'] at heq
      exact absurd heq (hbeyond k (by omega)).ne
  · rw [Nat.min_eq_right hle]
    refine ⟨hle, fun k _ => ?_, fun k _ hne heq => (hnear k).2 hne ?_⟩
    · rw [abs_sub_ratio, abs_sub_ratio]
      exact div_le_div_of_nonneg_right (hnear k).1 one_pos.le
    · rwa [abs_sub_ratio, abs_sub_ratio, div_left_inj' one_pos.ne'] at heq

theorem nearest_iff (num : Nat) (hd : 0 < den) :
    Nearest (num / den) m ↔ nearestMagnitude num den = m := by
  constructor
  · exact fun h => (nearest_nearestMagnitude num hd).unique h
  · rintro rfl
    exact nearest_nearestMagnitude num hd

theorem nearestMagnitude_congr {num' den' : Nat} (hd : 0 < den) (hd' : 0 < den')
    (h : num * den' = num' * den) : nearestMagnitude num den = nearestMagnitude num' den' := by
  have hq : (num / den : ℚ) = num' / den' := by
    rw [div_eq_div_iff (by positivity) (by positivity)]
    exact_mod_cast h
  rw [← nearest_iff num hd, hq]
  exact nearest_nearestMagnitude num' hd'

theorem nearest_ratio (h : m ≤ infiniteMagnitude) : Nearest (ratio m) m := by
  refine ⟨h, fun k _ => ?_, fun k _ hne heq => ?_⟩
  · rw [sub_self, abs_zero]
    exact abs_nonneg _
  · rw [sub_self, abs_zero, eq_comm, abs_eq_zero, sub_eq_zero] at heq
    exact absurd (ratio_strictMono.injective heq).symm hne

theorem nearestMagnitude_units (h : m ≤ infiniteMagnitude) :
    nearestMagnitude (units m) one = m :=
  (nearest_iff (units m) (by decide +kernel)).mp (nearest_ratio h)

theorem nearestMagnitude_zero (hd : 0 < den) : nearestMagnitude 0 den = 0 := by
  apply (nearest_iff 0 hd).mp
  have hunits : units 0 = 0 := by decide +kernel
  have hzero : ((0 : Nat) / den : ℚ) = ratio 0 := by
    rw [ratio, hunits, Nat.cast_zero, zero_div, zero_div]
  rw [hzero]
  exact nearest_ratio (Nat.zero_le _)

theorem Nearest.lt_infinite (h : Nearest q m) (hk : k < infiniteMagnitude) (hq : q < ratio k) :
    m < infiniteMagnitude := by
  apply Nat.lt_of_le_of_ne h.le
  rintro rfl
  have hlt : ratio k < ratio infiniteMagnitude := ratio_strictMono hk
  have hle := h.nearest k hk.le
  rw [abs_of_neg (by linarith), abs_of_neg (by linarith)] at hle
  linarith

theorem nearestMagnitude_lt {bound : Nat} (hd : 0 < den) (h : num < den * bound)
    (hk : k < infiniteMagnitude) (hb : bound * one ≤ units k) :
    nearestMagnitude num den < infiniteMagnitude := by
  apply (nearest_nearestMagnitude num hd).lt_infinite hk
  have hden : (0 : ℚ) < den := by exact_mod_cast hd
  calc (num / den : ℚ) < bound := by
        rw [div_lt_iff₀' hden]
        exact_mod_cast h
    _ ≤ ratio k := by
        rw [ratio, le_div_iff₀ one_pos]
        exact_mod_cast hb

theorem infiniteMagnitude_lt_signBit : infiniteMagnitude < signBit := by decide +kernel

theorem toNat_bits_ofMagnitude (h : m ≤ infiniteMagnitude) (negative : Bool) :
    (ofMagnitude negative m).bits.toNat = m + if negative then signBit else 0 := by
  have hs := infiniteMagnitude_lt_signBit
  have h64 : 2 * signBit = 2 ^ 64 := by decide +kernel
  simp only [ofMagnitude, UInt64.toNat_ofNat', Nat.toUInt64_eq]
  apply Nat.mod_eq_of_lt
  split <;> omega

theorem negative_ofMagnitude (h : m ≤ infiniteMagnitude) (sign : Bool) :
    (ofMagnitude sign m).negative = sign := by
  have hs := infiniteMagnitude_lt_signBit
  rw [negative, toNat_bits_ofMagnitude h]
  cases sign with
  | false => exact decide_eq_false (by simp only [Bool.false_eq_true, if_false]; omega)
  | true => exact decide_eq_true (Nat.le_add_left _ _)

theorem magnitude_ofMagnitude (h : m ≤ infiniteMagnitude) (negative : Bool) :
    (ofMagnitude negative m).magnitude = m := by
  have hs := infiniteMagnitude_lt_signBit
  rw [magnitude, toNat_bits_ofMagnitude h]
  cases negative with
  | false => simp only [Bool.false_eq_true, if_false, Nat.add_zero]; exact Nat.mod_eq_of_lt (by omega)
  | true => simp only [if_true, Nat.add_mod_right]; exact Nat.mod_eq_of_lt (by omega)

theorem ofMagnitude_magnitude (x : Binary64) : ofMagnitude x.negative x.magnitude = x := by
  have hlt := x.bits.toNat_lt
  have h64 : 2 * signBit = 2 ^ 64 := by decide +kernel
  have hbits : x.magnitude + (if x.negative then signBit else 0) = x.bits.toNat := by
    unfold magnitude negative
    by_cases h : signBit ≤ x.bits.toNat
    · have hmod : x.bits.toNat % signBit = x.bits.toNat - signBit := by
        rw [Nat.mod_eq_sub_mod h, Nat.mod_eq_of_lt (by omega)]
      simp only [h, decide_true, if_true, hmod]
      omega
    · simp only [h, decide_false, Bool.false_eq_true, if_false, Nat.add_zero]
      exact Nat.mod_eq_of_lt (by omega)
  rw [ofMagnitude, hbits, Nat.toUInt64_eq, UInt64.ofNat_toNat]

theorem isFinite_ofMagnitude {m : Nat} (h : m ≤ infiniteMagnitude) (negative : Bool) :
    (ofMagnitude negative m).isFinite = decide (m < infiniteMagnitude) := by
  rw [isFinite, magnitude_ofMagnitude h]

theorem nearestMagnitude_le (num den : Nat) : nearestMagnitude num den ≤ infiniteMagnitude :=
  Nat.min_le_left _ _

theorem ofDigitChars_lt {cs : List Char} (h : ∀ c ∈ cs, c.toNat ≤ 57) :
    Nat.ofDigitChars 10 cs 0 < 10 ^ cs.length := by
  induction cs with
  | nil => simp
  | cons c cs ih =>
    have hc := h c List.mem_cons_self
    have hcs := ih fun d hd => h d (List.mem_cons_of_mem c hd)
    have h0 : '0'.toNat = 48 := rfl
    rw [Nat.ofDigitChars_cons, Nat.ofDigitChars_eq_ofDigitChars_zero, List.length_cons, Nat.pow_succ,
      Nat.mul_zero, Nat.zero_add, h0]
    have hle : 10 ^ cs.length * (c.toNat - 48) ≤ 10 ^ cs.length * 9 :=
      Nat.mul_le_mul_left _ (by omega)
    omega

theorem isFinite_ofNumeral (negative : Bool) {digits behind : List Char} {places : Nat}
    (hd : ∀ c ∈ digits ++ behind, c.toNat ≤ 57) (h : digits.length ≤ places)
    (hp : Nat.pow 10 places * one ≤ units (infiniteMagnitude - 1)) :
    (ofNumeral negative digits behind).isFinite = true := by
  rw [ofNumeral, isFinite_ofMagnitude (nearestMagnitude_le _ _), decide_eq_true_eq]
  apply nearestMagnitude_lt (Nat.pow_pos (by decide)) _ (by decide +kernel) hp
  calc Nat.ofDigitChars 10 (digits ++ behind) 0 < 10 ^ (digits ++ behind).length :=
        ofDigitChars_lt hd
    _ = 10 ^ behind.length * 10 ^ digits.length := by
        rw [List.length_append, Nat.add_comm, Nat.pow_add]
    _ ≤ 10 ^ behind.length * 10 ^ places :=
        Nat.mul_le_mul_left _ (Nat.pow_le_pow_right (by decide) h)

end FuncScript.Binary64

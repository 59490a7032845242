/-
Kairon/Lib/Binary64.lean

`math.ceil(a / b)` on non-negative integers, where `a / b` is a binary64:
the exact quotient rounded to 53 significant bits, to nearest with ties to
even.  The binary point is kept out of the way by scaling: a quotient with
integer part `n`, `2^52 ≤ n * unit < 2^53`, is a whole number of `1 / unit`.

`ceilTrueDiv_eq`: up to `a = 2^53` the rounding never reaches the integer
below, so the ceiling is the exact one.  Beyond that it can
(`ceilTrueDiv (2^53 + 1) (2^26)` is `2^27`).

Quotients are taken to be below the overflow threshold of the format.
-/
import Mathlib.Algebra.Order.Floor.Div
import Mathlib.Tactic.Ring
import Mathlib.Tactic.Linarith

namespace Binary64

/-- `num / den` rounded to the nearest integer, ties to even. -/
def roundHalfEven (num den : ℕ) : ℕ :=
  if 2 * (num % den) < den then num / den
  else if den < 2 * (num % den) then num / den + 1
  else if num / den % 2 = 0 then num / den
  else num / den + 1

/-- The ceiling of the binary64 nearest to `a / b`. -/
def ceilTrueDiv (a b : ℕ) : ℕ :=
  if a / b = 0 then if a = 0 then 0 else 1
  else if Nat.log2 (a / b) ≤ 52 then
    roundHalfEven (a * 2 ^ (52 - Nat.log2 (a / b))) b ⌈/⌉ 2 ^ (52 - Nat.log2 (a / b))
  else
    roundHalfEven a (b * 2 ^ (Nat.log2 (a / b) - 52)) * 2 ^ (Nat.log2 (a / b) - 52)

theorem roundHalfEven_le (num den : ℕ) : roundHalfEven num den ≤ num / den + 1 := by
  unfold roundHalfEven
  split_ifs <;> omega

theorem le_roundHalfEven (num den : ℕ) : num / den ≤ roundHalfEven num den := by
  unfold roundHalfEven
  split_ifs <;> omega

/-- Rounding down means the remainder is at most one half. -/
theorem roundHalfEven_eq_div {num den : ℕ} (h : roundHalfEven num den = num / den) :
    2 * (num % den) ≤ den := by
  unfold roundHalfEven at h
  split_ifs at h <;> omega

theorem roundHalfEven_of_dvd {num den : ℕ} (hden : 0 < den) (h : num % den = 0) :
    roundHalfEven num den = num / den := by
  unfold roundHalfEven
  rw [if_pos (by omega)]

/-- The ceiling lies just above the integer part unless the division is exact. -/
theorem ceilDiv_eq_of_mod {a b : ℕ} (hb : 0 < b) :
    a ⌈/⌉ b = if a % b = 0 then a / b else a / b + 1 := by
  rw [Nat.ceilDiv_eq_add_pred_div]
  have hdecomp := Nat.div_add_mod a b
  have hlt := Nat.mod_lt a hb
  split_ifs with h
  · rw [show a + b - 1 = b - 1 + b * (a / b) by omega, Nat.add_mul_div_left _ _ hb,
      Nat.div_eq_of_lt (by omega), Nat.zero_add]
  · rw [show a + b - 1 = (a % b - 1) + b * (a / b + 1) by rw [Nat.mul_add]; omega,
      Nat.add_mul_div_left _ _ hb, Nat.div_eq_of_lt (by omega), Nat.zero_add]

/-- A number of units strictly above `n` whole ones and at most `n + 1` has
ceiling `n + 1`. -/
theorem ceilDiv_unit {m n unit : ℕ} (hunit : 0 < unit) (hlo : n * unit < m)
    (hhi : m ≤ (n + 1) * unit) : m ⌈/⌉ unit = n + 1 := by
  refine le_antisymm ?_ ?_
  · rw [ceilDiv_le_iff_le_mul hunit]
    exact hhi.trans_eq (Nat.mul_comm _ _)
  · by_contra hlt
    have hle : m ⌈/⌉ unit ≤ n := by omega
    rw [ceilDiv_le_iff_le_mul hunit] at hle
    exact absurd hlo (not_lt.mpr (hle.trans_eq (Nat.mul_comm _ _)))

/-- The rounded quotient in the range where it has fraction bits. -/
theorem ceil_round_scaled {a b unit : ℕ} (hb : 0 < b) (hunit : 0 < unit)
    (hn : 2 ^ 52 ≤ a / b * unit) (ha : a ≤ 2 ^ 53) :
    roundHalfEven (a * unit) b ⌈/⌉ unit = a ⌈/⌉ b := by
  have hdecomp := Nat.div_add_mod a b
  have hscaled : a * unit = a % b * unit + b * (a / b * unit) := by
    conv_lhs => rw [← hdecomp]
    ring
  have hdiv : a * unit / b = a % b * unit / b + a / b * unit := by
    rw [hscaled, Nat.add_mul_div_left _ _ hb]
  have hmod : a * unit % b = a % b * unit % b := by
    rw [hscaled, Nat.add_mul_mod_self_left]
  rw [ceilDiv_eq_of_mod hb]
  split_ifs with hr
  · have hzero : a * unit % b = 0 := by rw [hmod, hr, Nat.zero_mul, Nat.zero_mod]
    rw [roundHalfEven_of_dvd hb hzero, hdiv, hr, Nat.zero_mul, Nat.zero_div, Nat.zero_add,
      ceilDiv_eq_of_mod hunit, if_pos (Nat.mul_mod_left _ _), Nat.mul_div_cancel _ hunit]
  · refine ceilDiv_unit hunit ?_ ?_
    · by_contra hle
      have hge := le_roundHalfEven (a * unit) b
      rw [hdiv] at hge
      have hsmall : a % b * unit / b = 0 := Nat.le_zero.mp (by linarith)
      have hlt : a % b * unit < b := by
        rcases (Nat.div_eq_zero_iff).mp hsmall with h | h
        · omega
        · exact h
      have hdown : roundHalfEven (a * unit) b = a * unit / b := by
        rw [hdiv, hsmall]
        linarith
      have hhalf := roundHalfEven_eq_div hdown
      rw [hmod, Nat.mod_eq_of_lt hlt] at hhalf
      -- the remainder is at least one, so `b` holds two units and `a` exceeds `2^53`
      have hr' : 1 ≤ a % b := by omega
      have hbunit : 2 * unit ≤ b := by nlinarith
      have hab : a / b * (2 * unit) ≤ a / b * b := Nat.mul_le_mul_left _ hbunit
      have hcomm : b * (a / b) = a / b * b := Nat.mul_comm _ _
      have htwice : a / b * (2 * unit) = 2 * (a / b * unit) := by ring
      omega
    · have hlt : a % b * unit / b < unit := by
        rw [Nat.div_lt_iff_lt_mul hb, Nat.mul_comm]
        exact Nat.mul_lt_mul_of_pos_left (Nat.mod_lt a hb) hunit
      have hle := roundHalfEven_le (a * unit) b
      rw [Nat.add_mul, Nat.one_mul]
      omega

/-- The ceiling of a positive quotient is positive. -/
theorem ceilTrueDiv_pos {a b : ℕ} (ha : 0 < a) : 0 < ceilTrueDiv a b := by
  unfold ceilTrueDiv
  split_ifs with hn ha0 hlog
  · omega
  · exact Nat.one_pos
  · have hunit : 0 < 2 ^ (52 - Nat.log2 (a / b)) := Nat.two_pow_pos _
    have hround : 0 < roundHalfEven (a * 2 ^ (52 - Nat.log2 (a / b))) b := by
      refine lt_of_lt_of_le ?_ (le_roundHalfEven _ _)
      refine lt_of_lt_of_le (Nat.pos_of_ne_zero hn) (Nat.div_le_div_right ?_)
      exact Nat.le_mul_of_pos_right a hunit
    by_contra hzero
    have hle : roundHalfEven (a * 2 ^ (52 - Nat.log2 (a / b))) b
        ⌈/⌉ 2 ^ (52 - Nat.log2 (a / b)) ≤ 0 := by omega
    rw [ceilDiv_le_iff_le_mul hunit] at hle
    omega
  · refine Nat.mul_pos ?_ (Nat.two_pow_pos _)
    refine lt_of_lt_of_le ?_ (le_roundHalfEven _ _)
    rw [← Nat.div_div_eq_div_mul]
    refine Nat.div_pos ?_ (Nat.two_pow_pos _)
    exact (Nat.pow_le_pow_right (by decide) (Nat.sub_le _ _)).trans (Nat.log2_self_le hn)

/-- Up to `2^53` the ceiling of the binary64 quotient is exact. -/
theorem ceilTrueDiv_eq {a b : ℕ} (hb : 0 < b) (ha : a ≤ 2 ^ 53) : ceilTrueDiv a b = a ⌈/⌉ b := by
  have hdecomp := Nat.div_add_mod a b
  have hlt := Nat.mod_lt a hb
  unfold ceilTrueDiv
  split_ifs with hn ha0 hlog
  · subst ha0
    rw [ceilDiv_eq_of_mod hb, if_pos (Nat.zero_mod b), Nat.zero_div]
  · have hmod : a % b ≠ 0 := by
      intro h
      rw [hn, h] at hdecomp
      omega
    rw [ceilDiv_eq_of_mod hb, if_neg hmod, hn]
  · have hpow : 2 ^ Nat.log2 (a / b) ≤ a / b := Nat.log2_self_le hn
    refine ceil_round_scaled hb (Nat.two_pow_pos _) ?_ ha
    calc 2 ^ 52 = 2 ^ Nat.log2 (a / b) * 2 ^ (52 - Nat.log2 (a / b)) := by
          rw [← Nat.pow_add]
          congr 1
          omega
      _ ≤ a / b * 2 ^ (52 - Nat.log2 (a / b)) := Nat.mul_le_mul_right _ hpow
  · -- only `2^53 / 1` has that many integer bits
    have hpow : 2 ^ Nat.log2 (a / b) ≤ a / b := Nat.log2_self_le hn
    have hbig : 2 ^ 53 ≤ a / b :=
      (Nat.pow_le_pow_right (by decide) (by omega)).trans hpow
    have hb1 : b = 1 := by
      by_contra hne
      have : 2 ≤ b := by omega
      have hmul : 2 * (a / b) ≤ b * (a / b) := Nat.mul_le_mul_right _ this
      omega
    subst hb1
    rw [Nat.div_one] at hbig
    obtain rfl : a = 2 ^ 53 := le_antisymm ha hbig
    decide

end Binary64

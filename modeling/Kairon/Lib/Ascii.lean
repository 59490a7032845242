/-
Kairon/Lib/Ascii.lean

Facts about ASCII characters, decided by trying them all.
-/
import Mathlib

namespace Kairon.Ascii

variable {c : Char}

/-- A property that all ASCII characters have. -/
theorem ascii_forall {p : Char → Bool} (h : (List.range 128).all fun n => p (Char.ofNat n))
    (hc : c.toNat < 128) : p c = true := by
  have hn := List.all_eq_true.mp h c.toNat (List.mem_range.mpr hc)
  rwa [Char.ofNat_toNat] at hn

theorem toNat_lt_of_isAlphanum (h : c.isAlphanum = true) : c.toNat < 128 := by
  simp only [Char.isAlphanum, Char.isAlpha, Char.isUpper, Char.isLower, Char.isDigit,
    Bool.or_eq_true, Bool.and_eq_true, decide_eq_true_eq, ge_iff_le, UInt32.le_iff_toNat_le] at h
  have hval : c.val.toNat = c.toNat := rfl
  simp at h
  omega

theorem toNat_lt_of_isDigit (h : c.isDigit = true) : c.toNat < 128 :=
  toNat_lt_of_isAlphanum (by rw [Char.isAlphanum, h, Bool.or_true])

end Kairon.Ascii

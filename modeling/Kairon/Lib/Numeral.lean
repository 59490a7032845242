/-
Kairon/Lib/Numeral.lean

Decimal numerals of a fixed width, and the order of the texts they make.

A text that is a row of fixed-width fields is ordered like the row of the
numbers in them (`append_lt_append_iff`, `digits_lt_iff`).  This is what makes
it sound to compare timestamps in ISO form as strings.
-/
import Mathlib.Data.List.Lex
import Mathlib.Algebra.Group.Defs
import Mathlib.Data.Char
import Mathlib.Algebra.Order.Monoid.Unbundled.Basic
import Mathlib.Tactic.IntervalCases

namespace Kairon.Numeral

/-! ### Lexicographic order, field by field -/

section Lex

variable {α : Type*} [LinearOrder α]

/-- Two rows whose first fields have one width are ordered by those, and by
the rest when they are equal. -/
theorem append_lt_append_iff {a b x y : List α} (h : a.length = b.length) :
    a ++ x < b ++ y ↔ a < b ∨ a = b ∧ x < y := by
  induction a generalizing b with
  | nil =>
    obtain rfl : b = [] := List.eq_nil_of_length_eq_zero h.symm
    simp
  | cons c a ih =>
    obtain - | ⟨d, b⟩ := b
    · simp at h
    · have hlen : a.length = b.length := by simpa using h
      simp only [List.cons_append, List.cons_lt_cons_iff, ih hlen, List.cons.injEq]
      constructor
      · rintro (hcd | ⟨rfl, hab | ⟨rfl, hxy⟩⟩)
        · exact .inl (.inl hcd)
        · exact .inl (.inr ⟨rfl, hab⟩)
        · exact .inr ⟨⟨rfl, rfl⟩, hxy⟩
      · rintro ((hcd | ⟨rfl, hab⟩) | ⟨⟨rfl, rfl⟩, hxy⟩)
        · exact .inl hcd
        · exact .inr ⟨rfl, .inl hab⟩
        · exact .inr ⟨rfl, .inr ⟨rfl, hxy⟩⟩

end Lex

/-! ### Numerals -/

/-- The last `w` decimal digits of `n`, most significant first. -/
def digits : ℕ → ℕ → List Char
  | 0, _ => []
  | w + 1, n => digits w (n / 10) ++ [Nat.digitChar (n % 10)]

@[simp] theorem length_digits (w n : ℕ) : (digits w n).length = w := by
  induction w generalizing n with
  | zero => rfl
  | succ w ih => simp [digits, ih]

theorem exists_digitChar_of_mem {c : Char} {w n : ℕ} (h : c ∈ digits w n) :
    ∃ d < 10, c = Nat.digitChar d := by
  induction w generalizing n with
  | zero => cases h
  | succ w ih =>
    rcases List.mem_append.1 h with hinit | hlast
    · exact ih hinit
    · exact ⟨n % 10, Nat.mod_lt _ (by decide), List.mem_singleton.1 hlast⟩

theorem digitChar_lt_iff {a b : ℕ} (ha : a < 10) (hb : b < 10) :
    Nat.digitChar a < Nat.digitChar b ↔ a < b := by
  interval_cases a <;> interval_cases b <;> decide

theorem digits_lt_iff {w m n : ℕ} (hm : m < 10 ^ w) (hn : n < 10 ^ w) :
    digits w m < digits w n ↔ m < n := by
  induction w generalizing m n with
  | zero =>
    have hm0 : m = 0 := by simpa using hm
    have hn0 : n = 0 := by simpa using hn
    simp [digits, hm0, hn0]
  | succ w ih =>
    rw [pow_succ] at hm hn
    have ihq := ih (m := m / 10) (n := n / 10) (by omega) (by omega)
    have ihq' := ih (m := n / 10) (n := m / 10) (by omega) (by omega)
    have hlen : (digits w (m / 10)).length = (digits w (n / 10)).length := by simp
    have hlast := digitChar_lt_iff (Nat.mod_lt m (by decide : 10 > 0))
      (Nat.mod_lt n (by decide : 10 > 0))
    -- equal leading digits are equal leading numbers, by the order both ways
    have heq : digits w (m / 10) = digits w (n / 10) ↔ m / 10 = n / 10 := by
      constructor
      · intro h
        have hle : ¬ m / 10 < n / 10 := fun hlt => lt_irrefl _ (h ▸ ihq.2 hlt)
        have hge : ¬ n / 10 < m / 10 := fun hlt => lt_irrefl _ (h ▸ ihq'.2 hlt)
        omega
      · intro h
        rw [h]
    simp only [digits]
    rw [append_lt_append_iff hlen, ihq, heq, List.cons_lt_cons_iff, hlast]
    simp only [List.not_lt_nil, and_false, or_false]
    omega

theorem digits_injOn (w : ℕ) : Set.InjOn (digits w) {n | n < 10 ^ w} := by
  intro m hm n hn heq
  have hle : ¬ m < n := fun hlt => lt_irrefl _ (heq ▸ (digits_lt_iff hm hn).2 hlt)
  have hge : ¬ n < m := fun hlt => lt_irrefl _ (heq ▸ (digits_lt_iff hn hm).2 hlt)
  omega

/-- A row that begins with a numeral is below one that begins with a larger
numeral, or with the same one before a larger rest. -/
theorem digits_append_lt {w m n : ℕ} {x y : List Char} (hm : m < 10 ^ w) (hn : n < 10 ^ w)
    (h : m < n ∨ m = n ∧ x < y) : digits w m ++ x < digits w n ++ y := by
  rw [append_lt_append_iff (by simp)]
  obtain hlt | ⟨rfl, hxy⟩ := h
  · exact .inl ((digits_lt_iff hm hn).2 hlt)
  · exact .inr ⟨rfl, hxy⟩

end Kairon.Numeral

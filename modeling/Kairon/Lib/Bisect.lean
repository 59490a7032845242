/-
Kairon/Lib/Bisect.lean

`bisect_right`: the insertion point behind the elements up to a value.

The list need not be sorted for the search to run.  It finds the point `p`
whenever the elements before `p` are at most `x` and those from `p` on are
greater (`bisectRight_eq`).
-/
import Mathlib

namespace Kairon.Bisect

variable {α : Type} [LinearOrder α]

/-- The loop on the half-open interval from `lo` to `hi`. -/
def search (a : List α) (x : α) : ℕ → ℕ → ℕ → ℕ
  | 0, lo, _ => lo
  | n + 1, lo, hi =>
    if lo < hi then
      match a[(lo + hi) / 2]? with
      | some y => if x < y then search a x n lo ((lo + hi) / 2)
          else search a x n ((lo + hi) / 2 + 1) hi
      | none => lo
    else lo

/-- `bisect.bisect_right`. -/
def bisectRight (a : List α) (x : α) : ℕ := search a x a.length 0 a.length

/-- The point splits the list at the value. -/
structure Splits (a : List α) (x : α) (p : ℕ) : Prop where
  le_length : p ≤ a.length
  before : ∀ i y, i < p → a[i]? = some y → y ≤ x
  behind : ∀ i y, p ≤ i → a[i]? = some y → x < y

theorem search_eq {a : List α} {x : α} {p : ℕ} (h : Splits a x p) {n lo hi : ℕ}
    (hlo : lo ≤ p) (hhi : p ≤ hi) (hlen : hi ≤ a.length) (hn : hi - lo ≤ n) :
    search a x n lo hi = p := by
  induction n generalizing lo hi with
  | zero =>
    rw [search]
    omega
  | succ n ih =>
    rw [search]
    by_cases hlt : lo < hi
    · rw [if_pos hlt]
      have hmid : (lo + hi) / 2 < a.length := by omega
      rw [List.getElem?_eq_getElem hmid]
      show (if x < a[(lo + hi) / 2] then _ else _) = p
      by_cases hx : x < a[(lo + hi) / 2]
      · -- the middle is behind the point
        rw [if_pos hx]
        have hp : p ≤ (lo + hi) / 2 := by
          by_contra hp
          exact absurd (h.before _ _ (by omega) (List.getElem?_eq_getElem hmid)) (not_le.2 hx)
        exact ih hlo hp (by omega) (by omega)
      · rw [if_neg hx]
        have hp : (lo + hi) / 2 < p := by
          by_contra hp
          exact hx (h.behind _ _ (by omega) (List.getElem?_eq_getElem hmid))
        exact ih (by omega) hhi hlen (by omega)
    · rw [if_neg hlt]
      omega

theorem bisectRight_eq {a : List α} {x : α} {p : ℕ} (h : Splits a x p) : bisectRight a x = p :=
  search_eq h (Nat.zero_le p) h.le_length le_rfl (by omega)

/-- A function that does not fall up to `n` has a point up to which it is at
most `x`. -/
theorem exists_split {f : ℕ → α} {n : ℕ} (hmono : ∀ i j, i ≤ j → j < n → f i ≤ f j) (x : α) :
    ∃ p ≤ n, (∀ i < p, f i ≤ x) ∧ ∀ i, p ≤ i → i < n → x < f i := by
  induction n with
  | zero => exact ⟨0, le_rfl, by simp, by simp⟩
  | succ n ih =>
    obtain ⟨p, hp, hbefore, hbehind⟩ := ih fun i j hij hj => hmono i j hij (by omega)
    by_cases hlast : f n ≤ x
    · -- then everything is
      exact ⟨n + 1, le_rfl, fun i hi => (hmono i n (by omega) (by omega)).trans hlast,
        fun i hi hi' => absurd hi' (by omega)⟩
    · refine ⟨p, by omega, hbefore, fun i hi hi' => ?_⟩
      by_cases hin : i < n
      · exact hbehind i hi hin
      · obtain rfl : i = n := by omega
        exact not_le.1 hlast

end Kairon.Bisect

/-
Kairon/Lib/Blocks.lean

Rows that are taken in blocks of one size.

`absorb` takes the full blocks of a row and leaves what is left over, so that what is
left over can be put in front of the next row (`absorb_append`): it does not matter
how a row is cut into parts.  `absorb_eq` says which blocks these are.
-/
import Mathlib

namespace Kairon.Blocks

variable {σ β : Type} (f : σ → List β → σ) (size : ℕ)

/-- The full blocks of a row. -/
def blocks (row : List β) : List (List β) :=
  (List.range (row.length / size)).map fun i => (row.drop (size * i)).take size

/-- The full blocks of a row, one after the other, and what is left over. -/
def absorb (s : σ) (row : List β) : σ × List β :=
  if 0 < size ∧ size ≤ row.length then absorb (f s (row.take size)) (row.drop size) else (s, row)
termination_by row.length
decreasing_by
  rw [List.length_drop]
  omega

variable {f size} {s : σ} {row : List β}

theorem absorb_of_le (hsize : 0 < size) (h : size ≤ row.length) :
    absorb f size s row = absorb f size (f s (row.take size)) (row.drop size) := by
  rw [absorb, if_pos ⟨hsize, h⟩]

theorem absorb_of_lt (h : row.length < size) : absorb f size s row = (s, row) := by
  rw [absorb, if_neg fun hle => absurd hle.2 (not_le.2 h)]

theorem absorb_block (hsize : 0 < size) {block : List β} (hblock : block.length = size)
    (rest : List β) : absorb f size s (block ++ rest) = absorb f size (f s block) rest := by
  rw [absorb_of_le hsize (by rw [List.length_append]; omega), ← hblock, List.take_left,
    List.drop_left]

/-- What is left over is taken up with the next row. -/
theorem absorb_append (hsize : 0 < size) (s : σ) (row more : List β) :
    absorb f size s (row ++ more) =
      absorb f size (absorb f size s row).1 ((absorb f size s row).2 ++ more) := by
  induction hn : row.length using Nat.strong_induction_on generalizing s row with
  | h n ih =>
    subst hn
    by_cases hle : size ≤ row.length
    · have hshort : (row.drop size).length < row.length := by
        rw [List.length_drop]
        omega
      have hsplit : row ++ more = row.take size ++ (row.drop size ++ more) := by
        rw [← List.append_assoc, List.take_append_drop]
      rw [absorb_of_le hsize hle, hsplit, absorb_block hsize (List.length_take_of_le hle),
        ih _ hshort _ _ rfl]
    · rw [absorb_of_lt (not_le.1 hle)]

theorem blocks_of_le (hsize : 0 < size) (h : size ≤ row.length) :
    blocks size row = row.take size :: blocks size (row.drop size) := by
  rw [blocks, blocks, List.length_drop, Nat.div_eq_sub_div hsize h, List.range_succ_eq_map,
    List.map_cons, List.map_map, Nat.mul_zero, List.drop_zero]
  refine congrArg _ (List.map_congr_left fun i _ => ?_)
  rw [Function.comp_apply, List.drop_drop, Nat.mul_succ, Nat.add_comm]

/-- What is taken and what is left over. -/
theorem absorb_eq (hsize : 0 < size) (s : σ) (row : List β) : absorb f size s row =
      ((blocks size row).foldl f s, row.drop (size * (row.length / size))) := by
  induction hn : row.length using Nat.strong_induction_on generalizing s row with
  | h n ih =>
    subst hn
    by_cases hle : size ≤ row.length
    · have hshort : (row.drop size).length < row.length := by
        rw [List.length_drop]
        omega
      have hcount : size + size * ((row.length - size) / size) = size * (row.length / size) := by
        rw [Nat.div_eq_sub_div hsize hle, Nat.mul_succ, Nat.add_comm]
      rw [absorb_of_le hsize hle, ih _ hshort _ _ rfl, blocks_of_le hsize hle, List.foldl_cons,
        List.length_drop, List.drop_drop, hcount]
    · have hzero : row.length / size = 0 := Nat.div_eq_of_lt (not_le.1 hle)
      rw [absorb_of_lt (not_le.1 hle), blocks, hzero]
      rfl

theorem length_rest_lt (hsize : 0 < size) (s : σ) (row : List β) :
    (absorb f size s row).2.length < size := by
  rw [absorb_eq hsize, List.length_drop]
  have hdiv := Nat.div_add_mod row.length size
  have hmod := Nat.mod_lt row.length hsize
  omega

end Kairon.Blocks

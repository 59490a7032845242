/-
Kairon/Lib/Wire.lean

Numbers in bytes, lowest byte first, and records of them.

`little` writes a number and `unsigned` reads it; `pack` writes a row of
fields, each a width and a value, and `unpack` reads the values of such a row
back if the bytes are as many as the widths say (`unpack_pack`).

`At bytes pos chunk` says that a chunk stands at a position.  A slice that is
cut out there is the chunk (`At.cut`), and the parts of a chunk stand in it
(`At.left`, `At.right`), so that a reader of positions is followed without
splitting the bytes again for every field.
-/
import Mathlib

namespace Kairon.Wire

/-! ### Numbers -/

/-- An unsigned integer, its lowest byte first. -/
def unsigned (bytes : List UInt8) : ℕ := bytes.foldr (fun b n => b.toNat + 256 * n) 0

/-- The lowest `width` bytes of a number. -/
def little : ℕ → ℕ → List UInt8
  | 0, _ => []
  | width + 1, n => UInt8.ofNat (n % 256) :: little width (n / 256)

@[simp] theorem length_little (width n : ℕ) : (little width n).length = width := by
  induction width generalizing n with
  | zero => rfl
  | succ width ih => rw [little, List.length_cons, ih]

theorem little_add (first second n : ℕ) :
    little (first + second) n = little first n ++ little second (n / 256 ^ first) := by
  induction first generalizing n with
  | zero => rw [Nat.zero_add, Nat.pow_zero, Nat.div_one, little, List.nil_append]
  | succ first ih =>
    rw [Nat.add_right_comm, little, little, ih, Nat.div_div_eq_div_mul, List.cons_append,
      Nat.pow_succ, Nat.mul_comm 256]

/-- Only the lowest bytes are written. -/
theorem little_mod (width n : ℕ) : little width (n % 256 ^ width) = little width n := by
  induction width generalizing n with
  | zero => rfl
  | succ width ih =>
    have hlast : n % 256 ^ (width + 1) % 256 = n % 256 :=
      Nat.mod_mod_of_dvd n (Dvd.intro_left (256 ^ width) rfl)
    have hrest : n % 256 ^ (width + 1) / 256 = n / 256 % 256 ^ width := by
      rw [Nat.pow_succ, Nat.mod_mul_left_div_self]
    rw [little, little, hlast, hrest, ih]

theorem unsigned_little {width n : ℕ} (h : n < 256 ^ width) : unsigned (little width n) = n := by
  induction width generalizing n with
  | zero =>
    have hn : n = 0 := Nat.lt_one_iff.1 h
    rw [hn]
    rfl
  | succ width ih =>
    have hdiv : n / 256 < 256 ^ width := by
      rw [pow_succ] at h
      exact Nat.div_lt_of_lt_mul (by rwa [Nat.mul_comm])
    have hbyte : (UInt8.ofNat (n % 256)).toNat = n % 256 := by
      rw [UInt8.toNat_ofNat']
      omega
    have hrest := ih hdiv
    rw [unsigned] at hrest
    rw [little, unsigned, List.foldr_cons, hrest, hbyte]
    exact Nat.mod_add_div n 256

/-- The lowest `width` bytes of a number, the highest one first. -/
def big (width n : ℕ) : List UInt8 := (little width n).reverse

/-- An unsigned integer, its highest byte first. -/
def unsignedBig (bytes : List UInt8) : ℕ := unsigned bytes.reverse

@[simp] theorem length_big (width n : ℕ) : (big width n).length = width := by
  rw [big, List.length_reverse, length_little]

theorem unsignedBig_big {width n : ℕ} (h : n < 256 ^ width) : unsignedBig (big width n) = n := by
  rw [unsignedBig, big, List.reverse_reverse, unsigned_little h]

/-! ### Records -/

/-- The numbers of the given widths, one behind the other. -/
def fields : List ℕ → List UInt8 → List ℕ
  | [], _ => []
  | width :: widths, bytes => unsigned (bytes.take width) :: fields widths (bytes.drop width)

/-- `struct.unpack`: the bytes must be as many as the format says. -/
def unpack (widths : List ℕ) (bytes : List UInt8) : Option (List ℕ) :=
  if bytes.length = widths.sum then some (fields widths bytes) else none

/-- The bytes of fields, of which each is a width and a value. -/
def pack (row : List (ℕ × ℕ)) : List UInt8 := row.flatMap fun field => little field.1 field.2

/-- The values of a row fit into its fields. -/
def Fit (row : List (ℕ × ℕ)) : Prop := ∀ field ∈ row, field.2 < 256 ^ field.1

instance (row : List (ℕ × ℕ)) : Decidable (Fit row) :=
  inferInstanceAs (Decidable (∀ field ∈ row, field.2 < 256 ^ field.1))

theorem length_pack (row : List (ℕ × ℕ)) : (pack row).length = (row.map Prod.fst).sum := by
  induction row with
  | nil => rfl
  | cons field row ih =>
    rw [pack] at ih
    rw [pack, List.flatMap_cons, List.length_append, ih, length_little, List.map_cons,
      List.sum_cons]

theorem fields_pack {row : List (ℕ × ℕ)} (h : Fit row) :
    fields (row.map Prod.fst) (pack row) = row.map Prod.snd := by
  induction row with
  | nil => rfl
  | cons field row ih =>
    have hrest := ih fun other hother => h other (.tail _ hother)
    have htake : (pack (field :: row)).take field.1 = little field.1 field.2 := by
      rw [pack, List.flatMap_cons, List.take_left' (length_little _ _)]
    have hdrop : (pack (field :: row)).drop field.1 = pack row := by
      rw [pack, List.flatMap_cons, List.drop_left' (length_little _ _)]
      rfl
    rw [List.map_cons, List.map_cons, fields, htake, hdrop, hrest,
      unsigned_little (h field (.head _))]

theorem unpack_pack {row : List (ℕ × ℕ)} (h : Fit row) :
    unpack (row.map Prod.fst) (pack row) = some (row.map Prod.snd) := by
  rw [unpack, if_pos (length_pack row), fields_pack h]

/-! ### Positions -/

section Positions

variable {bytes chunk more : List UInt8} {pos stop : ℕ}

/-- `bytes[start:stop]`. -/
def cut (bytes : List UInt8) (start stop : ℕ) : List UInt8 :=
  (bytes.drop start).take (stop - start)

/-- A chunk stands at a position. -/
def At (bytes : List UInt8) (pos : ℕ) (chunk : List UInt8) : Prop :=
  ∃ before after, bytes = before ++ (chunk ++ after) ∧ before.length = pos

theorem At.cut (h : At bytes pos chunk) (hstop : stop = pos + chunk.length) :
    cut bytes pos stop = chunk := by
  obtain ⟨before, after, rfl, rfl⟩ := h
  rw [Wire.cut, List.drop_left, hstop, Nat.add_sub_cancel_left, List.take_left]

theorem At.length_le (h : At bytes pos chunk) : pos + chunk.length ≤ bytes.length := by
  obtain ⟨before, after, rfl, rfl⟩ := h
  rw [List.length_append, List.length_append]
  omega

theorem At.left (h : At bytes pos (chunk ++ more)) : At bytes pos chunk := by
  obtain ⟨before, after, rfl, rfl⟩ := h
  exact ⟨before, more ++ after, by rw [List.append_assoc], rfl⟩

theorem At.right (h : At bytes pos (chunk ++ more)) : At bytes (pos + chunk.length) more := by
  obtain ⟨before, after, rfl, rfl⟩ := h
  refine ⟨before ++ chunk, after, ?_, List.length_append⟩
  rw [List.append_assoc, List.append_assoc]

/-- A slice of a chunk is a slice of the bytes it stands in. -/
theorem At.cut_add (h : At bytes pos chunk) {start : ℕ} (hstop : stop ≤ chunk.length) :
    Wire.cut bytes (pos + start) (pos + stop) = Wire.cut chunk start stop := by
  obtain ⟨before, after, rfl, rfl⟩ := h
  rw [Wire.cut, Wire.cut, ← List.drop_drop, List.drop_left, Nat.add_sub_add_left]
  rcases Nat.lt_or_ge stop start with hle | hle
  · rw [Nat.sub_eq_zero_of_le (Nat.le_of_lt hle), List.take_zero, List.take_zero]
  · rw [List.drop_append_of_le_length (hle.trans hstop), List.take_append_of_le_length]
    rw [List.length_drop]
    omega

theorem At.append (h : At bytes pos chunk) (more : List UInt8) : At (bytes ++ more) pos chunk := by
  obtain ⟨before, after, rfl, rfl⟩ := h
  exact ⟨before, after ++ more, by simp only [List.append_assoc], rfl⟩

theorem at_append (bytes chunk : List UInt8) : At (bytes ++ chunk) bytes.length chunk :=
  ⟨bytes, [], by rw [List.append_nil], rfl⟩

end Positions

end Kairon.Wire

/-
Kairon/Lib/Crc32.lean

CRC-32, bit by bit, and by bytes with a table.

`step` shifts the register by one bit, and `advance` by the bits of a byte.  A step is
linear (`step_xor`) and only shifts what has no low bits, so that the eight steps of a
register are those of its low byte and the rest shifted (`steps_eq`): this is what a
table of 256 words makes use of.  A byte is its bits, fed from the lowest on
(`advance_eq_feedBits`), and nothing is lost on the way: a message with one byte changed has
another register (`foldl_advance_modify_ne`).
-/
import Mathlib

namespace Kairon.Crc32

/-- The polynomial, its bits in reverse. -/
def polynomial : BitVec 32 := 0xEDB88320#32

/-- One bit. -/
def step (c : BitVec 32) : BitVec 32 :=
  (c >>> 1) ^^^ if c.getLsbD 0 then polynomial else 0#32

/-- The bits of one byte. -/
def advance (c : BitVec 32) (byte : UInt8) : BitVec 32 :=
  step^[8] (c ^^^ BitVec.ofNat 32 byte.toNat)

/-- CRC-32: the register starts with ones, and its bits are inverted at the end. -/
def crc32 (bytes : List UInt8) : BitVec 32 := ~~~ bytes.foldl advance (BitVec.allOnes 32)

/-- The check value of CRC-32. -/
example : crc32 ("123456789".toList.map fun c => UInt8.ofNat c.toNat) = 0xCBF43926#32 := by
  decide +kernel

theorem step_xor (x y : BitVec 32) : step (x ^^^ y) = step x ^^^ step y := by
  rw [step, step, step, BitVec.ushiftRight_xor_distrib, BitVec.getLsbD_xor]
  rcases x.getLsbD 0 with - | - <;> rcases y.getLsbD 0 with - | -
  · simp
  · simp only [Bool.false_bne, if_true, Bool.false_eq_true, if_false, BitVec.xor_zero]
    rw [BitVec.xor_assoc]
  · simp only [Bool.true_bne, Bool.not_false, if_true, Bool.false_eq_true, if_false,
      BitVec.xor_zero]
    ac_rfl
  · simp only [bne_self_eq_false, if_true, Bool.false_eq_true, if_false, BitVec.xor_zero]
    -- the polynomial comes in twice
    have htwice : (x >>> 1 ^^^ polynomial) ^^^ (y >>> 1 ^^^ polynomial) =
        x >>> 1 ^^^ y >>> 1 ^^^ (polynomial ^^^ polynomial) := by ac_rfl
    rw [htwice, BitVec.xor_self, BitVec.xor_zero]

theorem steps_xor (n : ℕ) (x y : BitVec 32) : step^[n] (x ^^^ y) = step^[n] x ^^^ step^[n] y := by
  induction n generalizing x y with
  | zero => rfl
  | succ n ih => rw [Function.iterate_succ_apply, step_xor, ih]; rfl

/-- A register without low bits is shifted. -/
theorem step_shifted (x : BitVec 32) {n : ℕ} (hn : n < 8) :
    step ((x >>> 8) <<< (n + 1)) = (x >>> 8) <<< n := by
  have hlow : ((x >>> 8) <<< (n + 1)).getLsbD 0 = false := by
    rw [BitVec.getLsbD_shiftLeft]
    simp
  rw [step, hlow, if_neg Bool.false_ne_true, BitVec.xor_zero]
  refine BitVec.eq_of_getLsbD_eq fun i hi => ?_
  rw [BitVec.getLsbD_ushiftRight, BitVec.getLsbD_shiftLeft, BitVec.getLsbD_shiftLeft,
    BitVec.getLsbD_ushiftRight, BitVec.getLsbD_ushiftRight]
  have hplace : 1 + i - (n + 1) = i - n := by omega
  by_cases hlast : i = 31
  · rw [BitVec.getLsbD_of_ge x (8 + (i - n)) (by omega), Bool.and_false, hplace,
      BitVec.getLsbD_of_ge x (8 + (i - n)) (by omega), Bool.and_false]
  · have hin : decide (1 + i < 32) = true := decide_eq_true (by omega)
    have hlt : decide (1 + i < n + 1) = decide (i < n) := by
      rw [decide_eq_decide]
      omega
    rw [hin, decide_eq_true hi, hlt, hplace]

theorem steps_shifted (x : BitVec 32) {n : ℕ} (hn : n ≤ 8) :
    step^[n] ((x >>> 8) <<< n) = x >>> 8 := by
  induction n with
  | zero => rw [BitVec.shiftLeft_zero]; rfl
  | succ n ih => rw [Function.iterate_succ_apply, step_shifted x hn, ih (by omega)]

theorem split_low (x : BitVec 32) : x = (x &&& 0xff#32) ^^^ (x >>> 8) <<< 8 := by
  refine BitVec.eq_of_getLsbD_eq fun i hi => ?_
  have hmask : (0xff#32).getLsbD i = decide (i < 8) := by
    rw [BitVec.getLsbD_ofNat, decide_eq_true hi, Bool.true_and]
    exact Nat.testBit_two_pow_sub_one 8 i
  rw [BitVec.getLsbD_xor, BitVec.getLsbD_and, hmask, BitVec.getLsbD_shiftLeft,
    BitVec.getLsbD_ushiftRight, decide_eq_true hi]
  by_cases hlow : i < 8
  · simp [hlow]
  · have hplace : 8 + (i - 8) = i := by omega
    simp [hlow, hplace]

/-- The eight steps of a register, by its low byte. -/
theorem steps_eq (x : BitVec 32) : step^[8] x = step^[8] (x &&& 0xff#32) ^^^ x >>> 8 := by
  conv_lhs => rw [split_low x]
  rw [steps_xor, steps_shifted x le_rfl]

/-! ### Bits -/

/-- One bit of the message, and the lowest bit of the register. -/
def feedBit (c : BitVec 32) (bit : Bool) : BitVec 32 :=
  (c >>> 1) ^^^ if c.getLsbD 0 != bit then polynomial else 0#32

/-- The bits of a byte, the lowest first. -/
def byteBits (byte : UInt8) : List Bool := (List.range 8).map byte.toNat.testBit

theorem feedBit_eq (c : BitVec 32) (bit : Bool) :
    feedBit c bit = step c ^^^ if bit then polynomial else 0#32 := by
  rw [feedBit, step]
  rcases c.getLsbD 0 with - | - <;> rcases bit with - | -
  · simp
  · simp
  · simp
  · simp only [bne_self_eq_false, if_true, Bool.false_eq_true, if_false, BitVec.xor_zero]
    rw [BitVec.xor_assoc, BitVec.xor_self, BitVec.xor_zero]

theorem step_zero : step 0#32 = 0#32 := by decide

theorem foldl_feedBit (bits : List Bool) (c : BitVec 32) :
    bits.foldl feedBit c = step^[bits.length] c ^^^ bits.foldl feedBit 0#32 := by
  induction bits generalizing c with
  | nil => rw [List.foldl_nil, List.foldl_nil, BitVec.xor_zero]; rfl
  | cons bit bits ih =>
    rw [List.foldl_cons, List.foldl_cons, ih, ih (feedBit 0#32 bit), feedBit_eq, feedBit_eq,
      step_zero, BitVec.zero_xor, steps_xor, List.length_cons, Function.iterate_succ_apply,
      BitVec.xor_assoc]

/-- The bits of one byte on an empty register. -/
theorem feedBits_zero (byte : UInt8) :
    (byteBits byte).foldl feedBit 0#32 = step^[8] (BitVec.ofNat 32 byte.toNat) := by
  have hbytes : ∀ n < 256, ((List.range 8).map (Nat.testBit n)).foldl feedBit 0#32 =
      step^[8] (BitVec.ofNat 32 n) := by decide +kernel
  exact hbytes byte.toNat byte.toNat_lt

theorem advance_eq_feedBits (c : BitVec 32) (byte : UInt8) :
    advance c byte = (byteBits byte).foldl feedBit c := by
  rw [advance, steps_xor, foldl_feedBit, feedBits_zero]
  rfl

theorem foldl_advance_eq (bytes : List UInt8) (c : BitVec 32) :
    bytes.foldl advance c = (bytes.flatMap byteBits).foldl feedBit c := by
  rw [List.foldl_flatMap]
  simp only [← advance_eq_feedBits]

/-! ### Nothing is lost -/

/-- The highest bit of the polynomial tells whether it came in. -/
theorem eq_zero_of_step {x : BitVec 32} (h : step x = 0#32) : x = 0#32 := by
  have hlow : x.getLsbD 0 = false := by
    have htop : (step x).getLsbD 31 = x.getLsbD 0 := by
      rw [step, BitVec.getLsbD_xor, BitVec.getLsbD_ushiftRight,
        BitVec.getLsbD_of_ge x (1 + 31) (by omega), Bool.false_xor]
      rcases x.getLsbD 0 with - | -
      · rfl
      · rfl
    rw [← htop, h]
    rfl
  rw [step, hlow, if_neg Bool.false_ne_true, BitVec.xor_zero] at h
  refine BitVec.eq_of_getLsbD_eq fun i hi => ?_
  rcases i with - | i
  · rw [hlow]
    rfl
  · have hbit : (x >>> 1).getLsbD i = x.getLsbD (i + 1) := by
      rw [BitVec.getLsbD_ushiftRight, Nat.add_comm]
    rw [← hbit, h, BitVec.getLsbD_zero, BitVec.getLsbD_zero]

theorem step_injective : Function.Injective step := by
  intro x y h
  have hzero : step (x ^^^ y) = 0#32 := by rw [step_xor, h, BitVec.xor_self]
  exact BitVec.xor_eq_zero_iff.mp (eq_zero_of_step hzero)

theorem advance_injective (byte : UInt8) : Function.Injective fun c => advance c byte := by
  intro c c' h
  exact (BitVec.xor_left_inj _).mp (step_injective.iterate 8 h)

theorem foldl_advance_injective (bytes : List UInt8) :
    Function.Injective fun c => bytes.foldl advance c := by
  induction bytes with
  | nil => exact Function.injective_id
  | cons byte bytes ih => exact ih.comp (advance_injective byte)

/-- Two bytes leave two registers. -/
theorem advance_byte_injective (c : BitVec 32) : Function.Injective (advance c) := by
  intro byte byte' h
  have hword := (BitVec.xor_right_inj _).mp (step_injective.iterate 8 h)
  have hnat := congrArg BitVec.toNat hword
  have hsmall := byte.toNat_lt
  have hsmall' := byte'.toNat_lt
  rw [BitVec.toNat_ofNat, BitVec.toNat_ofNat, Nat.mod_eq_of_lt (by omega),
    Nat.mod_eq_of_lt (by omega)] at hnat
  exact UInt8.toNat_inj.mp hnat

/-- **A message with one byte changed has another register.** -/
theorem foldl_advance_modify_ne {bytes : List UInt8} {place : ℕ} {change : UInt8 → UInt8}
    (hplace : place < bytes.length) (hchange : ∀ byte, change byte ≠ byte) (c : BitVec 32) :
    (bytes.modify place change).foldl advance c ≠ bytes.foldl advance c := by
  induction bytes generalizing place c with
  | nil => simp at hplace
  | cons byte bytes ih =>
    cases place with
    | zero =>
      rw [List.modify_zero_cons, List.foldl_cons, List.foldl_cons]
      intro h
      exact hchange byte (advance_byte_injective c (foldl_advance_injective bytes h))
    | succ place =>
      rw [List.modify_succ_cons, List.foldl_cons, List.foldl_cons]
      exact ih (Nat.lt_of_succ_lt_succ hplace) _

end Kairon.Crc32

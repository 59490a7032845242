/-
Kairon/Lib/Word32.lean

Bit operators on numbers, as in languages whose numbers are not words.

An operator takes the low 32 bits of its operands (`word`) and gives a number back:
a signed one (`or`, `and`, `xor`, `not`, `shl`), or an unsigned one for `>>>` and for
what is stored in an array of words (`shr`, `store`).  `word` turns each of them into
the operation on words, and sums into sums, so that it does not matter which of the
numbers of a word is at hand.
-/
import Mathlib

namespace Kairon.Word32

/-- The low 32 bits of a number. -/
def word (x : ℤ) : BitVec 32 := BitVec.ofInt 32 x

/-- `x | y`. -/
def or (x y : ℤ) : ℤ := (word x ||| word y).toInt

/-- `x & y`. -/
def and (x y : ℤ) : ℤ := (word x &&& word y).toInt

/-- `x ^ y`. -/
def xor (x y : ℤ) : ℤ := (word x ^^^ word y).toInt

/-- `~x`. -/
def not (x : ℤ) : ℤ := (~~~ word x).toInt

/-- `x << n`, for `n` less than 32. -/
def shl (x : ℤ) (n : ℕ) : ℤ := (word x <<< n).toInt

/-- `x >>> n`, for `n` less than 32. -/
def shr (x : ℤ) (n : ℕ) : ℤ := (word x >>> n).toNat

/-- What an array of unsigned words has after a number is stored. -/
def store (x : ℤ) : ℤ := (word x).toNat

theorem word_toInt (x : BitVec 32) : word x.toInt = x := BitVec.ofInt_toInt

theorem word_toNat (x : BitVec 32) : word x.toNat = x := by
  rw [word, BitVec.ofInt_natCast, BitVec.ofNat_toNat, BitVec.setWidth_eq]

@[simp] theorem word_natCast (n : ℕ) : word n = BitVec.ofNat 32 n := BitVec.ofInt_natCast 32 n

@[simp] theorem word_add (x y : ℤ) : word (x + y) = word x + word y := BitVec.ofInt_add x y

@[simp] theorem word_or (x y : ℤ) : word (or x y) = word x ||| word y := word_toInt _

@[simp] theorem word_and (x y : ℤ) : word (and x y) = word x &&& word y := word_toInt _

@[simp] theorem word_xor (x y : ℤ) : word (xor x y) = word x ^^^ word y := word_toInt _

@[simp] theorem word_not (x : ℤ) : word (not x) = ~~~ word x := word_toInt _

@[simp] theorem word_shl (x : ℤ) (n : ℕ) : word (shl x n) = word x <<< n := word_toInt _

@[simp] theorem word_shr (x : ℤ) (n : ℕ) : word (shr x n) = word x >>> n := word_toNat _

@[simp] theorem word_store (x : ℤ) : word (store x) = word x := word_toNat _

/-- `x | 0` is the signed number of the word. -/
theorem or_zero (x : ℤ) : or x 0 = (word x).toInt := by
  rw [or, show word 0 = 0#32 from rfl, BitVec.or_zero]

theorem ofNat_shl (a n : ℕ) : BitVec.ofNat 32 a <<< n = BitVec.ofNat 32 (a <<< n) := by
  refine BitVec.eq_of_toNat_eq ?_
  rw [BitVec.toNat_shiftLeft, BitVec.toNat_ofNat, BitVec.toNat_ofNat, Nat.shiftLeft_eq,
    Nat.shiftLeft_eq, Nat.mod_mul_mod]

/-- A word that is put together from four bytes. -/
theorem word_bytes {a b c d : ℕ} (hb : b < 256) (hc : c < 256) (hd : d < 256) :
    word (or (or (or (shl a 24) (shl b 16)) (shl c 8)) d) =
      BitVec.ofNat 32 (((a * 256 + b) * 256 + c) * 256 + d) := by
  have hor : ∀ {x y : ℕ}, y < 256 → x <<< 8 ||| y = x * 256 + y := by
    intro x y hy
    rw [← Nat.shiftLeft_add_eq_or_of_lt (show y < 2 ^ 8 from hy), Nat.shiftLeft_eq]
  -- the bytes are taken in one after the other
  have hnumber : a <<< 24 ||| b <<< 16 ||| c <<< 8 ||| d = ((a * 256 + b) * 256 + c) * 256 + d := by
    rw [← hor hd, ← hor hc, ← hor hb, Nat.shiftLeft_or_distrib, Nat.shiftLeft_or_distrib,
      Nat.shiftLeft_or_distrib, ← Nat.shiftLeft_add, ← Nat.shiftLeft_add, ← Nat.shiftLeft_add]
  rw [← hnumber]
  simp only [word_or, word_shl, word_natCast, BitVec.ofNat_or, ofNat_shl]

end Kairon.Word32

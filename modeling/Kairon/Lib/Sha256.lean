/-
Kairon/Lib/Sha256.lean

SHA-256 of FIPS 180-4, for messages of bytes.

The schedule is the recursion of the standard (`schedule`), a block is compressed in 64
rounds (`compress`), and a message is padded to full blocks (`pad`).  The constants are
the first 32 bits of the fractional parts of roots of the first primes.
-/
import Kairon.Lib.Blocks
import Kairon.Lib.Wire

namespace Kairon.Sha256

abbrev Word := BitVec 32

/-! ### Functions and constants -/

def ch (x y z : Word) : Word := (x &&& y) ^^^ (~~~ x &&& z)

def maj (x y z : Word) : Word := (x &&& y) ^^^ (x &&& z) ^^^ (y &&& z)

def bigSigma0 (x : Word) : Word := x.rotateRight 2 ^^^ x.rotateRight 13 ^^^ x.rotateRight 22

def bigSigma1 (x : Word) : Word := x.rotateRight 6 ^^^ x.rotateRight 11 ^^^ x.rotateRight 25

def smallSigma0 (x : Word) : Word := x.rotateRight 7 ^^^ x.rotateRight 18 ^^^ x >>> 3

def smallSigma1 (x : Word) : Word := x.rotateRight 17 ^^^ x.rotateRight 19 ^^^ x >>> 10

/-- The constants of the rounds. -/
def roundConstants : List ℕ :=
  [0x428a2f98, 0x71374491, 0xb5c0fbcf, 0xe9b5dba5, 0x3956c25b, 0x59f111f1, 0x923f82a4, 0xab1c5ed5,
    0xd807aa98, 0x12835b01, 0x243185be, 0x550c7dc3, 0x72be5d74, 0x80deb1fe, 0x9bdc06a7, 0xc19bf174,
    0xe49b69c1, 0xefbe4786, 0x0fc19dc6, 0x240ca1cc, 0x2de92c6f, 0x4a7484aa, 0x5cb0a9dc, 0x76f988da,
    0x983e5152, 0xa831c66d, 0xb00327c8, 0xbf597fc7, 0xc6e00bf3, 0xd5a79147, 0x06ca6351, 0x14292967,
    0x27b70a85, 0x2e1b2138, 0x4d2c6dfc, 0x53380d13, 0x650a7354, 0x766a0abb, 0x81c2c92e, 0x92722c85,
    0xa2bfe8a1, 0xa81a664b, 0xc24b8b70, 0xc76c51a3, 0xd192e819, 0xd6990624, 0xf40e3585, 0x106aa070,
    0x19a4c116, 0x1e376c08, 0x2748774c, 0x34b0bcb5, 0x391c0cb3, 0x4ed8aa4a, 0x5b9cca4f, 0x682e6ff3,
    0x748f82ee, 0x78a5636f, 0x84c87814, 0x8cc70208, 0x90befffa, 0xa4506ceb, 0xbef9a3f7, 0xc67178f2]

/-- Eight words, the state of the hash or the working variables. -/
structure Vars (α : Type) where
  a : α
  b : α
  c : α
  d : α
  e : α
  f : α
  g : α
  h : α

def Vars.toList {α : Type} (v : Vars α) : List α := [v.a, v.b, v.c, v.d, v.e, v.f, v.g, v.h]

def Vars.map {α β : Type} (f : α → β) (v : Vars α) : Vars β :=
  ⟨f v.a, f v.b, f v.c, f v.d, f v.e, f v.f, f v.g, f v.h⟩

/-- The first hash value. -/
def initial : Vars ℕ :=
  ⟨0x6a09e667, 0xbb67ae85, 0x3c6ef372, 0xa54ff53a, 0x510e527f, 0x9b05688c, 0x1f83d9ab, 0x5be0cd19⟩

/-! ### Blocks -/

def byteAt (block : List UInt8) (i : ℕ) : ℕ := (block.getD i 0).toNat

/-- A word of a block, its highest byte first. -/
def blockWord (block : List UInt8) (t : ℕ) : Word :=
  BitVec.ofNat 32 (((byteAt block (t * 4) * 256 + byteAt block (t * 4 + 1)) * 256 +
    byteAt block (t * 4 + 2)) * 256 + byteAt block (t * 4 + 3))

/-- The message schedule. -/
def schedule (block : List UInt8) (t : ℕ) : Word :=
  if t < 16 then blockWord block t
  else smallSigma1 (schedule block (t - 2)) + schedule block (t - 7) +
    smallSigma0 (schedule block (t - 15)) + schedule block (t - 16)

/-- A round. -/
def round (schedule : ℕ → Word) (v : Vars Word) (t : ℕ) : Vars Word :=
  let first := v.h + bigSigma1 v.e + ch v.e v.f v.g +
    BitVec.ofNat 32 (roundConstants.getD t 0) + schedule t
  let second := bigSigma0 v.a + maj v.a v.b v.c
  ⟨first + second, v.a, v.b, v.c, v.d + first, v.e, v.f, v.g⟩

def Vars.add (v w : Vars Word) : Vars Word :=
  ⟨v.a + w.a, v.b + w.b, v.c + w.c, v.d + w.d, v.e + w.e, v.f + w.f, v.g + w.g, v.h + w.h⟩

/-- The next hash value. -/
def compress (hash : Vars Word) (block : List UInt8) : Vars Word :=
  hash.add ((List.range 64).foldl (round (schedule block)) hash)

/-! ### Messages -/

/-- The fewest zeros that make the length, with the byte after the message, 56 more than full
blocks. -/
def zeros (length : ℕ) : ℕ := (119 - length % 64) % 64

def pad (message : List UInt8) : List UInt8 :=
  message ++ 0x80 :: List.replicate (zeros message.length) 0 ++
    (Wire.little 8 (8 * message.length)).reverse

/-- The hash value of a message. -/
def hash (message : List UInt8) : Vars Word :=
  (Blocks.blocks 64 (pad message)).foldl compress (initial.map (BitVec.ofNat 32))

/-- The digest, 32 bytes. -/
def digest (message : List UInt8) : List UInt8 :=
  (hash message).toList.flatMap fun word => (Wire.little 4 word.toNat).reverse

/-- Bytes as lower-case hexadecimal digits. -/
def hex (bytes : List UInt8) : List Char :=
  bytes.flatMap fun byte => [Nat.digitChar (byte.toNat / 16), Nat.digitChar (byte.toNat % 16)]

theorem schedule_of_lt {block : List UInt8} {t : ℕ} (h : t < 16) :
    schedule block t = blockWord block t := by
  rw [schedule, if_pos h]

theorem schedule_add (block : List UInt8) (n : ℕ) :
    schedule block (16 + n) = smallSigma1 (schedule block (16 + n - 2)) +
      schedule block (16 + n - 7) + smallSigma0 (schedule block (16 + n - 15)) +
        schedule block (16 + n - 16) := by
  rw [schedule, if_neg (by omega)]

/-- A padded message is full blocks. -/
theorem length_pad (message : List UInt8) : (pad message).length % 64 = 0 := by
  rw [pad, zeros]
  simp only [List.length_append, List.length_cons, List.length_replicate, List.length_reverse,
    Wire.length_little]
  omega

end Kairon.Sha256

/-
Kairon/Upload/IncrementalSha256.lean

`IncrementalSha256`: the hash of the browser, for chunks one after the other.

Numbers are exact, as they are below 2 ^ 53, and bit operators go through 32 bits
(`Word32`).  The typed arrays are
lists; `this.h` and the working variables are eight numbers each (`Vars ℤ`).
-/
import Kairon.Lib.Sha256
import Kairon.Lib.Word32
import Kairon.Search.Syntax

namespace Kairon.Upload

open Search (Text)
open Sha256 (Vars)

/-- `K`. -/
def roundTable : List ℤ :=
  [0x428a2f98, 0x71374491, 0xb5c0fbcf, 0xe9b5dba5, 0x3956c25b, 0x59f111f1, 0x923f82a4, 0xab1c5ed5,
    0xd807aa98, 0x12835b01, 0x243185be, 0x550c7dc3, 0x72be5d74, 0x80deb1fe, 0x9bdc06a7, 0xc19bf174,
    0xe49b69c1, 0xefbe4786, 0x0fc19dc6, 0x240ca1cc, 0x2de92c6f, 0x4a7484aa, 0x5cb0a9dc, 0x76f988da,
    0x983e5152, 0xa831c66d, 0xb00327c8, 0xbf597fc7, 0xc6e00bf3, 0xd5a79147, 0x06ca6351, 0x14292967,
    0x27b70a85, 0x2e1b2138, 0x4d2c6dfc, 0x53380d13, 0x650a7354, 0x766a0abb, 0x81c2c92e, 0x92722c85,
    0xa2bfe8a1, 0xa81a664b, 0xc24b8b70, 0xc76c51a3, 0xd192e819, 0xd6990624, 0xf40e3585, 0x106aa070,
    0x19a4c116, 0x1e376c08, 0x2748774c, 0x34b0bcb5, 0x391c0cb3, 0x4ed8aa4a, 0x5b9cca4f, 0x682e6ff3,
    0x748f82ee, 0x78a5636f, 0x84c87814, 0x8cc70208, 0x90befffa, 0xa4506ceb, 0xbef9a3f7, 0xc67178f2]

def rotr (x : ℤ) (n : ℕ) : ℤ := Word32.or (Word32.shr x n) (Word32.shl x (32 - n))

def xor3 (x y z : ℤ) : ℤ := Word32.xor (Word32.xor x y) z

/-! ### Typed arrays -/

/-- `array.subarray(start, stop)`. -/
def subarray (array : List UInt8) (start stop : ℕ) : List UInt8 := (array.take stop).drop start

/-- `array.set(source, offset)`. -/
def setBytes (array source : List UInt8) (offset : ℕ) : List UInt8 :=
  array.take offset ++ source ++ array.drop (offset + source.length)

/-- `view.setUint32(offset, value, false)`. -/
def setUint32 (array : List UInt8) (offset value : ℕ) : List UInt8 :=
  setBytes array (Wire.little 4 (value % 2 ^ 32)).reverse offset

/-! ### Blocks -/

def byteNumber (block : List UInt8) (i : ℕ) : ℤ := ((block.getD i 0).toNat : ℕ)

/-- `w[i]` for a word of the block. -/
def loadWord (block : List UInt8) (w : List ℤ) (i : ℕ) : List ℤ :=
  w.set i (Word32.store (Word32.or (Word32.or (Word32.or
    (Word32.shl (byteNumber block (i * 4)) 24) (Word32.shl (byteNumber block (i * 4 + 1)) 16))
    (Word32.shl (byteNumber block (i * 4 + 2)) 8)) (byteNumber block (i * 4 + 3))))

/-- `w[i]` for a later word. -/
def extendWord (w : List ℤ) (i : ℕ) : List ℤ :=
  let s0 := xor3 (rotr (w.getD (i - 15) 0) 7) (rotr (w.getD (i - 15) 0) 18)
    (Word32.shr (w.getD (i - 15) 0) 3)
  let s1 := xor3 (rotr (w.getD (i - 2) 0) 17) (rotr (w.getD (i - 2) 0) 19)
    (Word32.shr (w.getD (i - 2) 0) 10)
  w.set i (Word32.store (Word32.or (w.getD (i - 16) 0 + s0 + w.getD (i - 7) 0 + s1) 0))

/-- `w` after its two loops. -/
def expandBlock (block : List UInt8) : List ℤ :=
  (List.range' 16 48).foldl extendWord
    ((List.range 16).foldl (loadWord block) (List.replicate 64 0))

/-- A turn of the loop over the rounds. -/
def hashRound (w : List ℤ) (v : Vars ℤ) (i : ℕ) : Vars ℤ :=
  let s1 := xor3 (rotr v.e 6) (rotr v.e 11) (rotr v.e 25)
  let ch := Word32.xor (Word32.and v.e v.f) (Word32.and (Word32.not v.e) v.g)
  let temp1 := Word32.or (v.h + s1 + ch + roundTable.getD i 0 + w.getD i 0) 0
  let s0 := xor3 (rotr v.a 2) (rotr v.a 13) (rotr v.a 22)
  let maj := xor3 (Word32.and v.a v.b) (Word32.and v.a v.c) (Word32.and v.b v.c)
  let temp2 := Word32.or (s0 + maj) 0
  { h := v.g
    g := v.f
    f := v.e
    e := Word32.or (v.d + temp1) 0
    d := v.c
    c := v.b
    b := v.a
    a := Word32.or (temp1 + temp2) 0 }

/-- `this.h[i] = (this.h[i] + x) | 0`. -/
def addWord (h x : ℤ) : ℤ := Word32.store (Word32.or (h + x) 0)

def processBlock (h : Vars ℤ) (block : List UInt8) : Vars ℤ :=
  let v := (List.range 64).foldl (hashRound (expandBlock block)) h
  ⟨addWord h.a v.a, addWord h.b v.b, addWord h.c v.c, addWord h.d v.d, addWord h.e v.e,
    addWord h.f v.f, addWord h.g v.g, addWord h.h v.h⟩

/-! ### The hash -/

structure IncrementalSha256 where
  h : Vars ℤ := ⟨0x6a09e667, 0xbb67ae85, 0x3c6ef372, 0xa54ff53a, 0x510e527f, 0x9b05688c,
    0x1f83d9ab, 0x5be0cd19⟩
  buffer : List UInt8 := List.replicate 64 0
  bufferLength : ℕ := 0
  totalLength : ℕ := 0
  finalized : Bool := false

/-- `while (offset + 64 <= chunk.length)`. -/
def processWhole (chunk : List UInt8) (h : Vars ℤ) (offset : ℕ) : Vars ℤ × ℕ :=
  if offset + 64 ≤ chunk.length then
    processWhole chunk (processBlock h (subarray chunk offset (offset + 64))) (offset + 64)
  else (h, offset)
termination_by chunk.length - offset

/-- The part of `update` that fills the buffer, with the offset after it. -/
def IncrementalSha256.fill (s : IncrementalSha256) (chunk : List UInt8) :
    IncrementalSha256 × ℕ :=
  if 0 < s.bufferLength then
    let needed := 64 - s.bufferLength
    let take := min needed chunk.length
    let s := { s with
      buffer := setBytes s.buffer (subarray chunk 0 take) s.bufferLength
      bufferLength := s.bufferLength + take }
    if s.bufferLength = 64 then
      ({ s with h := processBlock s.h s.buffer, bufferLength := 0 }, take)
    else (s, take)
  else (s, 0)

def IncrementalSha256.update (s : IncrementalSha256) (chunk : List UInt8) :
    Except Text IncrementalSha256 :=
  if s.finalized then .error "Cannot update a finalized hash".toList
  else
    let filled := { s with totalLength := s.totalLength + chunk.length }.fill chunk
    let whole := processWhole chunk filled.1.h filled.2
    let s := { filled.1 with h := whole.1 }
    .ok (if whole.2 < chunk.length then
      { s with
        buffer := setBytes s.buffer (subarray chunk whole.2 chunk.length) 0
        bufferLength := chunk.length - whole.2 }
    else s)

/-- `while (paddedLength % 64 !== 56)`. -/
def padTo (length : ℕ) : ℕ :=
  if length % 64 = 56 then length else padTo (length + 1)
termination_by (120 - length % 64) % 64
decreasing_by omega

/-- The blocks of the padded rest. -/
def processPadded (padded : List UInt8) (h : Vars ℤ) (offset : ℕ) : Vars ℤ :=
  if offset < padded.length then
    processPadded padded (processBlock h (subarray padded offset (offset + 64))) (offset + 64)
  else h
termination_by padded.length - offset

/-- The padded rest of the message. -/
def IncrementalSha256.padded (s : IncrementalSha256) : List UInt8 :=
  let totalBits := s.totalLength * 8
  let paddedLength := padTo (s.bufferLength + 1)
  let padded := setBytes (List.replicate (paddedLength + 8) 0)
    (subarray s.buffer 0 s.bufferLength) 0
  let padded := setBytes padded [0x80] s.bufferLength
  let high := totalBits / 0x100000000
  let low := (Word32.shr totalBits 0).toNat
  setUint32 (setUint32 padded paddedLength high) (paddedLength + 4) low

/-- `(word >>> 0).toString(16).padStart(8, "0")`. -/
def wordHex (word : ℤ) : List Char :=
  let text := Nat.toDigits 16 (Word32.shr word 0).toNat
  List.replicate (8 - text.length) '0' ++ text

/-- The text, and the object after the call. -/
def IncrementalSha256.digestHex (s : IncrementalSha256) : List Char × IncrementalSha256 :=
  let h := processPadded s.padded s.h 0
  (h.toList.flatMap wordHex, { s with h := h, finalized := true })

end Kairon.Upload

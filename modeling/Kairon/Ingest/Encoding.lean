/-
Kairon/Ingest/Encoding.lean

What decoding makes of bytes in UTF-16, lowest byte first.

`decodeUtf16 bad` puts `bad` where the bytes are no character: nothing for
`errors="ignore"`, the replacement character for `errors="replace"`.
-/
import Kairon.Search.Syntax

namespace Kairon.Ingest

open Search (Text)

/-! ### UTF-16 -/

def isHighSurrogate (unit : ℕ) : Bool := 0xD800 ≤ unit && unit < 0xDC00

def isLowSurrogate (unit : ℕ) : Bool := 0xDC00 ≤ unit && unit < 0xE000

/-- The code units of some bytes; an odd byte at the end is none. -/
def unitsOf : List UInt8 → List ℕ
  | b₀ :: b₁ :: rest => (b₀.toNat + 256 * b₁.toNat) :: unitsOf rest
  | _ => []

/-- The character of two surrogates. -/
def surrogatePair (high low : ℕ) : Char :=
  Char.ofNat (0x10000 + (high - 0xD800) * 0x400 + (low - 0xDC00))

/-- The characters of code units: `bad` for a surrogate that has no other, and `odd` for
what is behind them, which belongs to a high surrogate at the end. -/
def decodeUnits (bad odd : Text) : List ℕ → Text
  | [] => odd
  | [unit] =>
    if isLowSurrogate unit then bad ++ odd
    else if isHighSurrogate unit then bad
    else Char.ofNat unit :: odd
  | unit :: next :: rest =>
    if isLowSurrogate unit then bad ++ decodeUnits bad odd (next :: rest)
    else if isHighSurrogate unit then
      if isLowSurrogate next then surrogatePair unit next :: decodeUnits bad odd rest
      else bad ++ decodeUnits bad odd (next :: rest)
    else Char.ofNat unit :: decodeUnits bad odd (next :: rest)

/-- `bytes.decode("utf-16le", errors)`, with what is put for an error. -/
def decodeUtf16 (bad : Text) (bytes : List UInt8) : Text :=
  decodeUnits bad (if bytes.length % 2 = 1 then bad else []) (unitsOf bytes)

end Kairon.Ingest

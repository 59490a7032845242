/-
Kairon/Upload/FolderZip.lean

`zipFolder`: the files of a folder packed into one archive without compression.

A header is a row of numbers and texts written into an array of the size that was
computed for it (`written`).  The calendar fields of a time come from the browser, which
knows the time zone.
-/
import Kairon.Lib.Zip
import Kairon.Upload.IncrementalSha256

namespace Kairon.Upload

open Search (Text)

def chunkBytes : ℕ := 16 * 1024 * 1024

def uint32Max : ℕ := 0xffffffff

def uint16Max : ℕ := 0xffff

def utf8Flag : ℕ := 0x0800

/-! ### The CRC -/

/-- `c & 1 ? 0xedb88320 ^ (c >>> 1) : c >>> 1`. -/
def tableStep (c : ℤ) : ℤ :=
  if Word32.and c 1 ≠ 0 then Word32.xor 0xedb88320 (Word32.shr c 1) else Word32.shr c 1

/-- `table()`. -/
def crcTable : List ℤ :=
  (List.range 256).map fun n : ℕ => Word32.store (Word32.shr (tableStep^[8] (n : ℤ)) 0)

/-- A byte in `crc32Update`. -/
def crcByte (c : ℤ) (byte : UInt8) : ℤ :=
  Word32.xor (crcTable.getD (Word32.and (Word32.xor c (byte.toNat : ℕ)) 0xff).toNat 0)
    (Word32.shr c 8)

def crc32Update (crc : ℤ) (bytes : List UInt8) : ℤ :=
  Word32.shr (Word32.xor (bytes.foldl crcByte (Word32.xor crc uint32Max)) uint32Max) 0

/-- `for (let offset = 0; offset < file.size; offset += CHUNK_BYTES)`. -/
def crcFrom (content : List UInt8) (crc : ℤ) (offset : ℕ) : ℤ :=
  if offset < content.length then
    crcFrom content (crc32Update crc (subarray content offset (offset + chunkBytes)))
      (offset + chunkBytes)
  else crc
termination_by content.length - offset
decreasing_by
  rw [chunkBytes]
  omega

def fileCrc (content : List UInt8) : ℤ := crcFrom content 0 0

/-! ### Times -/

/-- The local calendar fields of a `Date`. -/
structure DateFields where
  year : ℤ
  /-- From 0 on, as `getMonth` has it. -/
  month : ℤ
  day : ℤ
  hours : ℤ
  minutes : ℤ
  seconds : ℤ

/-- The time of now, and what `Date` says of a time. -/
structure Clock where
  now : ℤ
  fields : ℤ → DateFields

/-- `dosDateTime`. -/
def Clock.dosDateTime (clock : Clock) (ms : ℤ) : ℤ × ℤ :=
  let d := clock.fields (if ms = 0 then clock.now else ms)
  let year := min (max d.year 1980) 2107
  (Word32.or (Word32.or (Word32.shl d.hours 11) (Word32.shl d.minutes 5)) (d.seconds / 2),
    Word32.or (Word32.or (Word32.shl (year - 1980) 9) (Word32.shl (d.month + 1) 5)) d.day)

/-! ### Writers -/

structure Writer where
  bytes : List UInt8
  pos : ℕ

def Writer.new (size : ℕ) : Writer := ⟨List.replicate size 0, 0⟩

def Writer.raw (w : Writer) (data : List UInt8) : Writer :=
  ⟨setBytes w.bytes data w.pos, w.pos + data.length⟩

/-- What is written with a writer of a size. -/
def written (size : ℕ) (chunks : List (List UInt8)) : List UInt8 :=
  (chunks.foldl Writer.raw (Writer.new size)).bytes

/-- The bytes of `setUint16`. -/
def u16 (value : ℤ) : List UInt8 := Wire.little 2 (value % 2 ^ 16).toNat

/-- The bytes of `setUint32`. -/
def u32 (value : ℤ) : List UInt8 := Wire.little 4 (Word32.shr value 0).toNat

/-- The bytes of `setBigUint64`. -/
def u64 (value : ℕ) : List UInt8 := Wire.little 8 value

structure Entry where
  name : List UInt8
  size : ℕ
  crc : ℤ
  offset : ℕ
  time : ℤ
  date : ℤ

def localHeader (entry : Entry) (zip64 : Bool) : List UInt8 :=
  let extraLength := if zip64 then 20 else 0
  written (30 + entry.name.length + extraLength)
    ([u32 0x04034b50, u16 (if zip64 then 45 else 20), u16 utf8Flag, u16 0, u16 entry.time,
        u16 entry.date, u32 entry.crc, u32 (if zip64 then uint32Max else entry.size),
        u32 (if zip64 then uint32Max else entry.size), u16 entry.name.length, u16 extraLength,
        entry.name] ++
      if zip64 then [u16 0x0001, u16 16, u64 entry.size, u64 entry.size] else [])

def centralHeader (entry : Entry) : List UInt8 :=
  let bigSize : Bool := uint32Max ≤ entry.size
  let bigOffset : Bool := uint32Max ≤ entry.offset
  let extraLength := if bigSize || bigOffset then
    4 + (if bigSize then 16 else 0) + (if bigOffset then 8 else 0) else 0
  written (46 + entry.name.length + extraLength)
    ([u32 0x02014b50, u16 45, u16 (if extraLength ≠ 0 then 45 else 20), u16 utf8Flag, u16 0,
        u16 entry.time, u16 entry.date, u32 entry.crc,
        u32 (if bigSize then uint32Max else entry.size),
        u32 (if bigSize then uint32Max else entry.size), u16 entry.name.length, u16 extraLength,
        u16 0, u16 0, u16 0, u32 0, u32 (if bigOffset then uint32Max else entry.offset),
        entry.name] ++
      if extraLength ≠ 0 then
        [u16 0x0001, u16 (extraLength - 4 : ℕ)] ++
          (if bigSize then [u64 entry.size, u64 entry.size] else []) ++
          if bigOffset then [u64 entry.offset] else []
      else [])

def endRecords (count directorySize directoryOffset : ℕ) (forceZip64 : Bool) : List UInt8 :=
  let zip64 : Bool := forceZip64 || uint16Max ≤ count || uint32Max ≤ directorySize ||
    uint32Max ≤ directoryOffset
  written ((if zip64 then 56 + 20 else 0) + 22)
    ((if zip64 then
        [u32 0x06064b50, u64 44, u16 45, u16 45, u32 0, u32 0, u64 count, u64 count,
          u64 directorySize, u64 directoryOffset, u32 0x07064b50, u32 0,
          u64 (directoryOffset + directorySize), u32 1]
      else []) ++
      [u32 0x06054b50, u16 0, u16 0, u16 (if zip64 then uint16Max else count),
        u16 (if zip64 then uint16Max else count),
        u32 (if zip64 then uint32Max else directorySize),
        u32 (if zip64 then uint32Max else directoryOffset), u16 0])

/-! ### The folder -/

/-- A selected file. -/
structure FolderFile where
  name : Text
  webkitRelativePath : Text := []
  content : List UInt8
  lastModified : ℤ := 0

/-- `relativePathOf`. -/
def relativePathOf (file : FolderFile) : Text :=
  (if file.webkitRelativePath = [] then file.name else file.webkitRelativePath).map fun c =>
    if c = '\\' then '/' else c

/-- `encoder.encode`. -/
def encodeText (text : Text) : List UInt8 := text.flatMap String.utf8EncodeChar

/-- The entry of a file whose header is written at an offset. -/
def entryOf (clock : Clock) (offset : ℕ) (file : FolderFile) : Entry where
  name := encodeText (relativePathOf file)
  size := file.content.length
  crc := fileCrc file.content
  offset := offset
  time := (clock.dosDateTime file.lastModified).1
  date := (clock.dosDateTime file.lastModified).2

/-- `parts`, `entries` and `offset`. -/
structure Packing where
  parts : List (List UInt8) := []
  entries : List Entry := []
  offset : ℕ := 0

/-- The header and the content of one file. -/
def Packing.add (clock : Clock) (s : Packing) (file : FolderFile) : Packing :=
  let entry := entryOf clock s.offset file
  let header := localHeader entry (uint32Max ≤ file.content.length)
  { parts := s.parts ++ [header, file.content]
    entries := s.entries ++ [entry]
    offset := s.offset + (header.length + file.content.length) }

/-- The bytes of what `zipFolder` returns. -/
def zipFolder (clock : Clock) (files : List FolderFile) (forceZip64 : Bool) : List UInt8 :=
  let s := files.foldl (Packing.add clock) {}
  let directory := s.entries.map centralHeader
  let directorySize := (directory.map List.length).sum
  (s.parts ++ directory ++ [endRecords s.entries.length directorySize s.offset forceZip64]).flatten

end Kairon.Upload

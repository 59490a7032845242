/-
Kairon/Lib/Zip.lean

Reading ZIP archives of stored members.

The archive is read from its end: the end record, with the ZIP64 locator and record where
one of its fields is saturated (`readEnd`), then the central directory (`readCentral`),
then the local header of each member and its bytes (`readMember`).  A saturated size or
offset is taken from the ZIP64 extra field.  Nothing is read where a record has another
signature, the headers of a member disagree, or its CRC is not that of its bytes.

`read_at` reads a record that stands at a position; `extraField_one` is the extra field of
a header that has no other.
-/
import Kairon.Lib.Wire
import Kairon.Lib.Crc32

namespace Kairon.Zip

open Wire (unsigned cut unpack pack At Fit)

def max16 : ℕ := 0xffff

def max32 : ℕ := 0xffffffff

/-! ### Records -/

/-- The fields of a record at a position. -/
def read (bytes : List UInt8) (pos : ℕ) (widths : List ℕ) : Option (List ℕ) :=
  unpack widths (cut bytes pos (pos + widths.sum))

/-- The bytes of a part of so many bytes. -/
def readBytes (bytes : List UInt8) (pos length : ℕ) : Option (List UInt8) :=
  if pos + length ≤ bytes.length then some (cut bytes pos (pos + length)) else none

/-- The data of an extra field, by its id. -/
def extraField (id : ℕ) (extra : List UInt8) : Option (List UInt8) :=
  if 4 ≤ extra.length then
    let size := unsigned ((extra.drop 2).take 2)
    if unsigned (extra.take 2) = id then some ((extra.drop 4).take size)
    else extraField id (extra.drop (4 + size))
  else none
termination_by extra.length
decreasing_by
  rw [List.length_drop]
  omega

/-- A value of 32 bits; a saturated one is the next of the extra field. -/
def widen (value : ℕ) (data : List UInt8) : Option (ℕ × List UInt8) :=
  if value = max32 then
    if 8 ≤ data.length then some (unsigned (data.take 8), data.drop 8) else none
  else some (value, data)

/-- The data of the ZIP64 extra field. -/
def zip64Data (extra : List UInt8) : List UInt8 := (extraField 1 extra).getD []

/-! ### The end record -/

/-- Where the central directory stands. -/
structure Directory where
  count : ℕ
  size : ℕ
  offset : ℕ

def endWidths : List ℕ := [4, 2, 2, 2, 2, 4, 4, 2]

def locatorWidths : List ℕ := [4, 4, 8, 4]

def end64Widths : List ℕ := [4, 8, 2, 2, 4, 4, 8, 8, 8, 8]

/-- The fields of the end record, if there is no comment and only one disk. -/
def endFields : List ℕ → Option Directory
  | [signature, disk, directoryDisk, here, count, size, offset, comment] =>
    if signature = 0x06054b50 ∧ disk = 0 ∧ directoryDisk = 0 ∧ here = count ∧ comment = 0 then
      some ⟨count, size, offset⟩
    else none
  | _ => none

/-- The position of the ZIP64 end record. -/
def locatorFields : List ℕ → Option ℕ
  | [signature, disk, offset, disks] =>
    if signature = 0x07064b50 ∧ disk = 0 ∧ disks = 1 then some offset else none
  | _ => none

def end64Fields : List ℕ → Option Directory
  | [signature, _, _, _, disk, directoryDisk, here, count, size, offset] =>
    if signature = 0x06064b50 ∧ disk = 0 ∧ directoryDisk = 0 ∧ here = count then
      some ⟨count, size, offset⟩
    else none
  | _ => none

/-- The directory by the ZIP64 record, for the fields that are saturated. -/
def readEnd64 (bytes : List UInt8) (directory : Directory) : Option Directory := do
  let position ← (read bytes (bytes.length - 42) locatorWidths).bind locatorFields
  let large ← (read bytes position end64Widths).bind end64Fields
  some
    { count := if directory.count = max16 then large.count else directory.count
      size := if directory.size = max32 then large.size else directory.size
      offset := if directory.offset = max32 then large.offset else directory.offset }

def readEnd (bytes : List UInt8) : Option Directory := do
  let directory ← (read bytes (bytes.length - 22) endWidths).bind endFields
  if directory.count = max16 ∨ directory.size = max32 ∨ directory.offset = max32 then
    readEnd64 bytes directory
  else some directory

/-! ### The central directory -/

/-- What a header says of a member. -/
structure Header where
  flags : ℕ
  method : ℕ
  crc : ℕ
  compressed : ℕ
  size : ℕ
  name : List UInt8
  deriving DecidableEq

/-- A member of the central directory, and where it is. -/
structure Central where
  header : Header
  offset : ℕ

def centralWidths : List ℕ := [4, 2, 2, 2, 2, 2, 2, 4, 4, 4, 2, 2, 2, 2, 2, 4, 4]

/-- A header of the central directory, with the position after it. -/
def centralFields (bytes : List UInt8) (pos : ℕ) : List ℕ → Option (Central × ℕ)
  | [signature, _, _, flags, method, _, _, crc, compressed, size, nameLength, extraLength,
      commentLength, _, _, _, offset] =>
      if signature = 0x02014b50 then do
        let name ← readBytes bytes (pos + 46) nameLength
        let extra ← readBytes bytes (pos + 46 + nameLength) extraLength
        let (size, data) ← widen size (zip64Data extra)
        let (compressed, data) ← widen compressed data
        let (offset, _) ← widen offset data
        some (⟨⟨flags, method, crc, compressed, size, name⟩, offset⟩,
          pos + 46 + nameLength + extraLength + commentLength)
      else none
  | _ => none

def readCentral (bytes : List UInt8) (pos : ℕ) : Option (Central × ℕ) :=
  (read bytes pos centralWidths).bind (centralFields bytes pos)

/-- So many headers, and the position after them. -/
def readDirectory (bytes : List UInt8) : ℕ → ℕ → Option (List Central × ℕ)
  | 0, pos => some ([], pos)
  | count + 1, pos => do
      let (central, next) ← readCentral bytes pos
      let (others, stop) ← readDirectory bytes count next
      some (central :: others, stop)

/-! ### Members -/

def localWidths : List ℕ := [4, 2, 2, 2, 2, 2, 4, 4, 4, 2, 2]

/-- A local header, with the position of the bytes of the member. -/
def localFields (bytes : List UInt8) (pos : ℕ) : List ℕ → Option (Header × ℕ)
  | [signature, _, flags, method, _, _, crc, compressed, size, nameLength, extraLength] =>
    if signature = 0x04034b50 then do
      let name ← readBytes bytes (pos + 30) nameLength
      let extra ← readBytes bytes (pos + 30 + nameLength) extraLength
      let (size, data) ← widen size (zip64Data extra)
      let (compressed, _) ← widen compressed data
      some (⟨flags, method, crc, compressed, size, name⟩, pos + 30 + nameLength + extraLength)
    else none
  | _ => none

def readLocal (bytes : List UInt8) (pos : ℕ) : Option (Header × ℕ) :=
  (read bytes pos localWidths).bind (localFields bytes pos)

/-- The name, if the flag for UTF-8 is set. -/
def readName (header : Header) : Option (List Char) :=
  if header.flags.testBit 11 then
    (header.name.toByteArray.utf8Decode?).map Array.toList
  else none

/-- The name and the bytes of a stored member. -/
def readMember (bytes : List UInt8) (central : Central) : Option (List Char × List UInt8) := do
  let (header, start) ← readLocal bytes central.offset
  let name ← readName header
  let content ← readBytes bytes start header.compressed
  if header = central.header ∧ header.method = 0 ∧ header.compressed = header.size ∧
      (Crc32.crc32 content).toNat = header.crc then some (name, content)
  else none

/-- The members of an archive, in the order of the central directory. -/
def readZip (bytes : List UInt8) : Option (List (List Char × List UInt8)) := do
  let directory ← readEnd bytes
  let (members, stop) ← readDirectory bytes directory.count directory.offset
  if stop = directory.offset + directory.size then members.mapM (readMember bytes) else none

/-! ### Records that stand at a position -/

variable {bytes chunk : List UInt8} {pos : ℕ}

theorem read_at {row : List (ℕ × ℕ)} (h : At bytes pos (pack row)) (hfit : Fit row) {widths : List ℕ}
    (hwidths : row.map Prod.fst = widths) : read bytes pos widths = some (row.map Prod.snd) := by
  subst hwidths
  rw [read, h.cut (by rw [Wire.length_pack]), Wire.unpack_pack hfit]

theorem readBytes_at (h : At bytes pos chunk) {length : ℕ} (hlength : length = chunk.length) :
    readBytes bytes pos length = some chunk := by
  subst hlength
  rw [readBytes, if_pos h.length_le, h.cut rfl]

theorem zip64Data_nil : zip64Data [] = [] := by
  rw [zip64Data, extraField, if_neg (by decide), Option.getD_none]

/-- A ZIP64 extra field that stands alone. -/
theorem extraField_one {data : List UInt8} (h : data.length < 2 ^ 16) :
    zip64Data (pack [(2, 1), (2, data.length)] ++ data) = data := by
  have hpack : pack [(2, 1), (2, data.length)] = Wire.little 2 1 ++ Wire.little 2 data.length := by
    rw [pack, List.flatMap_cons, List.flatMap_cons, List.flatMap_nil, List.append_nil]
  have hlength : (pack [(2, 1), (2, data.length)]).length = 4 := Wire.length_pack _
  have hid : unsigned ((pack [(2, 1), (2, data.length)] ++ data).take 2) = 1 := by
    rw [hpack, List.append_assoc, List.take_left' (Wire.length_little 2 1),
      Wire.unsigned_little (by decide)]
  have hsize : unsigned (((pack [(2, 1), (2, data.length)] ++ data).drop 2).take 2) =
      data.length := by
    rw [hpack, List.append_assoc, List.drop_left' (Wire.length_little 2 1),
      List.take_left' (Wire.length_little 2 _), Wire.unsigned_little h]
  have hlong : 4 ≤ (pack [(2, 1), (2, data.length)] ++ data).length := by
    rw [List.length_append, hlength]
    omega
  rw [zip64Data, extraField, if_pos hlong, hsize, if_pos hid, List.drop_left' hlength,
    List.take_length, Option.getD_some]

theorem widen_of_lt {value : ℕ} (h : value < max32) (data : List UInt8) :
    widen value data = some (value, data) := by
  rw [widen, if_neg h.ne]

/-- A saturated value. -/
theorem widen_max {value : ℕ} (h : value < 2 ^ 64) (data : List UInt8) :
    widen max32 (Wire.little 8 value ++ data) = some (value, data) := by
  have hlong : 8 ≤ (Wire.little 8 value ++ data).length := by
    rw [List.length_append, Wire.length_little]
    omega
  rw [widen, if_pos rfl, if_pos hlong, List.take_left' (Wire.length_little 8 _),
    List.drop_left' (Wire.length_little 8 _), Wire.unsigned_little h]

end Kairon.Zip

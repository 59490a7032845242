/-
Kairon/Lvm/Binary.lean

The fixed structures at the start of a physical volume: the label, the header
it points to, and the header of the metadata area.
-/
import Kairon.Lvm.Text
import Mathlib.Logic.Function.Iterate

namespace Kairon.Lvm

open Search (Text)

def invalidLabel {α : Type} (fault : LabelFault) : Except Failure α :=
  .error (.metadata (.invalidLabel fault))

/-! ### Numbers and checksums -/

/-- A little-endian number. -/
def leNat : Bytes → ℕ
  | [] => 0
  | b :: bs => b.toNat + 256 * leNat bs

/-- `data[start:stop]`. -/
def slice (data : Bytes) (start stop : ℕ) : Bytes := (data.take stop).drop start

def asciiBytes (s : String) : Bytes := s.toList.map fun c => UInt8.ofNat c.toNat

/-- One bit of the reflected CRC-32. -/
def crcBit (c : ℕ) : ℕ := if c % 2 = 1 then (c / 2) ^^^ 0xEDB88320 else c / 2

def crcByte (c : ℕ) (b : UInt8) : ℕ := Nat.iterate crcBit 8 (c ^^^ b.toNat)

/-- `zlib.crc32(data, value)`. -/
def crc32 (data : Bytes) (value : ℕ) : ℕ :=
  (data.foldl crcByte (value ^^^ 0xFFFFFFFF)) ^^^ 0xFFFFFFFF

/-- `lvm_weak_crc32`. -/
def lvmWeakCrc32 (data : Bytes) : ℕ := crc32 data (0xF597A6CF ^^^ 0xFFFFFFFF) ^^^ 0xFFFFFFFF

/-! ### The label -/

structure LabelHeader where
  labelSector : ℕ
  pvHeaderOffset : ℕ
  deriving DecidableEq

/-- `parse_label_header`. -/
def parseLabelHeader (sector : Bytes) (number : ℕ) : Except LabelFault LabelHeader :=
  if sector.length < 32 then .error (.shortSector number)
  else if slice sector 0 8 ≠ asciiBytes "LABELONE" then .error (.signature number)
  else if slice sector 24 32 ≠ asciiBytes "LVM2 001" then .error (.type number)
  else if leNat (slice sector 8 16) ≠ number then
    .error (.sector number (leNat (slice sector 8 16)))
  else .ok ⟨number, leNat (slice sector 20 24)⟩

/-- The loop of `parse_label` over the sectors left, with the last error. -/
def scanLabel (firstSectors : Bytes) : List ℕ → Option LabelFault → Except Failure LabelHeader
  | [], last => invalidLabel (last.getD .noLabel)
  | number :: numbers, last =>
    let candidate := slice firstSectors (number * 512) (number * 512 + 512)
    if candidate.length < 512 then invalidLabel (last.getD .noLabel)
    else
      match parseLabelHeader candidate number with
      | .ok label => .ok label
      | .error fault => scanLabel firstSectors numbers (some fault)

/-- `parse_label`. -/
def parseLabel (firstSectors : Bytes) : Except Failure LabelHeader :=
  scanLabel firstSectors (List.range 4) none

/-! ### The header of the physical volume -/

structure DiskLocation where
  offsetBytes : ℕ
  sizeBytes : ℕ
  deriving DecidableEq

structure PhysicalVolumeHeader where
  pvUuid : Text
  deviceSizeBytes : ℕ
  dataAreas : List DiskLocation
  metadataAreas : List DiskLocation
  deriving DecidableEq

/-- `format_lvm_uuid`. -/
def formatLvmUuid (raw : Bytes) : Except Failure Text :=
  if raw.any fun b => 128 ≤ b then .error .unicodeDecodeError
  else
    let text : Text := raw.map fun b => Char.ofNat b.toNat
    if text.length ≠ 32 then invalidLabel (.uuidLength text.length)
    else .ok (List.intercalate ['-']
      [text.take 6, (text.drop 6).take 4, (text.drop 10).take 4, (text.drop 14).take 4,
        (text.drop 18).take 4, (text.drop 22).take 4, (text.drop 26).take 6])

/-- `_parse_disk_locations`: the entries, and the bytes behind the terminator.
The first argument bounds the number of bytes. -/
def parseDiskLocations : ℕ → Bytes → Except Failure (List DiskLocation × Bytes)
  | 0, _ => invalidLabel .noTerminator
  | n + 1, data =>
    if data.length < 16 then invalidLabel .noTerminator
    else if leNat (slice data 0 8) = 0 then .ok ([], data.drop 16)
    else do
      let (locations, rest) ← parseDiskLocations n (data.drop 16)
      pure (⟨leNat (slice data 0 8), leNat (slice data 8 16)⟩ :: locations, rest)

/-- `parse_pv_header`. -/
def parsePvHeader (header : Bytes) : Except Failure PhysicalVolumeHeader :=
  if header.length < 56 then invalidLabel .shortHeader
  else do
    let uuid ← formatLvmUuid (header.take 32)
    let remainder := header.drop 40
    let (dataAreas, rest) ← parseDiskLocations remainder.length remainder
    let (metadataAreas, _) ← parseDiskLocations rest.length rest
    match metadataAreas with
    | [] => malformed .noMetadataAreas
    | _ :: _ => pure ⟨uuid, leNat (slice header 32 40), dataAreas, metadataAreas⟩

/-! ### The header of the metadata area -/

structure RawLocation where
  offsetBytes : ℕ
  sizeBytes : ℕ
  checksum : ℕ
  ignored : Bool
  deriving DecidableEq

structure MetadataAreaHeader where
  areaStartBytes : ℕ
  areaSizeBytes : ℕ
  locations : List RawLocation
  deriving DecidableEq

/-- The loop over the raw locations; the first argument bounds the number of
bytes. -/
def parseRawLocations : ℕ → Bytes → List RawLocation
  | 0, _ => []
  | n + 1, data =>
    if data.length < 24 ∨ leNat (slice data 0 8) = 0 then []
    else ⟨leNat (slice data 0 8), leNat (slice data 8 16), leNat (slice data 16 20),
      leNat (slice data 20 24) % 2 = 1⟩ :: parseRawLocations n (data.drop 24)

/-- `parse_mda_header`. -/
def parseMdaHeader (mda : Bytes) : Except Failure MetadataAreaHeader :=
  if mda.length < 512 then malformed (.truncatedArea mda.length)
  else if slice mda 4 20 ≠ asciiBytes " LVM2 x[5A%r0N*>" then
    .error (.metadata (.unsupportedVersion .magic))
  else if leNat (slice mda 20 24) ≠ 1 then
    .error (.metadata (.unsupportedVersion (.version (leNat (slice mda 20 24)))))
  else if leNat (slice mda 0 4) ≠ lvmWeakCrc32 (slice mda 4 512) then malformed .areaChecksum
  else
    let entries := slice mda 40 512
    match parseRawLocations entries.length entries with
    | [] => malformed .noLocation
    | location :: locations =>
      .ok ⟨leNat (slice mda 24 32), leNat (slice mda 32 40), location :: locations⟩

/-- `select_active_location`. -/
def selectActiveLocation (header : MetadataAreaHeader) : Except Failure RawLocation :=
  match header.locations.find? fun location => !location.ignored with
  | none => malformed .allIgnored
  | some location =>
    if location.offsetBytes + location.sizeBytes > header.areaSizeBytes then
      .error (.metadata .unsupportedLayout)
    else .ok location

/-- `verify_metadata_text_checksum`. -/
def verifyMetadataTextChecksum (text : Bytes) (expected : ℕ) : Except Failure Unit :=
  if lvmWeakCrc32 text ≠ expected then malformed .textChecksum else .ok ()

end Kairon.Lvm

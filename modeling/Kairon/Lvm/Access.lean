/-
Kairon/Lvm/Access.lean

Opening a logical volume that was found before.

Discovery lists the logical volumes of a physical volume inside an image and
leaves a mark for each: where the physical volume begins, and the name of the
logical one.  The access layer parses the metadata again and reads through the
same physical volume.  It hands one source of bytes to the reader, whatever
physical volume a segment names; that is sound because discovery lists nothing
for a group of several physical volumes (`discovered_bytes_from_named_volume`).
-/
import Kairon.Lvm.Metadata

namespace Kairon.Lvm

open Search (Text)
open Settle

/-- An image: a read returns the bytes at the place asked for, or fewer. -/
structure Image where
  read : ℤ → ℤ → Bytes
  byteAt : ℤ → UInt8
  read_byteAt : ∀ (offset size : ℤ) (k : ℕ) (b : UInt8), (read offset size)[k]? = some b →
    b = byteAt (offset + k)

/-- `read_physical`: the physical volume that begins at an offset. -/
def Image.physical (image : Image) (container : ℤ) : PhysicalSource Empty where
  read offset size := .ok (image.read (container + offset) size)
  byteAt offset := image.byteAt (container + offset)
  read_byteAt := by
    intro offset size bytes hread k b hk
    cases hread
    have h := image.read_byteAt _ _ k b hk
    rw [h, add_assoc]

/-- What the access layer raises. -/
inductive AccessError
  | parse (failure : Failure)
  | notFound (name : Text)
  | reader (e : OpenError)
  deriving DecidableEq

section

variable (py : Interpreter) (image : Image)

/-- The metadata of the physical volume at an offset. -/
def Interpreter.metadataAt (container : ℤ) : Except Failure PhysicalVolumeMetadata :=
  py.parsePhysicalVolumeMetadata fun offset size => image.read (container + offset) size

/-- `_discover_logical_volumes`: the logical volumes it lists. -/
def Interpreter.discoverLogicalVolumes (container : ℤ) : List LogicalVolume :=
  match py.metadataAt image container with
  | .error _ => []
  | .ok metadata =>
    if metadata.volumeGroup.physicalVolumes.length > 1 then []
    else metadata.volumeGroup.logicalVolumes

/-- `_open_logical_volume_fs_info` and `_volume_byte_reader`: the volume under a
name, and its reader. -/
def Interpreter.openLogicalVolume (container : ℤ) (name : Text) :
    Except AccessError (VolumeGroup × LogicalVolume × Reader) :=
  match py.metadataAt image container with
  | .error failure => .error (.parse failure)
  | .ok metadata =>
    match metadata.volumeGroup.logicalVolumes.find? fun lv => lv.name = name with
    | none => .error (.notFound name)
    | some lv =>
      match Reader.init lv metadata.volumeGroup with
      | .error e => .error (.reader e)
      | .ok r => .ok (metadata.volumeGroup, lv, r)

end

/-! ### Physical volumes -/

/-- The contents of all physical volumes, by their UUID. -/
abbrev Disks := Text → ℤ → UInt8

/-- The byte of a logical volume at a position, read from the physical volume
that the segment there names. -/
def LogicalVolume.ByteFrom (lv : LogicalVolume) (vg : VolumeGroup) (disks : Disks)
    (position : ℤ) (b : UInt8) : Prop :=
  ∃ s pv, (lv.segments.filter fun t => t.Covers vg.extentSizeBytes position) = [s] ∧
    vg.physicalVolumeNamed s.physicalVolumeName = some pv ∧
    b = disks pv.id (s.physicalOffset vg.extentSizeBytes pv position)

/-- The image holds the physical volume whose header is at the offset. -/
def Image.Holds (image : Image) (container : ℤ) (disks : Disks) : Prop :=
  ∀ header, readPvHeader (fun offset size => image.read (container + offset) size) = .ok header →
    ∀ offset, disks header.pvUuid offset = image.byteAt (container + offset)

section

variable {py : Interpreter} {image : Image} {container : ℤ}

variable {metadata : PhysicalVolumeMetadata}

/-- The parser returns the entry that has the UUID of the header, in a group
that was accepted. -/
theorem metadataAt_ok (h : py.metadataAt image container = .ok metadata) :
    ∃ header document area,
      readPvHeader (fun offset size => image.read (container + offset) size) = .ok header ∧
      py.buildVolumeGroup document area = .ok metadata.volumeGroup ∧
      ∃ pv ∈ metadata.volumeGroup.physicalVolumes, pv.id = header.pvUuid := by
  obtain ⟨header, hheader, h⟩ := bind_eq_ok.1 h
  obtain ⟨⟨area, bytes⟩, -, h⟩ := bind_eq_ok.1 h
  simp only [Interpreter.readVolumeGroup] at h
  split at h
  · cases h
  obtain ⟨document, -, h⟩ := bind_eq_ok.1 h
  obtain ⟨vg, hvg, h⟩ := bind_eq_ok.1 h
  split at h
  · cases h
  rename_i pv hfind
  cases h
  refine ⟨header, document, area, hheader, hvg, pv, List.mem_of_find?_eq_some hfind, ?_⟩
  simpa using List.find?_some hfind

/-- In a group of one physical volume, every name is that of the volume at
hand. -/
theorem named_is_container (h : py.metadataAt image container = .ok metadata)
    (hone : ¬ metadata.volumeGroup.physicalVolumes.length > 1) {name : Text}
    {pv : PhysicalVolume} (hpv : metadata.volumeGroup.physicalVolumeNamed name = some pv) :
    ∃ header, readPvHeader (fun offset size => image.read (container + offset) size) = .ok header ∧
      pv.id = header.pvUuid := by
  obtain ⟨header, _, _, hheader, -, own, hown, hid⟩ := metadataAt_ok h
  have hmem : pv ∈ metadata.volumeGroup.physicalVolumes := by
    simpa using List.mem_of_find?_eq_some hpv
  have hsame : pv = own := by
    obtain ⟨v, hv⟩ : ∃ v, metadata.volumeGroup.physicalVolumes = [v] := by
      rw [← List.length_eq_one_iff]
      have := List.length_pos_of_mem hown
      omega
    rw [hv, List.mem_singleton] at hmem hown
    rw [hmem, hown]
  exact ⟨header, hheader, by rw [hsame, hid]⟩

end

/-- The parser on a volume whose parts are known. -/
theorem parse_of_parts {py : Interpreter} {read : ℤ → ℤ → Bytes} {header : PhysicalVolumeHeader}
    {descriptor : DiskLocation} {rest : List DiskLocation} {mda : MetadataAreaHeader}
    {location : RawLocation} {text : Bytes} (hheader : readPvHeader read = .ok header)
    (hareas : header.metadataAreas = descriptor :: rest)
    (hmda : parseMdaHeader (read descriptor.offsetBytes 512) = .ok mda)
    (hstart : mda.areaStartBytes = descriptor.offsetBytes)
    (hsize : mda.areaSizeBytes = descriptor.sizeBytes)
    (hlocation : selectActiveLocation mda = .ok location)
    (htext : read (mda.areaStartBytes + location.offsetBytes : ℕ) location.sizeBytes = text)
    (hverify : verifyMetadataTextChecksum text location.checksum = .ok ()) :
    py.parsePhysicalVolumeMetadata read =
      py.readVolumeGroup header.pvUuid ⟨descriptor.offsetBytes, mda.areaSizeBytes,
        (mda.areaStartBytes + location.offsetBytes : ℕ), location.sizeBytes⟩ text := by
  have hread : readMetadataText read header = .ok (⟨descriptor.offsetBytes, mda.areaSizeBytes,
      (mda.areaStartBytes + location.offsetBytes : ℕ), location.sizeBytes⟩, text) := by
    rw [readMetadataText.eq_def, hareas]
    show (parseMdaHeader (read descriptor.offsetBytes 512) >>= _) = _
    rw [hmda]
    show (if mda.areaStartBytes ≠ descriptor.offsetBytes then _ else _) = _
    rw [if_neg (by simp [hstart]), if_neg (by simp [hsize]), hlocation]
    show (verifyMetadataTextChecksum (read _ _) _ >>= _) = _
    rw [htext, hverify]
    rfl
  rw [Interpreter.parsePhysicalVolumeMetadata, hheader]
  show (readMetadataText read header >>= _) = _
  rw [hread]
  rfl

/-! ### Images -/

/-- The checksum with its state evaluated at each byte. -/
def crcStrict : Bytes → ℕ → ℕ
  | [], c => c
  | b :: data, 0 => crcStrict data (crcByte 0 b)
  | b :: data, c + 1 => crcStrict data (crcByte (c + 1) b)

theorem foldl_crcByte (data : Bytes) (c : ℕ) : data.foldl crcByte c = crcStrict data c := by
  induction data generalizing c with
  | nil => rfl
  | cons b data ih =>
    cases c with
    | zero => exact ih (crcByte 0 b)
    | succ c => exact ih (crcByte (c + 1) b)

theorem lvmWeakCrc32_eq (data : Bytes) :
    lvmWeakCrc32 data = crcStrict data 0xF597A6CF ^^^ 0xFFFFFFFF ^^^ 0xFFFFFFFF := by
  rw [lvmWeakCrc32, crc32, foldl_crcByte]
  rfl

/-- A number in little-endian bytes. -/
def leBytes : ℕ → ℕ → Bytes
  | 0, _ => []
  | n + 1, x => UInt8.ofNat (x % 256) :: leBytes n (x / 256)

/-- Words with spaces behind them. -/
def words (ws : List String) : Bytes := ws.flatMap fun w => asciiBytes w ++ [32]

/-- The metadata of a group with a volume of one extent. -/
def metadataText (otherVolume : List String) (stripes : String) : Bytes :=
  words ["vg0", "\x7b", "id=\"v\"", "extent_size=1", "physical_volumes", "\x7b", "pv0", "\x7b",
      "id=\"AAAAAA-AAAA-AAAA-AAAA-AAAA-AAAA-AAAAAA\"", "dev_size=9", "pe_start=4", "pe_count=4",
      "\x7d"] ++
    words otherVolume ++
    words ["\x7d", "logical_volumes", "\x7b", "root", "\x7b", "id=\"l\"", "segment_count=1",
      "segment1", "\x7b", "start_extent=0", "extent_count=1", "type=\"striped\"",
      "stripe_count=1", stripes, "\x7d", "\x7d", "\x7d", "\x7d"]

/-- A physical volume: a label with a header, the header of the metadata area,
the text at 1024, and extents of sevens at 2048. -/
def volumeBytes (text : Bytes) (textChecksum areaChecksum : ℕ) : Bytes :=
  asciiBytes "LABELONE" ++ leBytes 8 0 ++ leBytes 4 0 ++ leBytes 4 32 ++ asciiBytes "LVM2 001" ++
    List.replicate 32 65 ++ leBytes 8 4608 ++ List.replicate 16 0 ++ leBytes 8 512 ++
    leBytes 8 1536 ++ List.replicate 408 0 ++
    leBytes 4 areaChecksum ++ asciiBytes " LVM2 x[5A%r0N*>" ++ leBytes 4 1 ++ leBytes 8 512 ++
    leBytes 8 1536 ++ leBytes 8 512 ++ leBytes 8 text.length ++ leBytes 4 textChecksum ++
    List.replicate 452 0 ++
    text ++ List.replicate (1024 - text.length) 0 ++ List.replicate 4 7

theorem readBytes_byteAt (data : Bytes) (offset size : ℤ) (k : ℕ) (b : UInt8)
    (hk : (if offset < 0 then [] else (data.drop offset.toNat).take size.toNat)[k]? = some b) :
    b = data.getD (offset + k).toNat 0 := by
  split at hk
  · cases hk
  rw [List.getElem?_take] at hk
  split at hk
  · rw [List.getElem?_drop] at hk
    have hplace : (offset + k).toNat = offset.toNat + k := by omega
    rw [hplace, List.getD_eq_getElem?_getD, hk]
    rfl
  · cases hk

/-- An image in memory. -/
def Image.ofBytes (data : Bytes) : Image where
  read offset size := if offset < 0 then [] else (data.drop offset.toNat).take size.toNat
  byteAt offset := data.getD offset.toNat 0
  read_byteAt := readBytes_byteAt data

def firstUuid : Text := "AAAAAA-AAAA-AAAA-AAAA-AAAA-AAAA-AAAAAA".toList

def firstVolume : PhysicalVolume := ⟨"pv0".toList, firstUuid, 4608, 512, 2048, 4⟩

/-- The group of two physical volumes; its logical volume is on the other one. -/
def twoVolumeText : Bytes :=
  metadataText ["pv1", "\x7b", "id=\"B\"", "dev_size=9", "pe_start=4", "pe_count=4", "\x7d"]
    "stripes=[\"pv1\",0]"

def twoVolumeImage : Image := Image.ofBytes (volumeBytes twoVolumeText 2600520476 3414548399)

def strandedVolume : LogicalVolume := ⟨"root".toList, "l".toList, [⟨0, 1, "pv1".toList, 0⟩]⟩

def twoVolumeGroup : VolumeGroup :=
  ⟨"vg0".toList, "v".toList, 512, [firstVolume, ⟨"pv1".toList, "B".toList, 4608, 512, 2048, 4⟩],
    [strandedVolume], ⟨512, 1536, 1024, 326⟩⟩

def strandedReader : Reader := ⟨512, twoVolumeGroup, [⟨0, 1, "pv1".toList, 0⟩], [0], 512⟩

/-- What is read of the image: its header, and the group by way of the checked
text. -/
theorem two_volumes_parsed :
    readPvHeader (fun offset size => twoVolumeImage.read (0 + offset) size) =
        .ok ⟨firstUuid, 4608, [], [⟨512, 1536⟩]⟩ ∧
      asciiInterpreter.metadataAt twoVolumeImage 0 = .ok ⟨firstVolume, twoVolumeGroup⟩ := by
  have hheader : readPvHeader (fun offset size => twoVolumeImage.read (0 + offset) size) =
      .ok ⟨firstUuid, 4608, [], [⟨512, 1536⟩]⟩ := by
    decide +kernel
  have hareaCrc : lvmWeakCrc32 (slice (twoVolumeImage.read (0 + (512 : ℕ)) 512) 4 512) =
      3414548399 := by
    rw [lvmWeakCrc32_eq]
    decide +kernel
  have harea : parseMdaHeader (twoVolumeImage.read (0 + (512 : ℕ)) 512) =
      .ok ⟨512, 1536, [⟨512, 326, 2600520476, false⟩]⟩ := by
    rw [parseMdaHeader, hareaCrc]
    decide +kernel
  have htext : twoVolumeImage.read (0 + ((512 + 512 : ℕ) : ℤ)) (326 : ℕ) = twoVolumeText := by
    decide +kernel
  have htextCrc : lvmWeakCrc32 twoVolumeText = 2600520476 := by
    rw [lvmWeakCrc32_eq]
    decide +kernel
  have hverify : verifyMetadataTextChecksum twoVolumeText 2600520476 = .ok () := by
    rw [verifyMetadataTextChecksum, htextCrc, if_neg (by simp)]
  have hgroup : asciiInterpreter.readVolumeGroup firstUuid ⟨512, 1536, 1024, 326⟩ twoVolumeText =
      .ok ⟨firstVolume, twoVolumeGroup⟩ := by
    decide +kernel
  exact ⟨hheader, (parse_of_parts hheader rfl harea rfl rfl rfl htext hverify).trans hgroup⟩

/-- The same with one physical volume. -/
def oneVolumeText : Bytes := metadataText [] "stripes=[\"pv0\",0]"

def oneVolumeImage : Image := Image.ofBytes (volumeBytes oneVolumeText 3011443095 3210252336)

def soleVolume : LogicalVolume := ⟨"root".toList, "l".toList, [⟨0, 1, "pv0".toList, 0⟩]⟩

def oneVolumeGroup : VolumeGroup :=
  ⟨"vg0".toList, "v".toList, 512, [firstVolume], [soleVolume], ⟨512, 1536, 1024, 278⟩⟩

theorem one_volume_parsed :
    asciiInterpreter.metadataAt oneVolumeImage 0 = .ok ⟨firstVolume, oneVolumeGroup⟩ := by
  have hheader : readPvHeader (fun offset size => oneVolumeImage.read (0 + offset) size) =
      .ok ⟨firstUuid, 4608, [], [⟨512, 1536⟩]⟩ := by
    decide +kernel
  have hareaCrc : lvmWeakCrc32 (slice (oneVolumeImage.read (0 + (512 : ℕ)) 512) 4 512) =
      3210252336 := by
    rw [lvmWeakCrc32_eq]
    decide +kernel
  have harea : parseMdaHeader (oneVolumeImage.read (0 + (512 : ℕ)) 512) =
      .ok ⟨512, 1536, [⟨512, 278, 3011443095, false⟩]⟩ := by
    rw [parseMdaHeader, hareaCrc]
    decide +kernel
  have htext : oneVolumeImage.read (0 + ((512 + 512 : ℕ) : ℤ)) (278 : ℕ) = oneVolumeText := by
    decide +kernel
  have htextCrc : lvmWeakCrc32 oneVolumeText = 3011443095 := by
    rw [lvmWeakCrc32_eq]
    decide +kernel
  have hverify : verifyMetadataTextChecksum oneVolumeText 3011443095 = .ok () := by
    rw [verifyMetadataTextChecksum, htextCrc, if_neg (by simp)]
  have hgroup : asciiInterpreter.readVolumeGroup firstUuid ⟨512, 1536, 1024, 278⟩ oneVolumeText =
      .ok ⟨firstVolume, oneVolumeGroup⟩ := by
    decide +kernel
  exact (parse_of_parts hheader rfl harea rfl rfl rfl htext hverify).trans hgroup

end Kairon.Lvm

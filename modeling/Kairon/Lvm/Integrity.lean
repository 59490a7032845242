/-
Kairon/Lvm/Integrity.lean

The checksums of a physical volume, and what they find.

There are three of them: of the sector of the label, of the header of the metadata area, and of
the metadata text.  All are the CRC-32 of the bits, started from a number of their own and not
inverted (`lvmWeakCrc32_bitwise`).  The parser compares the last two.  One flipped bit in what they
cover changes the checksum, and what was read before it stays the same
(`detects_areaHeader`, `detects_text`).  The label's own checksum is read and not compared: a bit
of the device size may be flipped, and the volume is accepted as before (`label_undetected`).
-/
import Kairon.Lib.Crc32
import Kairon.Lvm.Access

namespace Kairon.Lvm

open Settle

/-- The CRC-32 of the bits of some bytes, each byte from its lowest bit on. -/
def bitwiseCrc32 (data : Bytes) : ℕ :=
  ((data.flatMap Crc32.byteBits).foldl Crc32.feedBit 0xF597A6CF#32).toNat

/-- The reads of an image in memory. -/
def readOf (image : Bytes) : ℤ → ℤ → Bytes := (Image.ofBytes image).read

/-- The bytes of a header, its two lists with their terminators. -/
def PhysicalVolumeHeader.length (header : PhysicalVolumeHeader) : ℕ :=
  40 + 16 * (header.dataAreas.length + 1) + 16 * (header.metadataAreas.length + 1)

/-- An image of a physical volume that the parser accepts, with what it reads on the way.  The
header of the volume is in the sector of the label, the metadata area behind it, and the text
behind the header of the area. -/
structure ValidVolume (py : Interpreter) where
  image : Bytes
  label : LabelHeader
  header : PhysicalVolumeHeader
  area : DiskLocation
  others : List DiskLocation
  mda : MetadataAreaHeader
  location : RawLocation
  metadata : PhysicalVolumeMetadata
  label_eq : parseLabel (readOf image 0 2048) = .ok label
  header_eq : parsePvHeader
    (readOf image (label.labelSector * 512 + label.pvHeaderOffset : ℕ) 1024) = .ok header
  areas_eq : header.metadataAreas = area :: others
  mda_eq : parseMdaHeader (readOf image area.offsetBytes 512) = .ok mda
  location_eq : selectActiveLocation mda = .ok location
  accepted : py.parsePhysicalVolumeMetadata (readOf image) = .ok metadata
  header_inside : label.pvHeaderOffset + header.length ≤ 512
  area_behind : label.labelSector * 512 + 512 ≤ area.offsetBytes
  text_behind : 512 ≤ location.offsetBytes

inductive Checksum
  | label
  | areaHeader
  | text

section

variable {py : Interpreter} (v : ValidVolume py)

/-- Where the bytes begin and end that a checksum covers. -/
def ValidVolume.covered : Checksum → ℕ × ℕ
  | .label => (v.label.labelSector * 512 + 20, v.label.labelSector * 512 + 512)
  | .areaHeader => (v.area.offsetBytes + 4, v.area.offsetBytes + 512)
  | .text => (v.area.offsetBytes + v.location.offsetBytes,
      v.area.offsetBytes + v.location.offsetBytes + v.location.sizeBytes)

/-- The image with one bit flipped. -/
def flipBit (image : Bytes) (place bit : ℕ) : Bytes :=
  image.modify place fun b => b ^^^ UInt8.ofNat (2 ^ bit)

/-- With any bit flipped in what the checksum covers, the parser raises an error of its own. -/
def ValidVolume.Detects (sum : Checksum) : Prop :=
  ∀ place bit, (v.covered sum).1 ≤ place → place < (v.covered sum).2 →
    place < v.image.length → bit < 8 →
      ∃ e, py.parsePhysicalVolumeMetadata (readOf (flipBit v.image place bit)) =
        .error (.metadata e)

end

/-! ### The checksum -/

theorem crcBit_toNat (c : BitVec 32) : crcBit c.toNat = (Crc32.step c).toNat := by
  rw [crcBit, Crc32.step, BitVec.toNat_xor, BitVec.toNat_ushiftRight, Nat.shiftRight_one]
  have hlow : c.getLsbD 0 = decide (c.toNat % 2 = 1) := by
    rw [← BitVec.testBit_toNat, Nat.testBit_zero]
  rw [hlow]
  by_cases h : c.toNat % 2 = 1
  · simp only [h, decide_true, if_true]
    rfl
  · simp [h]

theorem crcByte_toNat (c : BitVec 32) (b : UInt8) :
    crcByte c.toNat b = (Crc32.advance c b).toNat := by
  have hsteps : ∀ (n : ℕ) (c : BitVec 32), crcBit^[n] c.toNat = (Crc32.step^[n] c).toNat := by
    intro n
    induction n with
    | zero => exact fun _ => rfl
    | succ n ih =>
      intro c
      rw [Function.iterate_succ_apply, Function.iterate_succ_apply, crcBit_toNat, ih]
  have hb : b.toNat = (BitVec.ofNat 32 b.toNat).toNat := by
    rw [BitVec.toNat_ofNat, Nat.mod_eq_of_lt (b.toNat_lt.trans (by decide))]
  rw [crcByte, Crc32.advance, ← hsteps, BitVec.toNat_xor, ← hb]

theorem foldl_crcByte_toNat (data : Bytes) (c : BitVec 32) :
    data.foldl crcByte c.toNat = (data.foldl Crc32.advance c).toNat := by
  induction data generalizing c with
  | nil => rfl
  | cons b data ih => rw [List.foldl_cons, List.foldl_cons, crcByte_toNat, ih]

/-- Inverting twice is not inverting. -/
theorem lvmWeakCrc32_advance (data : Bytes) :
    lvmWeakCrc32 data = (data.foldl Crc32.advance 0xF597A6CF#32).toNat := by
  rw [lvmWeakCrc32, crc32, Nat.xor_assoc, Nat.xor_self, Nat.xor_zero, Nat.xor_assoc,
    Nat.xor_self, Nat.xor_zero, ← foldl_crcByte_toNat]
  rfl

/-- **The weak checksum is the CRC-32 of the bits from `0xF597A6CF` on.** -/
theorem lvmWeakCrc32_bitwise (data : Bytes) : lvmWeakCrc32 data = bitwiseCrc32 data := by
  rw [lvmWeakCrc32_advance, bitwiseCrc32, Crc32.foldl_advance_eq]

theorem flipped_ne {bit : ℕ} (hbit : bit < 8) (b : UInt8) : b ^^^ UInt8.ofNat (2 ^ bit) ≠ b := by
  have hne : ∀ bit < 8, UInt8.ofNat (2 ^ bit) ≠ 0 := by decide
  intro h
  refine hne bit hbit ?_
  rw [← UInt8.xor_zero (a := b)] at h
  rw [UInt8.xor_assoc, UInt8.zero_xor] at h
  exact (UInt8.xor_right_inj b).mp h

theorem lvmWeakCrc32_flipBit_ne {data : Bytes} {place bit : ℕ} (hplace : place < data.length)
    (hbit : bit < 8) : lvmWeakCrc32 (flipBit data place bit) ≠ lvmWeakCrc32 data := by
  rw [lvmWeakCrc32_advance, lvmWeakCrc32_advance]
  intro h
  exact Crc32.foldl_advance_modify_ne hplace (flipped_ne hbit) _ (BitVec.eq_of_toNat_eq h)

/-! ### Flips inside and outside -/

section Flips

variable {data : Bytes} {place bit start stop : ℕ}

theorem length_flipBit (data : Bytes) (place bit : ℕ) :
    (flipBit data place bit).length = data.length := List.length_modify ..

theorem take_flipBit (data : Bytes) (place bit n : ℕ) :
    (flipBit data place bit).take n = flipBit (data.take n) place bit := by
  refine List.ext_getElem? fun i => ?_
  rw [flipBit, flipBit, List.getElem?_take, List.getElem?_modify, List.getElem?_modify,
    List.getElem?_take]
  by_cases hi : i < n
  · rw [if_pos hi, if_pos hi]
  · rw [if_neg hi, if_neg hi]
    rfl

theorem drop_flipBit_of_lt (h : place < start) :
    (flipBit data place bit).drop start = data.drop start := by
  refine List.ext_getElem? fun i => ?_
  rw [flipBit, List.getElem?_drop, List.getElem?_drop, List.getElem?_modify_ne _ _ (by omega)]

theorem drop_flipBit_of_le (h : start ≤ place) :
    (flipBit data place bit).drop start = flipBit (data.drop start) (place - start) bit := by
  refine List.ext_getElem? fun i => ?_
  rw [flipBit, flipBit, List.getElem?_drop, List.getElem?_modify, List.getElem?_modify,
    List.getElem?_drop]
  have hi : place = start + i ↔ place - start = i := by omega
  simp only [hi]

theorem flipBit_of_le (h : data.length ≤ place) : flipBit data place bit = data := by
  refine List.ext_getElem? fun i => ?_
  by_cases hi : place = i
  · have hlength := length_flipBit data place bit
    rw [List.getElem?_eq_none (by omega), List.getElem?_eq_none (by omega)]
  · rw [flipBit, List.getElem?_modify_ne _ _ hi]

theorem take_flipBit_of_le (h : stop ≤ place) :
    (flipBit data place bit).take stop = data.take stop := by
  rw [take_flipBit]
  exact flipBit_of_le ((List.length_take_le ..).trans h)

theorem slice_flipBit_outside (h : place < start ∨ stop ≤ place) :
    slice (flipBit data place bit) start stop = slice data start stop := by
  rw [slice, slice]
  rcases h with h | h
  · rw [take_flipBit, drop_flipBit_of_lt h]
  · rw [take_flipBit_of_le h]

theorem slice_flipBit_inside (h : start ≤ place) : slice (flipBit data place bit) start stop =
      flipBit (slice data start stop) (place - start) bit := by
  rw [slice, slice, take_flipBit, drop_flipBit_of_le h]

theorem readOf_nat (image : Bytes) (offset size : ℕ) :
    readOf image offset size = (image.drop offset).take size := by
  show (if (offset : ℤ) < 0 then [] else _) = _
  rw [if_neg (by omega)]
  rfl

/-- A flip outside of what is read is not seen. -/
theorem readOf_flipBit_outside (size : ℕ) (h : place < start ∨ start + size ≤ place) :
    readOf (flipBit data place bit) start size = readOf data start size := by
  rw [readOf_nat, readOf_nat]
  rcases h with h | h
  · rw [drop_flipBit_of_lt h]
  · rw [drop_flipBit_of_le (by omega), take_flipBit_of_le (by omega)]

theorem readOf_flipBit_inside (data : Bytes) (bit size : ℕ) (h : start ≤ place) :
    readOf (flipBit data place bit) start size =
      flipBit (readOf data start size) (place - start) bit := by
  rw [readOf_nat, readOf_nat, drop_flipBit_of_le h, take_flipBit]

end Flips

/-! ### The label and the header of the volume -/

section Headers

variable {data : Bytes} {place bit : ℕ}

theorem parseLabelHeader_flipBit (number : ℕ) (h : 32 ≤ place) :
    parseLabelHeader (flipBit data place bit) number = parseLabelHeader data number := by
  rw [parseLabelHeader, parseLabelHeader, length_flipBit, slice_flipBit_outside (.inr (by omega)),
    slice_flipBit_outside (.inr (by omega)), slice_flipBit_outside (.inr (by omega)),
    slice_flipBit_outside (.inr (by omega))]

variable {label : LabelHeader}

theorem labelSector_of_parseLabelHeader {number : ℕ}
    (h : parseLabelHeader data number = .ok label) : label.labelSector = number := by
  rw [parseLabelHeader] at h
  repeat' split at h
  all_goals cases h
  rfl

theorem sector_end_le {number sector : ℕ} (h : number < sector)
    (hplace : sector * 512 + 32 ≤ place) : number * 512 + 512 ≤ place :=
  calc
    number * 512 + 512 = (number + 1) * 512 := (Nat.succ_mul number 512).symm
    _ ≤ sector * 512 := Nat.mul_le_mul_right 512 h
    _ ≤ place := Nat.le_of_add_right_le hplace

/-- The scan looks at the sectors up to that of the label, and at the first bytes of it. -/
theorem scanLabel_flipBit {numbers : List ℕ} {last : Option LabelFault}
    (hsorted : numbers.Pairwise (· < ·)) (h : scanLabel data numbers last = .ok label)
    (hplace : label.labelSector * 512 + 32 ≤ place) :
    label.labelSector ∈ numbers ∧ scanLabel (flipBit data place bit) numbers last = .ok label := by
  induction numbers generalizing last with
  | nil => cases h
  | cons number numbers ih =>
    rw [List.pairwise_cons] at hsorted
    simp only [scanLabel] at h ⊢
    split at h
    · cases h
    next hlong =>
    rcases hparse : parseLabelHeader (slice data (number * 512) (number * 512 + 512)) number with
      fault | found
    · rw [hparse] at h
      obtain ⟨hmem, hrest⟩ := ih hsorted.2 h
      have hlt := hsorted.1 _ hmem
      have hbefore := sector_end_le hlt hplace
      rw [slice_flipBit_outside (.inr hbefore)]
      simp only [hlong, if_false, hparse]
      exact ⟨.tail _ hmem, hrest⟩
    · rw [hparse] at h
      obtain rfl : found = label := by simpa using h
      have hsector := labelSector_of_parseLabelHeader hparse
      rw [hsector] at hplace
      have hinside : number * 512 ≤ place := Nat.le_of_add_right_le hplace
      have hbehind : 32 ≤ place - number * 512 := Nat.le_sub_of_add_le' hplace
      rw [hsector, slice_flipBit_inside hinside, length_flipBit,
        parseLabelHeader_flipBit number hbehind]
      simp only [hlong, if_false, hparse]
      exact ⟨.head _, trivial⟩

theorem parseLabel_flipBit (h : parseLabel data = .ok label)
    (hplace : label.labelSector * 512 + 32 ≤ place) :
    parseLabel (flipBit data place bit) = .ok label :=
  (scanLabel_flipBit (by decide) h hplace).2

/-- The list ends at its terminator; what is behind it is rest. -/
theorem parseDiskLocations_flipBit {n : ℕ} {locations : List DiskLocation} {rest : Bytes}
    (h : parseDiskLocations n data = .ok (locations, rest))
    (hplace : 16 * (locations.length + 1) ≤ place) :
    parseDiskLocations n (flipBit data place bit) =
      .ok (locations, flipBit rest (place - 16 * (locations.length + 1)) bit) := by
  induction n generalizing data place locations rest with
  | zero => cases h
  | succ n ih =>
    rw [parseDiskLocations] at h ⊢
    rw [length_flipBit, slice_flipBit_outside (.inr (by omega)),
      slice_flipBit_outside (.inr (by omega)), drop_flipBit_of_le (by omega)]
    split at h
    · cases h
    next hlong =>
    rw [if_neg hlong]
    split at h
    next hzero =>
      cases h
      rw [if_pos hzero]
      rfl
    next hzero =>
      rw [if_neg hzero]
      obtain ⟨⟨tail, rest'⟩, htail, h⟩ := bind_eq_ok.1 h
      cases h
      rw [List.length_cons] at hplace
      rw [ih htail (by omega), List.length_cons]
      have hleft : place - 16 - 16 * (tail.length + 1) = place - 16 * (tail.length + 1 + 1) := by
        omega
      rw [hleft]
      rfl

variable {header : PhysicalVolumeHeader}

/-- What an accepted header is made of. -/
theorem parsePvHeader_eq_ok : parsePvHeader data = .ok header ↔ 56 ≤ data.length ∧
      formatLvmUuid (data.take 32) = .ok header.pvUuid ∧
      leNat (slice data 32 40) = header.deviceSizeBytes ∧ header.metadataAreas ≠ [] ∧
      ∃ rest rest', parseDiskLocations (data.drop 40).length (data.drop 40) =
          .ok (header.dataAreas, rest) ∧
        parseDiskLocations rest.length rest = .ok (header.metadataAreas, rest') := by
  rw [parsePvHeader]
  constructor
  · intro h
    split at h
    · cases h
    next hlong =>
    obtain ⟨uuid, huuid, h⟩ := bind_eq_ok.1 h
    obtain ⟨⟨dataAreas, rest⟩, hdata, h⟩ := bind_eq_ok.1 h
    obtain ⟨⟨metadataAreas, rest'⟩, hmetadata, h⟩ := bind_eq_ok.1 h
    rcases metadataAreas with - | ⟨area, others⟩
    · cases h
    · cases h
      exact ⟨by omega, huuid, rfl, List.cons_ne_nil _ _, rest, rest', hdata, hmetadata⟩
  · rintro ⟨hlong, huuid, hsize, hne, rest, rest', hdata, hmetadata⟩
    obtain ⟨uuid, size, dataAreas, metadataAreas⟩ := header
    rw [if_neg (by omega), huuid]
    show (parseDiskLocations (data.drop 40).length (data.drop 40) >>= _) = _
    rw [hdata]
    show (parseDiskLocations rest.length rest >>= _) = _
    rw [hmetadata]
    rcases metadataAreas with - | ⟨area, others⟩
    · exact absurd rfl hne
    · cases hsize
      rfl

/-- Behind its two lists a header ends. -/
theorem parsePvHeader_flipBit (h : parsePvHeader data = .ok header)
    (hplace : header.length ≤ place) : parsePvHeader (flipBit data place bit) = .ok header := by
  rw [parsePvHeader_eq_ok] at h ⊢
  obtain ⟨hlong, huuid, hsize, hne, rest, rest', hdata, hmetadata⟩ := h
  rw [PhysicalVolumeHeader.length] at hplace
  refine ⟨by rw [length_flipBit]; exact hlong, by rw [take_flipBit_of_le (by omega)]; exact huuid,
    by rw [slice_flipBit_outside (.inr (by omega))]; exact hsize, hne, ?_⟩
  rw [drop_flipBit_of_le (by omega), length_flipBit]
  have hleft : 16 * (header.metadataAreas.length + 1) ≤
      place - 40 - 16 * (header.dataAreas.length + 1) := by omega
  have hafter := @parseDiskLocations_flipBit _ _ bit _ _ _ hmetadata hleft
  rw [← length_flipBit rest _ bit] at hafter
  exact ⟨_, _, parseDiskLocations_flipBit hdata (by omega), hafter⟩

/-- A bit of the device size changes the device size only. -/
theorem parsePvHeader_flipBit_size (bit : ℕ) (h : parsePvHeader data = .ok header) :
    parsePvHeader (flipBit data 32 bit) =
      .ok { header with deviceSizeBytes := leNat (slice (flipBit data 32 bit) 32 40) } := by
  rw [parsePvHeader_eq_ok] at h ⊢
  obtain ⟨hlong, huuid, -, hne, hrest⟩ := h
  rw [length_flipBit, take_flipBit_of_le (le_refl 32), drop_flipBit_of_lt (by omega)]
  exact ⟨hlong, huuid, rfl, hne, hrest⟩

/-- A flipped bit in what the checksum of the area covers is found. -/
theorem parseMdaHeader_flipBit {mda : MetadataAreaHeader} (h : parseMdaHeader data = .ok mda)
    (hstart : 4 ≤ place) (hstop : place < 512) (hbit : bit < 8) :
    ∃ e, parseMdaHeader (flipBit data place bit) = .error (.metadata e) := by
  rw [parseMdaHeader] at h ⊢
  rw [length_flipBit]
  split at h
  · cases h
  next hlong =>
  split at h
  · cases h
  split at h
  · cases h
  split at h
  · cases h
  next hsum =>
  rw [if_neg hlong]
  split
  · exact ⟨_, rfl⟩
  split
  · exact ⟨_, rfl⟩
  refine ⟨_, if_pos ?_⟩
  rw [slice_flipBit_outside (.inr hstart), slice_flipBit_inside hstart, not_not.mp hsum]
  refine (lvmWeakCrc32_flipBit_ne ?_ hbit).symm
  rw [slice, List.length_drop, List.length_take]
  omega

end Headers

/-! ### The parser on a volume with a flipped bit -/

section Volume

variable {py : Interpreter}

variable {header : PhysicalVolumeHeader}

theorem readPvHeader_of_parts {image : Bytes} (label : LabelHeader)
    (hlabel : parseLabel (readOf image 0 2048) = .ok label)
    (hheader : parsePvHeader
      (readOf image (label.labelSector * 512 + label.pvHeaderOffset : ℕ) 1024) = .ok header) :
    readPvHeader (readOf image) = .ok header := by
  rw [readPvHeader, hlabel]
  show parsePvHeader (readOf image (label.labelSector * 512 + label.pvHeaderOffset) 1024) = _
  push_cast at hheader
  exact hheader

theorem parse_of_text_error {read : ℤ → ℤ → Bytes}
    {failure : Failure} (hheader : readPvHeader read = .ok header)
    (htext : readMetadataText read header = .error failure) :
    py.parsePhysicalVolumeMetadata read = .error failure := by
  rw [Interpreter.parsePhysicalVolumeMetadata, hheader]
  show (readMetadataText read header >>= _) = _
  rw [htext]
  rfl

variable (v : ValidVolume py) {place bit : ℕ}

/-- Where the header of the volume begins. -/
def ValidVolume.headerPlace : ℕ := v.label.labelSector * 512 + v.label.pvHeaderOffset

def ValidVolume.textPlace : ℕ := v.area.offsetBytes + v.location.offsetBytes

theorem ValidVolume.headerPlace_add_le :
    v.headerPlace + v.header.length ≤ v.label.labelSector * 512 + 512 := by
  rw [headerPlace, Nat.add_assoc]
  exact Nat.add_le_add_left v.header_inside _

theorem ValidVolume.readPvHeader_eq : readPvHeader (readOf v.image) = .ok v.header :=
  readPvHeader_of_parts v.label v.label_eq v.header_eq

/-- What an accepted volume has been checked for. -/
theorem ValidVolume.checked : v.mda.areaStartBytes = v.area.offsetBytes ∧
    v.mda.areaSizeBytes = v.area.sizeBytes ∧
    lvmWeakCrc32 (readOf v.image v.textPlace v.location.sizeBytes) = v.location.checksum := by
  obtain ⟨header, hheader, h⟩ := bind_eq_ok.1 v.accepted
  obtain rfl : v.header = header := by simpa [v.readPvHeader_eq] using hheader
  obtain ⟨parts, hparts, -⟩ := bind_eq_ok.1 h
  rw [readMetadataText.eq_def, v.areas_eq] at hparts
  obtain ⟨mda, hmda, hparts⟩ := bind_eq_ok.1 hparts
  obtain rfl : v.mda = mda := by simpa [v.mda_eq] using hmda
  split at hparts
  · cases hparts
  next hstart =>
  split at hparts
  · cases hparts
  next hsize =>
  obtain ⟨location, hlocation, hparts⟩ := bind_eq_ok.1 hparts
  obtain rfl : v.location = location := by simpa [v.location_eq] using hlocation
  obtain ⟨_, hverify, -⟩ := bind_eq_ok.1 hparts
  have hplace : v.mda.areaStartBytes = v.area.offsetBytes := by simpa using hstart
  refine ⟨hplace, by simpa using hsize, ?_⟩
  rw [verifyMetadataTextChecksum, hplace] at hverify
  split at hverify
  · cases hverify
  next hsum => exact not_not.mp hsum

/-- Behind the sector of the label a flip does not touch the header. -/
theorem ValidVolume.readPvHeader_flipBit (h : v.label.labelSector * 512 + 512 ≤ place) :
    readPvHeader (readOf (flipBit v.image place bit)) = .ok v.header := by
  have hlabel : readOf (flipBit v.image place bit) 0 2048 =
      flipBit (readOf v.image 0 2048) place bit :=
    readOf_flipBit_inside v.image bit 2048 (Nat.zero_le place)
  have hend := v.headerPlace_add_le.trans h
  have hheader : readOf (flipBit v.image place bit) v.headerPlace 1024 =
      flipBit (readOf v.image v.headerPlace 1024) (place - v.headerPlace) bit :=
    readOf_flipBit_inside v.image bit 1024 (Nat.le_of_add_right_le hend)
  refine readPvHeader_of_parts v.label ?_ ?_
  · rw [hlabel]
    exact parseLabel_flipBit v.label_eq
      (le_trans (Nat.add_le_add_left (by decide) _) h)
  · rw [← headerPlace, hheader]
    exact parsePvHeader_flipBit v.header_eq (Nat.le_sub_of_add_le' hend)

/-- **A flipped bit in the header of the metadata area is found.** -/
theorem ValidVolume.detects_areaHeader : v.Detects .areaHeader := by
  intro place bit hstart hstop _ hbit
  have hplace : v.area.offsetBytes ≤ place := Nat.le_of_add_right_le hstart
  have hread : readOf (flipBit v.image place bit) v.area.offsetBytes 512 =
      flipBit (readOf v.image v.area.offsetBytes 512) (place - v.area.offsetBytes) bit :=
    readOf_flipBit_inside v.image bit 512 hplace
  obtain ⟨e, he⟩ := parseMdaHeader_flipBit v.mda_eq (Nat.le_sub_of_add_le' hstart)
    (Nat.sub_lt_left_of_lt_add hplace hstop) hbit
  refine ⟨e, parse_of_text_error (v.readPvHeader_flipBit (v.area_behind.trans hplace)) ?_⟩
  rw [readMetadataText.eq_def, v.areas_eq]
  show (parseMdaHeader (readOf (flipBit v.image place bit) v.area.offsetBytes 512) >>= _) = _
  rw [hread, he]
  rfl

/-- **A flipped bit in the metadata text is found.** -/
theorem ValidVolume.detects_text : v.Detects .text := by
  intro place bit hstart hstop hlength hbit
  obtain ⟨harea, hsize, hsum⟩ := v.checked
  have hplace : v.textPlace ≤ place := hstart
  have hmda_end : v.area.offsetBytes + 512 ≤ place :=
    (Nat.add_le_add_left v.text_behind _).trans hplace
  have hmda : readOf (flipBit v.image place bit) v.area.offsetBytes 512 =
      readOf v.image v.area.offsetBytes 512 := readOf_flipBit_outside 512 (.inr hmda_end)
  have hread := readOf_flipBit_inside v.image bit v.location.sizeBytes hplace
  refine ⟨.malformedText .textChecksum, parse_of_text_error (v.readPvHeader_flipBit
    (v.area_behind.trans (Nat.le_of_add_right_le hmda_end))) ?_⟩
  rw [readMetadataText.eq_def, v.areas_eq]
  show (parseMdaHeader (readOf (flipBit v.image place bit) v.area.offsetBytes 512) >>= _) = _
  rw [hmda, v.mda_eq]
  show (if v.mda.areaStartBytes ≠ v.area.offsetBytes then _ else _) = _
  rw [if_neg (not_not.mpr harea), if_neg (not_not.mpr hsize), v.location_eq]
  show (verifyMetadataTextChecksum (readOf (flipBit v.image place bit)
    (v.mda.areaStartBytes + v.location.offsetBytes : ℕ) v.location.sizeBytes) _ >>= _) = _
  rw [harea, ← textPlace, hread, verifyMetadataTextChecksum, if_pos]
  · rfl
  · rw [← hsum]
    refine lvmWeakCrc32_flipBit_ne ?_ hbit
    have hbelow : place < v.textPlace + v.location.sizeBytes := hstop
    rw [readOf_nat, List.length_take, List.length_drop]
    omega

/-- What the parser makes of a volume is what it makes of another header with the same parts. -/
theorem ValidVolume.parse_eq {read : ℤ → ℤ → Bytes}
    (hheader : readPvHeader read = .ok header) (huuid : header.pvUuid = v.header.pvUuid)
    (hareas : header.metadataAreas = v.header.metadataAreas)
    (hread : ∀ size : ℕ, ∀ place : ℕ, v.area.offsetBytes ≤ place →
      read place size = readOf v.image place size) :
    py.parsePhysicalVolumeMetadata read = .ok v.metadata := by
  obtain ⟨harea, hsize, hsum⟩ := v.checked
  have hmda : parseMdaHeader (read v.area.offsetBytes 512) = .ok v.mda :=
    (congrArg _ (hread 512 _ le_rfl)).trans v.mda_eq
  have htext : read (v.mda.areaStartBytes + v.location.offsetBytes : ℕ) v.location.sizeBytes =
      readOf v.image v.textPlace v.location.sizeBytes := by
    rw [harea]
    exact hread _ _ (Nat.le_add_right ..)
  have hverify : verifyMetadataTextChecksum
      (readOf v.image v.textPlace v.location.sizeBytes) v.location.checksum = .ok () :=
    if_neg (not_not.mpr hsum)
  have hsame : readOf v.image (v.mda.areaStartBytes + v.location.offsetBytes : ℕ)
      v.location.sizeBytes = readOf v.image v.textPlace v.location.sizeBytes := by
    rw [harea]
    rfl
  rw [parse_of_parts hheader (hareas.trans v.areas_eq) hmda harea hsize v.location_eq htext hverify,
    huuid, ← v.accepted, parse_of_parts v.readPvHeader_eq v.areas_eq v.mda_eq harea hsize
      v.location_eq hsame hverify]

theorem ValidVolume.size_inside : v.headerPlace + 56 ≤ v.image.length := by
  have hlong := (parsePvHeader_eq_ok.mp v.header_eq).1
  have hread : readOf v.image (v.label.labelSector * 512 + v.label.pvHeaderOffset : ℕ) 1024 =
      (v.image.drop v.headerPlace).take 1024 := readOf_nat ..
  rw [hread, List.length_take, List.length_drop] at hlong
  omega

/-- **A flipped bit of the device size is not found.** -/
theorem ValidVolume.device_size_undetected :
    py.parsePhysicalVolumeMetadata (readOf (flipBit v.image (v.headerPlace + 32) bit)) =
      .ok v.metadata := by
  have hend := v.headerPlace_add_le
  have hlength : 72 ≤ v.header.length := by
    rw [PhysicalVolumeHeader.length]
    omega
  have hbefore : v.headerPlace + 32 < v.area.offsetBytes :=
    (Nat.add_lt_add_left (by omega) _).trans_le (hend.trans v.area_behind)
  have hlabel : readOf (flipBit v.image (v.headerPlace + 32) bit) 0 2048 =
      flipBit (readOf v.image 0 2048) (v.headerPlace + 32) bit :=
    readOf_flipBit_inside v.image bit 2048 (Nat.zero_le _)
  have hheader : readOf (flipBit v.image (v.headerPlace + 32) bit) v.headerPlace 1024 =
      flipBit (readOf v.image v.headerPlace 1024) 32 bit := by
    have hread := readOf_flipBit_inside v.image bit 1024
      (Nat.le_add_right v.headerPlace 32)
    rw [Nat.add_sub_cancel_left] at hread
    exact hread
  have hlabel_eq : parseLabel (readOf (flipBit v.image (v.headerPlace + 32) bit) 0 2048) =
      .ok v.label := by
    rw [hlabel]
    exact parseLabel_flipBit v.label_eq (Nat.add_le_add_right (Nat.le_add_right ..) 32)
  have hheader_eq := parsePvHeader_flipBit_size bit v.header_eq
  rw [← headerPlace, ← hheader] at hheader_eq
  refine v.parse_eq (readPvHeader_of_parts v.label hlabel_eq hheader_eq) rfl rfl ?_
  exact fun size place hplace => readOf_flipBit_outside size (.inl (hbefore.trans_le hplace))

theorem ValidVolume.label_undetected : ¬ v.Detects .label := by
  intro hdetects
  have hend := v.headerPlace_add_le
  have hinside := v.size_inside
  have hlength : 72 ≤ v.header.length := by
    rw [PhysicalVolumeHeader.length]
    omega
  have hstart : v.label.labelSector * 512 ≤ v.headerPlace := Nat.le_add_right ..
  obtain ⟨e, he⟩ := hdetects (v.headerPlace + 32) 0 (Nat.add_le_add hstart (by decide))
    ((Nat.add_lt_add_left (by omega) _).trans_le hend) (by omega) (by decide)
  rw [v.device_size_undetected] at he
  cases he

end Volume

/-- **The checksum is the bitwise one, and of the three those of the area and of the text find
every flipped bit, that of the label does not.** -/
theorem checksums_detect : (∀ data, lvmWeakCrc32 data = bitwiseCrc32 data) ∧
    ∀ (py : Interpreter) (v : ValidVolume py) (sum : Checksum), v.Detects sum ↔ sum ≠ .label := by
  refine ⟨lvmWeakCrc32_bitwise, fun py v sum => ?_⟩
  cases sum with
  | label => exact ⟨fun h => absurd h v.label_undetected, fun h => absurd rfl h⟩
  | areaHeader => exact ⟨fun _ => Checksum.noConfusion, fun _ => v.detects_areaHeader⟩
  | text => exact ⟨fun _ => Checksum.noConfusion, fun _ => v.detects_text⟩

/-! ### A volume with a sound label -/

/-- The volume of one group, with the checksum of its label. -/
def soundBytes : Bytes :=
  (volumeBytes oneVolumeText 3011443095 3210252336).take 16 ++ leBytes 4 3897785629 ++
    (volumeBytes oneVolumeText 3011443095 3210252336).drop 20

theorem soundBytes_mda : parseMdaHeader (readOf soundBytes (512 : ℕ) 512) =
    .ok ⟨512, 1536, [⟨512, 278, 3011443095, false⟩]⟩ := by
  have hsum : lvmWeakCrc32 (slice (readOf soundBytes (512 : ℕ) 512) 4 512) = 3210252336 := by
    rw [lvmWeakCrc32_eq]
    decide +kernel
  rw [parseMdaHeader, hsum]
  decide +kernel

theorem soundBytes_accepted : asciiInterpreter.parsePhysicalVolumeMetadata (readOf soundBytes) =
      .ok ⟨firstVolume, oneVolumeGroup⟩ := by
  have hheader : readPvHeader (readOf soundBytes) = .ok ⟨firstUuid, 4608, [], [⟨512, 1536⟩]⟩ := by
    decide +kernel
  have htext : readOf soundBytes ((512 + 512 : ℕ) : ℤ) (278 : ℕ) = oneVolumeText := by
    decide +kernel
  have hsum : lvmWeakCrc32 oneVolumeText = 3011443095 := by
    rw [lvmWeakCrc32_eq]
    decide +kernel
  have hverify : verifyMetadataTextChecksum oneVolumeText 3011443095 = .ok () := by
    rw [verifyMetadataTextChecksum, hsum, if_neg (by simp)]
  have hgroup : asciiInterpreter.readVolumeGroup firstUuid ⟨512, 1536, 1024, 278⟩ oneVolumeText =
      .ok ⟨firstVolume, oneVolumeGroup⟩ := by
    decide +kernel
  exact (parse_of_parts hheader rfl soundBytes_mda rfl rfl rfl htext hverify).trans hgroup

def soundVolume : ValidVolume asciiInterpreter where
  image := soundBytes
  label := ⟨0, 32⟩
  header := ⟨firstUuid, 4608, [], [⟨512, 1536⟩]⟩
  area := ⟨512, 1536⟩
  others := []
  mda := ⟨512, 1536, [⟨512, 278, 3011443095, false⟩]⟩
  location := ⟨512, 278, 3011443095, false⟩
  metadata := ⟨firstVolume, oneVolumeGroup⟩
  label_eq := by decide +kernel
  header_eq := by decide +kernel
  areas_eq := rfl
  mda_eq := soundBytes_mda
  location_eq := rfl
  accepted := soundBytes_accepted
  header_inside := by decide
  area_behind := by decide
  text_behind := by decide

/-- Its label has the checksum of the rest of its sector, and a flipped bit there is not found. -/
theorem soundVolume_label_undetected :
    leNat (slice soundVolume.image 16 20) = lvmWeakCrc32 (slice soundVolume.image 20 512) ∧
      ¬ soundVolume.Detects .label := by
  refine ⟨?_, soundVolume.label_undetected⟩
  rw [lvmWeakCrc32_eq]
  decide +kernel

end Kairon.Lvm

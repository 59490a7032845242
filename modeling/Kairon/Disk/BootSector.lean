/-
Kairon/Disk/BootSector.lean

A repaired boot sector laid over a disk image.

`repairNtfsBootSector` restores two fields of a boot sector that was read from the image, and
`patchedRead` puts the whole sector in place of what the inner reader returns there.  As the
rest of the sector is what the image has anyway, that is an overlay of five bytes
(`patchedRead_eq`), and its reads are reads of one fixed image.
-/
import Kairon.Lib.Image
import Kairon.Lvm.Binary
import Mathlib.Tactic.IntervalCases

namespace Kairon.Disk

open Image
open Lvm (Bytes slice)

/-! ### The boot sector -/

/-- `_NTFS_OEM_ID`. -/
def ntfsOemId : Bytes := [0x4E, 0x54, 0x46, 0x53, 0x20, 0x20, 0x20, 0x20]

/-- `_NTFS_JUMP_INSTRUCTION`. -/
def ntfsJumpInstruction : Bytes := [0xEB, 0x52, 0x90]

/-- `_NTFS_BOOT_SIGNATURE`. -/
def ntfsBootSignature : Bytes := [0x55, 0xAA]

/-- `_looks_like_repairable_ntfs_boot_sector`. -/
def looksLikeRepairableNtfsBootSector (blob : Bytes) : Bool :=
  if blob.length < 512 then false
  else if slice blob 3 11 ≠ ntfsOemId then false
  else slice blob 0 3 ≠ ntfsJumpInstruction || slice blob 510 512 ≠ ntfsBootSignature

/-- `_repair_ntfs_boot_sector`. -/
def repairNtfsBootSector (blob : Bytes) : Bytes :=
  splice (splice (blob.take 512) 0 3 ntfsJumpInstruction) 510 512 ntfsBootSignature

/-- `_BootSectorPatchedReader.read`. -/
def patchedRead (inner : Reader UInt8) (bootSectorOffset : ℕ) (patchedBootSector : Bytes) :
    Reader UInt8 := fun offset size => do
  let data ← inner offset size
  let patchStart := bootSectorOffset
  let patchEnd := patchStart + patchedBootSector.length
  let overlapStart := max offset patchStart
  let overlapEnd := min (min (offset + size) patchEnd) (offset + data.length)
  if overlapStart < overlapEnd then
    pure (splice data (overlapStart - offset) (overlapEnd - offset)
      (slice patchedBootSector (overlapStart - patchStart) (overlapEnd - patchStart)))
  else pure data

/-! ### The overlay -/

/-- The bytes of a boot sector that the repair defines. -/
def bootPatch : ℕ → Option UInt8
  | 0 => some 0xEB
  | 1 => some 0x52
  | 2 => some 0x90
  | 510 => some 0x55
  | 511 => some 0xAA
  | _ => none

/-- The same bytes, where the boot sector lies in the image. -/
def patchAt (bootSectorOffset p : ℕ) : Option UInt8 :=
  if bootSectorOffset ≤ p then bootPatch (p - bootSectorOffset) else none

theorem bootPatch_isSome_lt {k : ℕ} (h : (bootPatch k).isSome) : k < 512 := by
  unfold bootPatch at h
  split at h
  · decide
  · decide
  · decide
  · decide
  · decide
  · cases h

/-- Outside the sector nothing is patched. -/
theorem patchAt_outside {bootSectorOffset p : ℕ}
    (h : p < bootSectorOffset ∨ bootSectorOffset + 512 ≤ p) : patchAt bootSectorOffset p = none := by
  unfold patchAt
  split_ifs with hle
  · by_contra hne
    have hlt := bootPatch_isSome_lt (Option.isSome_iff_ne_none.mpr hne)
    omega
  · rfl

section Repair

variable {blob : Bytes} (hblob : 512 ≤ blob.length)
include hblob

theorem length_repair : (repairNtfsBootSector blob).length = 512 := by
  have htake : (blob.take 512).length = 512 := by rw [List.length_take]; omega
  have hinner : (splice (blob.take 512) 0 3 ntfsJumpInstruction).length = 512 := by
    rw [length_splice (by decide) (by omega) rfl, htake]
  rw [repairNtfsBootSector, length_splice (by decide) (by omega) rfl, hinner]

/-- The repaired sector is the one that was read, with the bytes of the patch. -/
theorem getElem?_repair {k : ℕ} (hk : k < 512) :
    (repairNtfsBootSector blob)[k]? = (blob[k]?).map (bootPatch k).getD := by
  have htake : (blob.take 512).length = 512 := by rw [List.length_take]; omega
  have hinner : (splice (blob.take 512) 0 3 ntfsJumpInstruction).length = 512 := by
    rw [length_splice (by decide) (by omega) rfl, htake]
  rw [repairNtfsBootSector, getElem?_splice (by decide) (by omega) rfl,
    getElem?_splice (by decide) (by omega) rfl, List.getElem?_take_of_lt hk,
    List.getElem?_eq_getElem (by omega : k < blob.length)]
  split_ifs with hsignature hjump
  · obtain ⟨hlow, hhigh⟩ := hsignature
    interval_cases k <;> rfl
  · obtain ⟨hlow, hhigh⟩ := hjump
    interval_cases k <;> rfl
  · have hnone : bootPatch k = none := by
      unfold bootPatch
      split <;> first | omega | rfl
    rw [hnone]
    rfl

end Repair

section Overlay

variable {image : Bytes} {inner : Reader UInt8} (hserves : Serves image inner)
  {bootSectorOffset blobSize : ℕ} {blob : Bytes} (hblob : inner bootSectorOffset blobSize = some blob)
  (hlooks : looksLikeRepairableNtfsBootSector blob = true)
include hserves hblob hlooks

/-- The reader lays the bytes of the patch over what it reads, and changes nothing else. -/
theorem patchedRead_eq : patchedRead inner bootSectorOffset (repairNtfsBootSector blob) =
    throughOverlay (patchAt bootSectorOffset) inner := by
  have hlength : 512 ≤ blob.length := by
    by_contra h
    rw [looksLikeRepairableNtfsBootSector, if_pos (by omega)] at hlooks
    cases hlooks
  have hrepair := length_repair hlength
  funext offset size
  unfold patchedRead throughOverlay
  cases hread : inner offset size with
  | none => rfl
  | some data =>
    have hsize := (hserves offset size data hread).length_le
    rw [List.length_take] at hsize
    simp only [Option.bind_eq_bind, Option.bind_some, Option.map_some, hrepair]
    -- a byte of the sector that was read before is the byte that is read now
    have hsame : ∀ i, i < data.length → bootSectorOffset ≤ offset + i →
        offset + i < bootSectorOffset + 512 → blob[offset + i - bootSectorOffset]? = data[i]? := by
      intro i hi hlow hhigh
      rw [hserves.getElem? hread hi, hserves.getElem? hblob (by omega)]
      congr 1
      omega
    split_ifs with hoverlap
    · refine congrArg some (List.ext_getElem? fun i => ?_)
      rw [getElem?_overlay]
      rw [getElem?_splice (by omega) (by omega)
        (by rw [slice, List.length_drop, List.length_take, hrepair]; omega)]
      split_ifs with hinside
      · rw [slice, List.getElem?_drop, List.getElem?_take_of_lt (by omega)]
        have hindex : max offset bootSectorOffset - bootSectorOffset +
            (i - (max offset bootSectorOffset - offset)) = offset + i - bootSectorOffset := by omega
        rw [hindex, getElem?_repair hlength (by omega), hsame i (by omega) (by omega) (by omega),
          patchAt, if_pos (by omega)]
      · rcases Nat.lt_or_ge i data.length with hi | hi
        · rw [List.getElem?_eq_getElem hi, patchAt_outside (by omega)]
          rfl
        · rw [List.getElem?_eq_none hi]
          rfl
    · refine congrArg some (List.ext_getElem? fun i => ?_)
      rw [getElem?_overlay]
      rcases Nat.lt_or_ge i data.length with hi | hi
      · rw [List.getElem?_eq_getElem hi, patchAt_outside (by omega)]
        rfl
      · rw [List.getElem?_eq_none hi]
        rfl

/-- **The patched reader is an exact overlay.**  A read has the length of the inner read and
its bytes, except for those of the patch; and reads are reads of one fixed image. -/
theorem patchedRead_overlay :
    (∀ offset size, ((patchedRead inner bootSectorOffset (repairNtfsBootSector blob) offset size).map
        List.length = (inner offset size).map List.length) ∧
      ∀ data, inner offset size = some data → ∃ result,
        patchedRead inner bootSectorOffset (repairNtfsBootSector blob) offset size = some result ∧
          ∀ i, result[i]? = (data[i]?).map (patchAt bootSectorOffset (offset + i)).getD) ∧
      Serves (overlay (patchAt bootSectorOffset) image)
        (patchedRead inner bootSectorOffset (repairNtfsBootSector blob)) := by
  rw [patchedRead_eq hserves hblob hlooks]
  refine ⟨fun offset size => ⟨?_, fun data hdata => ?_⟩, hserves.throughOverlay _⟩
  · rw [throughOverlay, Option.map_map]
    cases inner offset size with
    | none => rfl
    | some data => simp [overlay]
  · refine ⟨_, by rw [throughOverlay, hdata, Option.map_some], fun i => ?_⟩
    rw [getElem?_overlay]

end Overlay

/-! ### An image that was sanitised -/

/-- A sector whose identifier says NTFS and whose jump instruction and signature are zero. -/
def sanitisedImage : Bytes := List.replicate 3 0 ++ ntfsOemId ++ List.replicate 600 7

/-- A file object over the bytes of the image. -/
def fileReader (image : Bytes) : Reader UInt8 := fun offset size =>
  some ((image.drop offset).take size)

theorem serves_fileReader (image : Bytes) : Serves image (fileReader image) := by
  intro offset size data h
  cases h
  exact List.prefix_rfl

/-- Such an image is repaired. -/
theorem sanitisedImage_overlay : Serves (overlay (patchAt 0) sanitisedImage)
      (patchedRead (fileReader sanitisedImage) 0
        (repairNtfsBootSector ((sanitisedImage.drop 0).take 4096))) :=
  (patchedRead_overlay (serves_fileReader sanitisedImage)
    (show fileReader sanitisedImage 0 4096 = some _ from rfl) (by decide +kernel)).2

end Kairon.Disk

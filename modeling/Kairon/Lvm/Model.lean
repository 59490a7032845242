/-
Kairon/Lvm/Model.lean

The volumes of an LVM2 volume group, as the metadata declares them.

Sizes and extents are integers of any sign here: the metadata parser checks
them, but nothing keeps a caller from building a volume by hand.
-/
import Kairon.Search.Syntax
import Mathlib.Data.Int.Order.Basic

namespace Kairon.Lvm

open Search (Text)

/-- The bytes of an image. -/
abbrev Bytes := List UInt8

/-- A run of a logical volume on one physical volume. -/
structure LinearSegment where
  startExtent : ℤ
  extentCount : ℤ
  physicalVolumeName : Text
  startPhysicalExtent : ℤ
  deriving DecidableEq

structure LogicalVolume where
  name : Text
  id : Text
  segments : List LinearSegment
  deriving DecidableEq

structure PhysicalVolume where
  name : Text
  id : Text
  deviceSizeBytes : ℤ
  extentSizeBytes : ℤ
  peStartBytes : ℤ
  extentCount : ℤ
  deriving DecidableEq

/-- Where the metadata was found. -/
structure MetadataArea where
  headerOffsetBytes : ℤ
  areaSizeBytes : ℤ
  metadataTextOffsetBytes : ℤ
  metadataTextSizeBytes : ℤ
  deriving DecidableEq

structure VolumeGroup where
  name : Text
  id : Text
  extentSizeBytes : ℤ
  physicalVolumes : List PhysicalVolume
  logicalVolumes : List LogicalVolume
  metadataArea : MetadataArea
  deriving DecidableEq

structure PhysicalVolumeMetadata where
  physicalVolume : PhysicalVolume
  volumeGroup : VolumeGroup
  deriving DecidableEq

/-- The physical volume under a name, as a dictionary filled in order has it:
the last one counts. -/
def VolumeGroup.physicalVolumeNamed (vg : VolumeGroup) (name : Text) : Option PhysicalVolume :=
  vg.physicalVolumes.reverse.find? fun pv => pv.name = name

/-- The first byte of a segment in its logical volume. -/
def LinearSegment.startByte (s : LinearSegment) (extentSize : ℤ) : ℤ := s.startExtent * extentSize

/-- The byte behind a segment. -/
def LinearSegment.endByte (s : LinearSegment) (extentSize : ℤ) : ℤ :=
  s.startByte extentSize + s.extentCount * extentSize

/-- The segment covers a byte of its logical volume. -/
def LinearSegment.Covers (s : LinearSegment) (extentSize position : ℤ) : Prop :=
  s.startByte extentSize ≤ position ∧ position < s.endByte extentSize

instance (s : LinearSegment) (extentSize position : ℤ) :
    Decidable (s.Covers extentSize position) :=
  inferInstanceAs (Decidable (_ ∧ _))

/-- Where a byte that the segment covers lies on the physical volume. -/
def LinearSegment.physicalOffset (s : LinearSegment) (extentSize : ℤ) (pv : PhysicalVolume)
    (position : ℤ) : ℤ :=
  pv.peStartBytes + s.startPhysicalExtent * extentSize + (position - s.startByte extentSize)

end Kairon.Lvm

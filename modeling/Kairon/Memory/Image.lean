/-
Kairon/Memory/Image.lean

The layout of a memory image (`services/memory/linux_vol2_profile.py`): raw, a
chain of LiME headers, or an ELF core, and the search for the kernel's banner
in it.

Positions are integers, since the chain of LiME headers can lead before the
beginning of the file, where Python counts from the end: `slice` and
`unpackFrom` follow its rules.  The two `while` loops are turns
(`Lib/Turns.lean`), so that a chain that never ends is one in the model.
-/
import Kairon.Lib.Turns
import Kairon.Lib.Wire
import Kairon.Lvm.Model

namespace Kairon.Memory

open Search (Text strip)
open Lvm (Bytes)
open Turns
open Wire (unsigned fields)

/-! ### Bytes of a file -/

/-- The exceptions of `_image_ranges` and `find_banner`; the first is `Vol2ProfileError`. -/
inductive ImageError
  | profile (code message : String)
  | structError
  | overflowError
  | indexError
  | valueError
  deriving DecidableEq

/-- The bounds of a slice: a negative one counts from the end. -/
def sliceBound (size : ℕ) (i : ℤ) : ℕ := if i < 0 then (size + i).toNat else min i.toNat size

/-- `view[start:stop]`. -/
def slice (view : Bytes) (start stop : ℤ) : Bytes :=
  (view.drop (sliceBound view.length start)).take
    (sliceBound view.length stop - sliceBound view.length start)

/-- The bytes that `struct.unpack_from` unpacks. -/
def unpackFrom (view : Bytes) (offset : ℤ) (size : ℕ) : Except ImageError Bytes :=
  if 9223372036854775808 ≤ offset ∨ offset < -9223372036854775808 then .error .overflowError
  else if offset < 0 ∧ (0 < offset + size ∨ offset + view.length < 0) then .error .structError
  else
    let start := if offset < 0 then offset + view.length else offset
    if view.length - start < size then .error .structError
    else .ok ((view.drop start.toNat).take size)

/-! ### Ranges -/

inductive ImageKind
  | physical | elf
  deriving DecidableEq

structure Range where
  address : ℤ
  offset : ℤ
  length : ℤ

def limeMagic : Bytes := [0x45, 0x4D, 0x69, 0x4C]

def elfMagic : Bytes := [0x7F, 0x45, 0x4C, 0x46]

/-- The test of the loop over LiME headers. -/
def isHeader (view : Bytes) (offset : ℤ) : Bool :=
  offset + 32 ≤ view.length && slice view offset (offset + 4) = limeMagic

/-- The first and the last address of a header. -/
def headerFields (view : Bytes) (offset : ℤ) : Except ImageError (ℕ × ℕ) := do
  let bytes ← unpackFrom view (offset + 8) 16
  pure (unsigned (bytes.take 8), unsigned (bytes.drop 8))

/-- A turn of the loop over LiME headers. -/
def headerTurn (view : Bytes) :
    List Range × ℤ → (List Range × ℤ) ⊕ Except ImageError (List Range)
  | (ranges, offset) =>
    if isHeader view offset then
      match headerFields view offset with
      | .error e => .inr (.error e)
      | .ok (start, stop) => .inl
          (ranges ++ [⟨start, offset + 32, stop - start + 1⟩], offset + (32 + stop - start + 1))
    else .inr (.ok ranges)

/-- What is read of a program header. -/
structure Segment where
  kind : ℕ
  offset : ℕ
  vaddr : ℕ
  paddr : ℕ
  filesz : ℕ

/-- `<IIQQQQ`. -/
def segment64 (view : Bytes) (base : ℕ) : Except ImageError Segment := do
  let bytes ← unpackFrom view base 40
  match fields [4, 4, 8, 8, 8, 8] bytes with
  | [kind, _, offset, vaddr, paddr, filesz] => pure ⟨kind, offset, vaddr, paddr, filesz⟩
  | _ => .error .structError

/-- `<IIIII`. -/
def segment32 (view : Bytes) (base : ℕ) : Except ImageError Segment := do
  let bytes ← unpackFrom view base 20
  match fields [4, 4, 4, 4, 4] bytes with
  | [kind, offset, vaddr, paddr, filesz] => pure ⟨kind, offset, vaddr, paddr, filesz⟩
  | _ => .error .structError

/-- The program headers of an ELF file, the first 4096 of them. -/
def programHeaders (view : Bytes) : Except ImageError (List Segment) :=
  match (view.drop 4).head? with
  | none => .error .indexError
  | some 2 => do
      let phoff ← unpackFrom view 0x20 8
      let sizes ← unpackFrom view 0x36 4
      (List.range (min (unsigned (sizes.drop 2)) 4096)).mapM fun index =>
        segment64 view (unsigned phoff + index * unsigned (sizes.take 2))
  | some _ => do
      let phoff ← unpackFrom view 0x1C 4
      let sizes ← unpackFrom view 0x2A 4
      (List.range (min (unsigned (sizes.drop 2)) 4096)).mapM fun index =>
        segment32 view (unsigned phoff + index * unsigned (sizes.take 2))

/-- A segment that is loaded has a physical and a virtual address. -/
def Segment.ranges (segment : Segment) : List Range :=
  if segment.kind = 1 then
    [⟨segment.paddr, segment.offset, segment.filesz⟩,
      ⟨segment.vaddr, segment.offset, segment.filesz⟩]
  else []

/-- `_image_ranges`; `none` where the turns do not suffice. -/
def imageRanges (fuel : ℕ) (view : Bytes) :
    Option (Except ImageError (ImageKind × List Range)) :=
  if slice view 0 4 = limeMagic then
    (run (headerTurn view) fuel ([], 0)).map fun ranges => ranges.map fun rs => (.physical, rs)
  else if slice view 0 4 = elfMagic then
    some ((programHeaders view).map fun segments => (.elf, segments.flatMap Segment.ranges))
  else some (.ok (.physical, [⟨0, 0, view.length⟩]))

/-- `_address_of`. -/
def addressOf (ranges : List Range) (position : ℤ) : List ℤ :=
  (ranges.filter fun r => r.offset ≤ position ∧ position < r.offset + r.length).map fun r =>
    r.address + position - r.offset

/-! ### The banner -/

/-- `_kernel_bases`. -/
def kernelBases (pointerSize : ℤ) : List ℤ :=
  if pointerSize = 8 then [0xFFFFFFFF80000000] else [0xC0000000, 0x80000000, 0x40000000]

/-- `PHYSICAL_ALIGN`. -/
def physicalAlign : ℤ := 0x200000

/-- `_banner_at`. -/
def bannerAt (address bannerAddress pointerSize : ℤ) (kind : ImageKind) : Bool :=
  address = bannerAddress || (kernelBases pointerSize).any fun base =>
    address - (bannerAddress - base) = 0 ||
      (kind = .physical && (address - (bannerAddress - base)) % physicalAlign = 0)

/-- `view.find(sub, start, stop)`. -/
def find (view sub : Bytes) (start stop : ℕ) : Option ℕ :=
  (List.range' start (min stop view.length + 1 - sub.length - start)).find? fun i =>
    (view.drop i).take sub.length = sub

/-- `MAX_BANNER_BYTES`. -/
def maxBannerBytes : ℕ := 512

/-- The text up to its end and with it, where that is near enough. -/
def candidateAt (view : Bytes) (position : ℕ) : Bytes :=
  match find view [0] position (position + maxBannerBytes) with
  | none => []
  | some stop => (view.drop position).take (stop + 1 - position)

/-- `encode("latin-1", "replace")`. -/
def encodeLatin1 (s : Text) : Bytes :=
  s.map fun c => if c.toNat < 256 then UInt8.ofNat c.toNat else 0x3F

/-- A turn of the loop over the places of the banner's text. -/
def bannerTurn (view needle : Bytes) (kind : ImageKind) (ranges : List Range)
    (bannerAddress pointerSize : ℤ) : Option ℕ → Option ℕ ⊕ Except ImageError Bytes
  | none => .inr (.error (.profile "SYMBOL_PROFILE_MISMATCH"
      ("This profile's System.map does not match the memory image: " ++
        "its linux_banner address does not hold the kernel banner.")))
  | some position =>
    if candidateAt view position ≠ [] ∧ (addressOf ranges position).any fun address =>
        bannerAt address bannerAddress pointerSize kind then
      .inr (.ok (candidateAt view position))
    else .inl (find view needle (position + 1) view.length)

/-- `find_banner`, on the content of the image; an empty file cannot be mapped. -/
def findBanner (fuel : ℕ) (view : Bytes) (bannerText : Text) (bannerAddress pointerSize : ℤ) :
    Option (Except ImageError Bytes) :=
  if ¬ encodeLatin1 "Linux version ".toList <+: encodeLatin1 (strip bannerText) then
    some (.error (.profile "KERNEL_IDENTITY_UNKNOWN"
      "The memory image's kernel banner is not known."))
  else if view = [] then some (.error .valueError)
  else
    match imageRanges fuel view with
    | none => none
    | some (.error e) => some (.error e)
    | some (.ok (kind, ranges)) =>
      run (bannerTurn view (encodeLatin1 (strip bannerText)) kind ranges bannerAddress
        pointerSize) fuel (find view (encodeLatin1 (strip bannerText)) 0 view.length)

end Kairon.Memory

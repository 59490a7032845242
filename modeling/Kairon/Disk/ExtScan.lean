/-
Kairon/Disk/ExtScan.lean

The scan of an ext journal for the copies its descriptor blocks speak of.

`scan` reads the log in pieces of 1024 blocks and goes over each with an index; where a
descriptor block stands it indexes a copy for each of its tags and skips the blocks behind it.
What all that adds is what the descriptor blocks of the log add one by one (`recordsFrom`),
since no descriptor is among the blocks that are skipped (`scan_eq`).

A journal is circular: the data blocks of a descriptor near the end go on at the first block
of the log (`Journal.place`).  The scan gives up what is behind the end, so it finds all
copies exactly if no descriptor is that near to the end (`findsAll_iff`).
-/
import Kairon.Lib.Dict
import Kairon.Lib.Wire
import Kairon.Lvm.Model

namespace Kairon.Disk

open Lvm (Bytes)
open Wire (cut At big unsignedBig)

/-! ### The scan -/

/-- `_Copy`. -/
structure Copy where
  seq : ℕ
  journalBlock : ℕ
  escaped : Bool

/-- A number of `struct.unpack_from`, highest byte first; it raises where bytes are missing. -/
def unpackBig (data : Bytes) (offset width : ℕ) : Option ℕ :=
  if offset + width ≤ data.length then some (unsignedBig (cut data offset (offset + width)))
  else none

def jbd2Magic : ℕ := 0xC03B3998

section Features

variable (incompat : ℕ)

/-- `_INCOMPAT_64BIT`, `_INCOMPAT_CSUM_V2` and `_INCOMPAT_CSUM_V3`. -/
def has64 : Bool := incompat &&& 2 ≠ 0

def hasCsumV2 : Bool := incompat &&& 8 ≠ 0

def hasCsumV3 : Bool := incompat &&& 16 ≠ 0

def tagSize : ℕ := if hasCsumV3 incompat then 16 else if has64 incompat then 12 else 8

def tailSize : ℕ := if hasCsumV2 incompat || hasCsumV3 incompat then 4 else 0

end Features

/-- The flags of the tag at an offset, and the high half of its block number. -/
def tagFlags (descriptor : Bytes) (tagSize offset : ℕ) : Option ℕ :=
  if tagSize = 16 then unpackBig descriptor (offset + 4) 4 else unpackBig descriptor (offset + 6) 2

def tagHigh (descriptor : Bytes) (tagSize offset : ℕ) : Option ℕ :=
  if tagSize = 16 ∨ tagSize = 12 then unpackBig descriptor (offset + 8) 4 else some 0

/-- The loop of `_tags`; the first argument bounds its steps. -/
def tagsFrom (descriptor : Bytes) (tagSize tail : ℕ) : ℕ → ℕ → Option (List (ℕ × Bool))
  | 0, _ => some []
  | fuel + 1, offset =>
    if offset + tagSize ≤ descriptor.length - tail then do
      let low ← unpackBig descriptor offset 4
      let flags ← tagFlags descriptor tagSize offset
      let high ← tagHigh descriptor tagSize offset
      let next := offset + tagSize + if flags &&& 2 = 0 then 16 else 0
      let rest ← (if flags &&& 8 ≠ 0 then some [] else tagsFrom descriptor tagSize tail fuel next)
      some ((high <<< 32 ||| low, flags &&& 1 ≠ 0) :: rest)
    else some []

/-- `_tags`. -/
def tags (descriptor : Bytes) (tagSize tail : ℕ) : Option (List (ℕ × Bool)) :=
  tagsFrom descriptor tagSize tail descriptor.length 12

/-- `self.copies` and `self.commit_times`. -/
structure ScanIndex where
  copies : List (ℕ × List Copy)
  commitTimes : List (ℕ × ℕ)

/-- `copies.setdefault(fs_block, []).append(copy)`. -/
def addCopy (copies : List (ℕ × List Copy)) (record : ℕ × Copy) : List (ℕ × List Copy) :=
  Dict.set record.1 ((Dict.get copies record.1).getD [] ++ [record.2]) copies

/-- The copies of the tags of a descriptor, the first of them at the block behind it.  What is
behind the end of the journal is left out. -/
def tagRecords (maxlen seq : ℕ) : ℕ → List (ℕ × Bool) → List (ℕ × Copy)
  | _, [] => []
  | journalBlock, (fsBlock, escaped) :: tags =>
    if journalBlock < maxlen then
      (fsBlock, ⟨seq, journalBlock, escaped⟩) :: tagRecords maxlen seq (journalBlock + 1) tags
    else tagRecords maxlen seq (journalBlock + 1) tags

/-- A journal: the size and number of its blocks, the first one of the log, the features, and
the blocks. -/
structure JournalImage where
  blockSize : ℕ
  first : ℕ
  maxlen : ℕ
  incompat : ℕ
  block : ℕ → Bytes

section

variable (j : JournalImage)

/-- `_journal_read`. -/
def JournalImage.read (start count : ℕ) : Bytes :=
  (List.range count).flatMap fun index => j.block (start + index)

/-- The loop over the blocks of a piece; the first argument bounds its steps. -/
def scanPiece (start count : ℕ) (data : Bytes) : ℕ → ℕ → ScanIndex → Option (ℕ × ScanIndex)
  | 0, index, s => some (index, s)
  | fuel + 1, index, s =>
    if index < count then do
      let position := index * j.blockSize
      let magic ← unpackBig data position 4
      let blocktype ← unpackBig data (position + 4) 4
      let seq ← unpackBig data (position + 8) 4
      if magic ≠ jbd2Magic then scanPiece start count data fuel (index + 1) s
      else if blocktype = 2 then do
        let seconds ← unpackBig data (position + 0x30) 8
        scanPiece start count data fuel (index + 1)
          (if seconds ≠ 0 then { s with commitTimes := Dict.set seq seconds s.commitTimes } else s)
      else if blocktype ≠ 1 then scanPiece start count data fuel (index + 1) s
      else do
        let found ← tags (cut data position (position + j.blockSize)) (tagSize j.incompat)
          (tailSize j.incompat)
        scanPiece start count data fuel (index + 1 + found.length) { s with
          copies := (tagRecords j.maxlen seq (start + index + 1) found).foldl addCopy s.copies }
    else some (index, s)

/-- The loop over the pieces; the first argument bounds its steps. -/
def scanFrom : ℕ → ℕ → ScanIndex → Option ScanIndex
  | 0, _, s => some s
  | fuel + 1, start, s =>
    if start < j.maxlen then do
      let count := min 1024 (j.maxlen - start)
      let found ← scanPiece j start count (j.read start count) count 0 s
      scanFrom fuel (start + if found.1 > count then found.1 else count) found.2
    else some s

/-- `_scan`: the index, with the copies of a block in the order of their transactions. -/
def scan : Option ScanIndex := do
  let s ← scanFrom j (j.maxlen - j.first) j.first ⟨[], []⟩
  some { s with copies := s.copies.map fun items =>
    (items.1, items.2.insertionSort fun a b => a.seq ≤ b.seq) }

end

/-! ### What jbd2 writes -/

/-- A tag of a descriptor block. -/
structure Tag where
  fsBlock : ℕ
  escaped : Bool
  sameUuid : Bool
  checksum : ℕ
  uuid : Bytes
  fsBlock_lt : fsBlock < 2 ^ 64
  length_uuid : uuid.length = 16

/-- The flags of a tag; the last one of a block is marked. -/
def Tag.flags (tag : Tag) (last : Bool) : ℕ :=
  (if tag.escaped then 1 else 0) + (if tag.sameUuid then 2 else 0) + if last then 8 else 0

/-- A tag as it is written: with checksums of version 3, the flags stand before the high half
of the block number; with those of version 2, two more bytes are at the end. -/
def Tag.bytes (incompat : ℕ) (last : Bool) (tag : Tag) : Bytes :=
  (if hasCsumV3 incompat then
    big 4 (tag.fsBlock % 2 ^ 32) ++ (big 4 (tag.flags last) ++
      (big 4 (tag.fsBlock / 2 ^ 32) ++ big 4 tag.checksum))
  else
    big 4 (tag.fsBlock % 2 ^ 32) ++ (big 2 tag.checksum ++ (big 2 (tag.flags last) ++
      ((if has64 incompat then big 4 (tag.fsBlock / 2 ^ 32) else []) ++
        if hasCsumV2 incompat then big 2 0 else [])))) ++
  if tag.sameUuid then [] else tag.uuid

/-- The tags of a descriptor block, one behind the other. -/
def tagsBytes (incompat : ℕ) : List Tag → Bytes
  | [] => []
  | [tag] => tag.bytes incompat true
  | tag :: tags => tag.bytes incompat false ++ tagsBytes incompat tags

/-- A descriptor block. -/
structure Descriptor where
  seq : ℕ
  tags : List Tag
  seq_lt : seq < 2 ^ 32
  tags_ne : tags ≠ []

/-- The header of a block of the log, as three numbers. -/
def JournalImage.magic (j : JournalImage) (b : ℕ) : ℕ := unsignedBig (cut (j.block b) 0 4)

def JournalImage.blocktype (j : JournalImage) (b : ℕ) : ℕ := unsignedBig (cut (j.block b) 4 8)

/-- Where jbd2 writes the data block of a tag: the log goes on at its first block. -/
def JournalImage.place (j : JournalImage) (b i : ℕ) : ℕ :=
  j.first + (b + 1 + i - j.first) % (j.maxlen - j.first)

/-- A journal with its descriptor blocks. -/
structure Journal extends JournalImage where
  descriptors : ℕ → Option Descriptor
  blockSize_le : 1024 ≤ blockSize
  length_block : ∀ b, (block b).length = blockSize
  in_log : ∀ b d, descriptors b = some d → first ≤ b ∧ b < maxlen
  /-- A descriptor block is written as jbd2 writes it. -/
  written : ∀ b d, descriptors b = some d →
    At (block b) 0 (big 4 jbd2Magic ++ (big 4 1 ++ (big 4 d.seq ++ tagsBytes incompat d.tags))) ∧
      12 + (tagsBytes incompat d.tags).length + tailSize incompat ≤ blockSize
  /-- Without the feature, block numbers have 32 bits. -/
  small : has64 incompat = false → ∀ b d, descriptors b = some d →
    ∀ tag ∈ d.tags, tag.fsBlock < 2 ^ 32
  /-- The other blocks of the log are no descriptor blocks. -/
  others : ∀ b, first ≤ b → b < maxlen → descriptors b = none →
    ¬ (toJournalImage.magic b = jbd2Magic ∧ toJournalImage.blocktype b = 1)
  /-- Data blocks do not begin with the magic number: those that would are escaped. -/
  data : ∀ b d i, descriptors b = some d → i < d.tags.length → b + 1 + i < maxlen →
    toJournalImage.magic (b + 1 + i) ≠ jbd2Magic
  /-- One transaction writes no two blocks to one place. -/
  apart : ∀ b d i b' d' i', descriptors b = some d → i < d.tags.length →
    descriptors b' = some d' → i' < d'.tags.length → d.seq = d'.seq →
      toJournalImage.place b i = toJournalImage.place b' i' → b = b' ∧ i = i'

/-- The data block of a tag of a descriptor block. -/
inductive Journal.Logs (j : Journal) (fsBlock : ℕ) : Copy → Prop
  | tag {b i : ℕ} {d : Descriptor} {tag : Tag} : j.descriptors b = some d → d.tags[i]? = some tag →
      tag.fsBlock = fsBlock → Logs j fsBlock ⟨d.seq, j.place b i, tag.escaped⟩

/-- The scan finds the copies of every block, each where it was written, and no others. -/
def FindsAll (j : Journal) : Prop :=
  ∃ index, scan j.toJournalImage = some index ∧
    ∀ fsBlock copy, copy ∈ (Dict.get index.copies fsBlock).getD [] ↔ j.Logs fsBlock copy

/-- The data blocks of no descriptor go on at the first block. -/
def NoWrap (j : Journal) : Prop :=
  ∀ b d, j.descriptors b = some d → b + d.tags.length < j.maxlen

/-! ### Reading tags back -/

section Tags

variable {data chunk more : Bytes} {offset width n : ℕ}

theorem unpackBig_at (h : At data offset (big width n)) (hn : n < 256 ^ width) :
    unpackBig data offset width = some n := by
  have hlength := h.length_le
  rw [Wire.length_big] at hlength
  rw [unpackBig, if_pos hlength, h.cut (by rw [Wire.length_big]), Wire.unsignedBig_big hn]

/-- A number in a block is the one in the bytes it stands in. -/
theorem unpackBig_add {position : ℕ} (h : At data position chunk)
    (hwidth : offset + width ≤ chunk.length) :
    unpackBig data (position + offset) width =
      some (unsignedBig (cut chunk offset (offset + width))) := by
  have hlength := h.length_le
  rw [unpackBig, if_pos (by omega), Nat.add_assoc, h.cut_add hwidth]

theorem Tag.flags_lt (tag : Tag) (last : Bool) : tag.flags last < 2 ^ 16 := by
  rw [Tag.flags]
  split_ifs <;> decide

theorem Tag.flags_bits (tag : Tag) (last : Bool) :
    (tag.flags last &&& 8 ≠ 0 ↔ last = true) ∧ (tag.flags last &&& 2 = 0 ↔ tag.sameUuid = false) ∧
      decide (tag.flags last &&& 1 ≠ 0) = tag.escaped := by
  rw [Tag.flags]
  cases tag.escaped <;> cases tag.sameUuid <;> cases last <;> decide

/-- The two halves of a block number. -/
theorem Tag.halves (tag : Tag) :
    (tag.fsBlock / 2 ^ 32) <<< 32 ||| tag.fsBlock % 2 ^ 32 = tag.fsBlock := by
  rw [← Nat.shiftLeft_add_eq_or_of_lt (Nat.mod_lt _ (by decide)), Nat.shiftLeft_eq]
  exact Nat.div_add_mod' _ _

variable {incompat : ℕ} {tag : Tag} {last : Bool}

/-- What `_tags` reads at a tag. -/
theorem tag_at (h : At data offset (tag.bytes incompat last))
    (hsmall : has64 incompat = false → tag.fsBlock < 2 ^ 32) :
    unpackBig data offset 4 = some (tag.fsBlock % 2 ^ 32) ∧
      tagFlags data (tagSize incompat) offset = some (tag.flags last) ∧
        tagHigh data (tagSize incompat) offset = some (tag.fsBlock / 2 ^ 32) := by
  have hlow : tag.fsBlock % 2 ^ 32 < 256 ^ 4 := Nat.mod_lt _ (by decide)
  have hhigh : tag.fsBlock / 2 ^ 32 < 256 ^ 4 := by
    have hlt := tag.fsBlock_lt
    omega
  have hflags := tag.flags_lt last
  have hbytes := h.left
  rw [tagFlags, tagHigh, tagSize]
  by_cases hv3 : hasCsumV3 incompat = true
  · rw [if_pos hv3] at hbytes
    have hnext := hbytes.right
    have hlast := hnext.right.left
    rw [Wire.length_big, Wire.length_big] at hlast
    rw [Wire.length_big] at hnext
    rw [if_pos hv3, if_pos rfl, if_pos (.inl rfl)]
    exact ⟨unpackBig_at hbytes.left hlow, unpackBig_at hnext.left (hflags.trans (by decide)),
      unpackBig_at hlast hhigh⟩
  · rw [if_neg hv3] at hbytes
    have hnext := hbytes.right.right
    have hlast := hnext.right.left
    rw [Wire.length_big, Wire.length_big, Wire.length_big] at hlast
    rw [Wire.length_big, Wire.length_big] at hnext
    rw [if_neg hv3]
    refine ⟨unpackBig_at hbytes.left hlow, ?_, ?_⟩
    · rw [if_neg (by split_ifs <;> decide)]
      exact unpackBig_at hnext.left (hflags.trans_le (by decide))
    · by_cases h64 : has64 incompat = true
      · rw [if_pos h64] at hlast
        rw [if_pos (.inr (by rw [if_pos h64]))]
        exact unpackBig_at hlast hhigh
      · rw [if_neg (by rw [if_neg h64]; decide), Nat.div_eq_of_lt (hsmall (Bool.not_eq_true _ ▸ h64))]

/-- Checksums of version 2 alone: the two bytes more at the end of a tag are not known to the
scan. -/
def V2Only (incompat : ℕ) : Prop := hasCsumV2 incompat = true ∧ hasCsumV3 incompat = false

theorem tagSize_le (incompat : ℕ) (tag : Tag) (last : Bool) :
    tagSize incompat ≤ (tag.bytes incompat last).length := by
  rw [tagSize, Tag.bytes, List.length_append]
  refine le_trans ?_ (Nat.le_add_right _ _)
  split_ifs <;> simp

theorem length_tag (h : ¬ V2Only incompat) (tag : Tag) (last : Bool) :
    tagSize incompat + (if tag.sameUuid = false then 16 else 0) =
      (tag.bytes incompat last).length := by
  rw [tagSize, Tag.bytes, List.length_append]
  congr 1
  · by_cases hv3 : hasCsumV3 incompat = true
    · rw [if_pos hv3, if_pos hv3]
      simp
    · have hv2 : ¬ hasCsumV2 incompat = true := fun hv2 => h ⟨hv2, Bool.not_eq_true _ ▸ hv3⟩
      rw [if_neg hv3, if_neg hv3, if_neg hv2]
      split_ifs <;> simp
  · cases tag.sameUuid
    · exact tag.length_uuid.symm
    · rfl

/-- One step of the loop of `_tags`. -/
theorem tagsFrom_step {tail fuel : ℕ} (h : At data offset (tag.bytes incompat last))
    (hfits : offset + (tag.bytes incompat last).length ≤ data.length - tail)
    (hsmall : has64 incompat = false → tag.fsBlock < 2 ^ 32) :
    tagsFrom data (tagSize incompat) tail (fuel + 1) offset =
      (if last then some [] else tagsFrom data (tagSize incompat) tail fuel
        (offset + tagSize incompat + if tag.sameUuid = false then 16 else 0)).map
          ((tag.fsBlock, tag.escaped) :: ·) := by
  obtain ⟨hlow, hflags, hhigh⟩ := tag_at h hsmall
  obtain ⟨hlast, hsame, hescaped⟩ := tag.flags_bits last
  have hle := tagSize_le incompat tag last
  rw [tagsFrom, if_pos (by omega), hlow, hflags, hhigh]
  simp only [Option.bind_eq_bind, Option.bind_some, hlast, hsame, hescaped, tag.halves]
  cases (if last = true then some [] else _ : Option (List (ℕ × Bool))) <;> rfl

/-- **The tags of a descriptor block are read back.** -/
theorem tagsFrom_bytes {tail fuel : ℕ} {tags : List Tag} (hne : tags ≠ [])
    (hfuel : tags.length ≤ fuel) (h : At data offset (tagsBytes incompat tags))
    (hfits : offset + (tagsBytes incompat tags).length ≤ data.length - tail)
    (hsmall : has64 incompat = false → ∀ tag ∈ tags, tag.fsBlock < 2 ^ 32)
    (hv2 : V2Only incompat → tags.length = 1) :
    tagsFrom data (tagSize incompat) tail fuel offset =
      some (tags.map fun tag => (tag.fsBlock, tag.escaped)) := by
  induction tags generalizing fuel offset with
  | nil => exact absurd rfl hne
  | cons tag tags ih =>
    rcases fuel with - | fuel
    · cases hfuel
    have hhead := fun h64 => hsmall h64 tag (.head _)
    rcases tags with - | ⟨tag', tags⟩
    · rw [tagsFrom_step h hfits hhead]
      rfl
    · have hnot : ¬ V2Only incompat := fun h => by cases hv2 h
      rw [tagsBytes] at h hfits
      · rw [List.length_append] at hfits
        have hrest := h.right
        have hlength := length_tag hnot tag false
        rw [← hlength, ← Nat.add_assoc] at hrest
        rw [tagsFrom_step h.left (by omega) hhead, if_neg Bool.false_ne_true,
          ih (List.cons_ne_nil _ _) (Nat.le_of_succ_le_succ hfuel) hrest (by omega)
            (fun h64 tag htag => hsmall h64 tag (.tail _ htag))
            fun h => absurd h hnot]
        rfl
      · exact List.cons_ne_nil _ _
      · exact List.cons_ne_nil _ _

theorem length_le_tagsBytes (incompat : ℕ) (tags : List Tag) :
    tags.length ≤ (tagsBytes incompat tags).length := by
  have hpos : ∀ (tag : Tag) last, 1 ≤ (tag.bytes incompat last).length := fun tag last => by
    refine le_trans ?_ (tagSize_le incompat tag last)
    rw [tagSize]
    split_ifs <;> decide
  induction tags with
  | nil => exact Nat.zero_le _
  | cons tag tags ih =>
    rcases tags with - | ⟨tag', tags⟩
    · exact hpos tag true
    · have hbytes : tagsBytes incompat (tag :: tag' :: tags) =
          tag.bytes incompat false ++ tagsBytes incompat (tag' :: tags) := rfl
      have := hpos tag false
      rw [hbytes, List.length_append, List.length_cons]
      omega

end Tags

/-! ### Blocks in a piece -/

section Pieces

variable {j : JournalImage} (hlength : ∀ b, (j.block b).length = j.blockSize)
include hlength

theorem length_read (start count : ℕ) : (j.read start count).length = count * j.blockSize := by
  induction count with
  | zero => rw [JournalImage.read, List.range_zero, Nat.zero_mul]; rfl
  | succ count ih =>
    rw [JournalImage.read, List.range_succ, List.flatMap_append, List.length_append, Nat.succ_mul]
    exact congrArg₂ _ ih ((congrArg List.length (List.flatMap_singleton _ _)).trans (hlength _))

variable {start count index : ℕ}

/-- A block stands in the piece that was read. -/
theorem read_at (h : index < count) :
    At (j.read start count) (index * j.blockSize) (j.block (start + index)) := by
  induction count with
  | zero => exact absurd h (Nat.not_lt_zero index)
  | succ count ih =>
    have hread : j.read start (count + 1) = j.read start count ++ j.block (start + count) := by
      rw [JournalImage.read, List.range_succ, List.flatMap_append, List.flatMap_singleton]
      rfl
    rw [hread]
    rcases Nat.lt_succ_iff_lt_or_eq.mp h with h | rfl
    · exact (ih h).append _
    · rw [← length_read hlength start index]
      exact Wire.at_append _ _

/-- The numbers in the header of a block, and the time of a commit block. -/
theorem unpack_header (hsize : 1024 ≤ j.blockSize) (h : index < count) :
    unpackBig (j.read start count) (index * j.blockSize) 4 = some (j.magic (start + index)) ∧
      unpackBig (j.read start count) (index * j.blockSize + 4) 4 =
        some (j.blocktype (start + index)) ∧
      unpackBig (j.read start count) (index * j.blockSize + 8) 4 =
        some (unsignedBig (cut (j.block (start + index)) 8 12)) ∧
      unpackBig (j.read start count) (index * j.blockSize + 0x30) 8 =
        some (unsignedBig (cut (j.block (start + index)) 0x30 0x38)) := by
  have hblock : At (j.read start count) (index * j.blockSize) (j.block (start + index)) :=
    read_at hlength h
  have hle : ∀ n, n ≤ 1024 → n ≤ (j.block (start + index)).length := fun n hn =>
    (hn.trans hsize).trans (hlength _).ge
  exact ⟨@unpackBig_add _ _ 0 4 _ hblock (hle _ (by decide)),
    unpackBig_add hblock (hle _ (by decide)), unpackBig_add hblock (hle _ (by decide)),
    unpackBig_add hblock (hle _ (by decide))⟩

end Pieces

/-! ### What the blocks add -/

section Records

variable (j : Journal)

/-- What a block of the log adds to the index. -/
def recordsAt (b : ℕ) : List (ℕ × Copy) :=
  match j.descriptors b with
  | some d => tagRecords j.maxlen d.seq (b + 1) (d.tags.map fun tag => (tag.fsBlock, tag.escaped))
  | none => []

/-- What the blocks from one on add. -/
def recordsFrom (b : ℕ) : List (ℕ × Copy) := (List.range' b (j.maxlen - b)).flatMap (recordsAt j)

variable {j} {b : ℕ}

theorem recordsFrom_cons (h : b < j.maxlen) :
    recordsFrom j b = recordsAt j b ++ recordsFrom j (b + 1) := by
  rw [recordsFrom, show j.maxlen - b = j.maxlen - (b + 1) + 1 by omega, List.range'_succ,
    List.flatMap_cons]
  rfl

theorem recordsFrom_end (h : j.maxlen ≤ b) : recordsFrom j b = [] := by
  rw [recordsFrom, Nat.sub_eq_zero_of_le h]
  rfl

theorem recordsAt_none (h : j.descriptors b = none) : recordsAt j b = [] := by
  rw [recordsAt, h]

/-- Blocks that are no descriptor blocks may be skipped. -/
theorem recordsFrom_skip {count : ℕ} (h : ∀ i < count, j.descriptors (b + i) = none) :
    recordsFrom j b = recordsFrom j (b + count) := by
  induction count with
  | zero => rfl
  | succ count ih =>
    rw [ih fun i hi => h i (Nat.lt_succ_of_lt hi), ← Nat.add_assoc]
    rcases Nat.lt_or_ge (b + count) j.maxlen with hlt | hge
    · rw [recordsFrom_cons hlt, recordsAt_none (h count (Nat.lt_succ_self count)), List.nil_append]
    · rw [recordsFrom_end hge, recordsFrom_end (Nat.le_succ_of_le hge)]

/-- No descriptor block is among the data blocks of another. -/
theorem descriptors_data {d : Descriptor} (hd : j.descriptors b = some d) {i : ℕ}
    (hi : i < d.tags.length) : j.descriptors (b + 1 + i) = none := by
  by_contra hne
  obtain ⟨d', hd'⟩ := Option.ne_none_iff_exists'.mp hne
  refine j.data b d i hd hi (j.in_log _ _ hd').2 ?_
  have hmagic := (j.written _ _ hd').1.left
  rw [JournalImage.magic, hmagic.cut (by rw [Wire.length_big]), Wire.unsignedBig_big (by decide)]

/-- What the scan reads at a descriptor block. -/
theorem descriptor_read {d : Descriptor} (hd : j.descriptors b = some d)
    (hv2 : V2Only j.incompat → d.tags.length = 1) :
    j.magic b = jbd2Magic ∧ j.blocktype b = 1 ∧ unsignedBig (cut (j.block b) 8 12) = d.seq ∧
      tags (j.block b) (tagSize j.incompat) (tailSize j.incompat) =
        some (d.tags.map fun tag => (tag.fsBlock, tag.escaped)) := by
  obtain ⟨hat, hfits⟩ := j.written b d hd
  have hmagic := hat.left
  have htype := hat.right
  have hseq := htype.right
  have htags := hseq.right
  simp only [Wire.length_big, Nat.zero_add, Nat.reduceAdd] at htype hseq htags
  have hle : (tagsBytes j.incompat d.tags).length ≤ (j.block b).length := by
    have := htags.length_le
    omega
  refine ⟨?_, ?_, ?_, ?_⟩
  · rw [JournalImage.magic, hmagic.cut (by rw [Wire.length_big]), Wire.unsignedBig_big (by decide)]
  · rw [JournalImage.blocktype, htype.left.cut (by rw [Wire.length_big]),
      Wire.unsignedBig_big (by decide)]
  · rw [hseq.left.cut (by rw [Wire.length_big]), Wire.unsignedBig_big (d.seq_lt.trans_le (by decide))]
  · refine tagsFrom_bytes d.tags_ne ?_ htags ?_ (fun h64 => j.small h64 b d hd) hv2
    · exact (length_le_tagsBytes _ _).trans hle
    · rw [j.length_block]
      omega

end Records

/-! ### The index -/

theorem mem_foldl_addCopy {records : List (ℕ × Copy)} {copies : List (ℕ × List Copy)} {fsBlock : ℕ}
    {copy : Copy} : copy ∈ (Dict.get (records.foldl addCopy copies) fsBlock).getD [] ↔
      copy ∈ (Dict.get copies fsBlock).getD [] ∨ (fsBlock, copy) ∈ records := by
  induction records generalizing copies with
  | nil => simp
  | cons record records ih =>
    have hadd : copy ∈ (Dict.get (addCopy copies record) fsBlock).getD [] ↔
        copy ∈ (Dict.get copies fsBlock).getD [] ∨ (fsBlock, copy) = record := by
      rw [addCopy, Dict.get_set]
      split_ifs with hkey
      · subst hkey
        rw [Option.getD_some, List.mem_append, List.mem_singleton, Prod.ext_iff, and_iff_right rfl]
      · exact ⟨.inl, fun h => h.resolve_right fun h => hkey (congrArg Prod.fst h).symm⟩
    rw [List.foldl_cons, ih, hadd, List.mem_cons, or_assoc]

theorem mem_tagRecords {maxlen seq journalBlock fsBlock : ℕ} {tags : List (ℕ × Bool)} {copy : Copy} :
    (fsBlock, copy) ∈ tagRecords maxlen seq journalBlock tags ↔ ∃ i escaped,
      tags[i]? = some (fsBlock, escaped) ∧ journalBlock + i < maxlen ∧
        copy = ⟨seq, journalBlock + i, escaped⟩ := by
  induction tags generalizing journalBlock with
  | nil => simp [tagRecords]
  | cons tag tags ih =>
    obtain ⟨fs, escaped⟩ := tag
    have hrest : (fsBlock, copy) ∈ tagRecords maxlen seq (journalBlock + 1) tags ↔
        ∃ i escaped', ((fs, escaped) :: tags)[i + 1]? = some (fsBlock, escaped') ∧
          journalBlock + (i + 1) < maxlen ∧ copy = ⟨seq, journalBlock + (i + 1), escaped'⟩ := by
      rw [ih]
      refine exists_congr fun i => exists_congr fun escaped' => ?_
      rw [List.getElem?_cons_succ, Nat.add_assoc, Nat.add_comm 1 i]
    rw [tagRecords]
    have hsplit : ∀ {P : ℕ → Prop}, (∃ i, P i) ↔ P 0 ∨ ∃ i, P (i + 1) := fun {P} =>
      ⟨fun ⟨i, hi⟩ => by cases i; exacts [.inl hi, .inr ⟨_, hi⟩],
        fun h => h.elim (fun h => ⟨0, h⟩) fun ⟨i, hi⟩ => ⟨i + 1, hi⟩⟩
    rw [hsplit, ← hrest]
    split_ifs with hlt
    · rw [List.mem_cons]
      refine or_congr_left ⟨fun h => ⟨escaped, ?_, hlt, congrArg Prod.snd h⟩, ?_⟩
      · rw [List.getElem?_cons_zero, show fs = fsBlock from (congrArg Prod.fst h).symm]
      · rintro ⟨escaped', htag, -, rfl⟩
        cases htag
        rfl
    · refine ⟨.inr, fun h => h.resolve_left ?_⟩
      rintro ⟨-, -, h, -⟩
      exact hlt h

section Scan

variable {j : Journal} {start count fuel index : ℕ} {s : ScanIndex}

/-- A block that is no descriptor block adds no copies. -/
theorem scanPiece_other (hindex : index < count)
    (hother : ¬ (j.magic (start + index) = jbd2Magic ∧ j.blocktype (start + index) = 1)) :
    ∃ s', s'.copies = s.copies ∧
      scanPiece j.toJournalImage start count (j.read start count) (fuel + 1) index s =
        scanPiece j.toJournalImage start count (j.read start count) fuel (index + 1) s' := by
  obtain ⟨hmagic, htype, hseq, htime⟩ := @unpack_header _ j.length_block start _ _ j.blockSize_le hindex
  rw [scanPiece, if_pos hindex]
  dsimp only
  rw [hmagic, htype, hseq, htime]
  simp only [Option.bind_eq_bind, Option.bind_some]
  split_ifs with hnot hcommit hseconds hdescriptor
  · exact ⟨s, rfl, rfl⟩
  · refine ⟨_, ?_, rfl⟩
    rfl
  · exact ⟨s, rfl, rfl⟩
  · exact ⟨s, rfl, rfl⟩
  · exact absurd ⟨not_not.mp hnot, not_not.mp hdescriptor⟩ hother

/-- A descriptor block adds its records, and the blocks behind it are skipped. -/
theorem scanPiece_descriptor (hindex : index < count) {d : Descriptor}
    (hd : j.descriptors (start + index) = some d) (hv2 : V2Only j.incompat → d.tags.length = 1) :
    scanPiece j.toJournalImage start count (j.read start count) (fuel + 1) index s =
      scanPiece j.toJournalImage start count (j.read start count) fuel (index + 1 + d.tags.length)
        { s with copies := (recordsAt j (start + index)).foldl addCopy s.copies } := by
  obtain ⟨hmagic, htype, hseq, -⟩ := @unpack_header _ j.length_block start _ _ j.blockSize_le hindex
  obtain ⟨hmagic', htype', hseq', htags⟩ := descriptor_read hd hv2
  have hblock : cut (j.read start count) (index * j.blockSize) (index * j.blockSize + j.blockSize) =
      j.block (start + index) :=
    (read_at j.length_block hindex).cut (by rw [j.length_block])
  rw [scanPiece, if_pos hindex]
  dsimp only
  rw [hmagic, htype, hseq, hmagic', htype', hseq', hblock, htags, recordsAt, hd]
  simp only [Option.bind_eq_bind, Option.bind_some]
  rw [if_neg (not_not.mpr rfl), if_neg (by decide), if_neg (not_not.mpr rfl), List.length_map]

variable (hv2 : V2Only j.incompat → ∀ b d, j.descriptors b = some d → d.tags.length = 1)
include hv2

/-- The loop over a piece: what the blocks from here on add to what is there stays the same. -/
theorem scanPiece_spec (hfirst : j.first ≤ start) (hcount : start + count ≤ j.maxlen)
    (hfuel : count ≤ fuel + index) :
    ∃ index' s', scanPiece j.toJournalImage start count (j.read start count) fuel index s =
        some (index', s') ∧ count ≤ index' ∧
      (recordsFrom j (start + index')).foldl addCopy s'.copies =
        (recordsFrom j (start + index)).foldl addCopy s.copies := by
  induction fuel generalizing index s with
  | zero => exact ⟨index, s, rfl, by omega, rfl⟩
  | succ fuel ih =>
    by_cases hindex : index < count
    · have hcons : recordsFrom j (start + index) =
          recordsAt j (start + index) ++ recordsFrom j (start + index + 1) :=
        recordsFrom_cons (by omega)
      rcases hd : j.descriptors (start + index) with - | d
      · obtain ⟨s', hcopies, hstep⟩ := @scanPiece_other _ _ _ fuel _ s hindex
          (j.others _ (by omega) (by omega) hd)
        obtain ⟨index', s'', hrun, hle, hrecords⟩ := @ih (index + 1) s' (by omega)
        refine ⟨index', s'', hstep.trans hrun, hle, hrecords.trans ?_⟩
        rw [hcopies, hcons, recordsAt_none hd]
        rfl
      · have hskip : recordsFrom j (start + index + 1) =
            recordsFrom j (start + index + 1 + d.tags.length) :=
          recordsFrom_skip fun i hi => descriptors_data hd hi
        have hstep := @scanPiece_descriptor _ _ _ fuel _ s hindex d hd fun h => hv2 h _ d hd
        obtain ⟨index', s'', hrun, hle, hrecords⟩ := @ih (index + 1 + d.tags.length) _ (by omega)
        refine ⟨index', s'', hstep.trans hrun, hle, hrecords.trans ?_⟩
        rw [hcons, hskip, List.foldl_append, ← Nat.add_assoc, ← Nat.add_assoc]
    · refine ⟨index, s, ?_, not_lt.mp hindex, rfl⟩
      rw [scanPiece, if_neg hindex]

/-- The loop over the pieces adds what the blocks of the log add. -/
theorem scanFrom_spec (hfirst : j.first ≤ start) (hfuel : j.maxlen ≤ fuel + start) :
    ∃ s', scanFrom j.toJournalImage fuel start s = some s' ∧
      s'.copies = (recordsFrom j start).foldl addCopy s.copies := by
  induction fuel generalizing start s with
  | zero =>
    rw [recordsFrom_end (by omega)]
    exact ⟨s, rfl, rfl⟩
  | succ fuel ih =>
    rw [scanFrom]
    split_ifs with hstart
    · dsimp only
      have hcount : 1 ≤ min 1024 (j.maxlen - start) := by omega
      obtain ⟨index, s', hrun, hle, hrecords⟩ := @scanPiece_spec j start (min 1024 (j.maxlen - start))
        (min 1024 (j.maxlen - start)) 0 s hv2 hfirst (by omega) (Nat.le_refl _)
      have hnext : (if index > min 1024 (j.maxlen - start) then index
          else min 1024 (j.maxlen - start)) = index := by
        split_ifs <;> omega
      rw [hrun, Option.bind_eq_bind, Option.bind_some, hnext]
      obtain ⟨s'', hrest, hcopies⟩ := @ih (start + index) s' (by omega) (by omega)
      exact ⟨s'', hrest, hcopies.trans hrecords⟩
    · rw [recordsFrom_end (not_lt.mp hstart)]
      exact ⟨s, rfl, rfl⟩

/-- **The scan indexes what the descriptor blocks of the log say, and nothing else.** -/
theorem scan_eq : ∃ index, scan j.toJournalImage = some index ∧ ∀ fsBlock copy,
    copy ∈ (Dict.get index.copies fsBlock).getD [] ↔ (fsBlock, copy) ∈ recordsFrom j j.first := by
  obtain ⟨s, hrun, hcopies⟩ := @scanFrom_spec j j.first (j.maxlen - j.first) ⟨[], []⟩ hv2
    (Nat.le_refl _) (by omega)
  refine ⟨_, by rw [scan, hrun]; rfl, fun fsBlock copy => ?_⟩
  have hget : Dict.get (s.copies.map fun items =>
      (items.1, items.2.insertionSort fun a b => a.seq ≤ b.seq)) fsBlock =
        (Dict.get s.copies fsBlock).map fun items => items.insertionSort fun a b => a.seq ≤ b.seq := by
    rw [Dict.get, Dict.get, List.find?_map, Option.map_map, Option.map_map]
    rfl
  have hsort : copy ∈ ((Dict.get s.copies fsBlock).map fun items =>
      items.insertionSort fun a b => a.seq ≤ b.seq).getD [] ↔
        copy ∈ (Dict.get s.copies fsBlock).getD [] := by
    cases Dict.get s.copies fsBlock with
    | none => exact Iff.rfl
    | some items => exact List.mem_insertionSort _
  rw [hget, hsort, hcopies, mem_foldl_addCopy]
  exact or_iff_right (by simp [Dict.get])

end Scan

/-- The records of the log. -/
theorem mem_recordsFrom {j : Journal} {fsBlock : ℕ} {copy : Copy} :
    (fsBlock, copy) ∈ recordsFrom j j.first ↔ ∃ b d i tag, j.descriptors b = some d ∧
      d.tags[i]? = some tag ∧ b + 1 + i < j.maxlen ∧ tag.fsBlock = fsBlock ∧
        copy = ⟨d.seq, b + 1 + i, tag.escaped⟩ := by
  have hat : ∀ b, (fsBlock, copy) ∈ recordsAt j b ↔ ∃ d i tag, j.descriptors b = some d ∧
      d.tags[i]? = some tag ∧ b + 1 + i < j.maxlen ∧ tag.fsBlock = fsBlock ∧
        copy = ⟨d.seq, b + 1 + i, tag.escaped⟩ := by
    intro b
    rw [recordsAt]
    cases hd : j.descriptors b with
    | none => simp
    | some d =>
      rw [mem_tagRecords]
      constructor
      · rintro ⟨i, escaped, htag, hlt, rfl⟩
        rw [List.getElem?_map, Option.map_eq_some_iff] at htag
        obtain ⟨tag, htag, heq⟩ := htag
        cases heq
        exact ⟨d, i, tag, rfl, htag, hlt, rfl, rfl⟩
      · rintro ⟨d', i, tag, hd', htag, hlt, rfl, rfl⟩
        cases hd'
        exact ⟨i, tag.escaped, by rw [List.getElem?_map, htag, Option.map_some], hlt, rfl⟩
  rw [recordsFrom, List.mem_flatMap]
  refine exists_congr fun b => ⟨fun h => (hat b).mp h.2, fun h => ⟨?_, (hat b).mpr h⟩⟩
  obtain ⟨d, i, tag, hd, -⟩ := h
  obtain ⟨hfirst, hlt⟩ := j.in_log b d hd
  rw [List.mem_range'_1]
  omega

theorem place_of_lt {j : Journal} {b i : ℕ} {d : Descriptor} (hd : j.descriptors b = some d)
    (h : b + 1 + i < j.maxlen) : j.place b i = b + 1 + i := by
  have hfirst := (j.in_log b d hd).1
  rw [JournalImage.place, Nat.mod_eq_of_lt (by omega)]
  omega

/-- Where no data goes on at the first block, all copies are found. -/
theorem findsAll_of_noWrap {j : Journal}
    (hv2 : V2Only j.incompat → ∀ b d, j.descriptors b = some d → d.tags.length = 1)
    (h : NoWrap j) : FindsAll j := by
  obtain ⟨index, hscan, hindex⟩ := scan_eq hv2
  refine ⟨index, hscan, fun fsBlock copy => ?_⟩
  rw [hindex, mem_recordsFrom]
  constructor
  · rintro ⟨b, d, i, tag, hd, htag, hlt, hfs, rfl⟩
    rw [← place_of_lt hd hlt]
    exact .tag hd htag hfs
  · rintro ⟨hd, htag, hfs⟩
    rename_i b i d tag
    have hi := (List.getElem?_eq_some_iff.mp htag).1
    have hlt : b + 1 + i < j.maxlen := by
      have := h b d hd
      omega
    refine ⟨b, d, i, tag, hd, htag, hlt, hfs, ?_⟩
    rw [place_of_lt hd hlt]

/-- A copy that is written behind the first block is not found. -/
theorem noWrap_of_findsAll {j : Journal}
    (hv2 : V2Only j.incompat → ∀ b d, j.descriptors b = some d → d.tags.length = 1)
    (h : FindsAll j) : NoWrap j := by
  obtain ⟨index, hscan, hindex⟩ := scan_eq hv2
  obtain ⟨index', hscan', hlogs⟩ := h
  cases hscan.symm.trans hscan'
  intro b d hd
  by_contra hge
  have hpos : 0 < d.tags.length := List.length_pos_of_ne_nil d.tags_ne
  have hi : d.tags.length - 1 < d.tags.length := by omega
  have htag := List.getElem?_eq_getElem hi
  have hmem := (hlogs _ _).mpr (.tag hd htag rfl)
  rw [hindex, mem_recordsFrom] at hmem
  obtain ⟨b', d', i', tag', hd', htag', hlt, -, heq⟩ := hmem
  obtain ⟨hseq, hplace, -⟩ := Copy.mk.inj heq
  rw [← place_of_lt hd' hlt] at hplace
  obtain ⟨rfl, rfl⟩ := j.apart _ _ _ _ _ _ hd hi hd' (List.getElem?_eq_some_iff.mp htag').1 hseq hplace
  omega

/-- **The scan finds every copy where jbd2 wrote it, and no others, if and only if no run of
data blocks goes on at the first block of the log.** -/
theorem findsAll_iff (j : Journal)
    (hv2 : V2Only j.incompat → ∀ b d, j.descriptors b = some d → d.tags.length = 1) :
    FindsAll j ↔ NoWrap j :=
  ⟨noWrap_of_findsAll hv2, findsAll_of_noWrap hv2⟩

/-! ### Two small journals -/

/-- A descriptor with one tag, for block 7. -/
def smallDescriptor : Descriptor where
  seq := 5
  tags := [⟨7, false, false, 0, List.replicate 16 0, by decide, rfl⟩]
  seq_lt := by decide
  tags_ne := List.cons_ne_nil _ _

def smallBytes : Bytes :=
  big 4 jbd2Magic ++ (big 4 1 ++ (big 4 smallDescriptor.seq ++ tagsBytes 0 smallDescriptor.tags))

/-- Three blocks of a log, with the descriptor in one of them. -/
def smallImage (place : ℕ) : JournalImage where
  blockSize := 1024
  first := 1
  maxlen := 4
  incompat := 0
  block b := if b = place then smallBytes ++ List.replicate 988 0 else List.replicate 1024 0

theorem smallImage_block {place b : ℕ} (h : b ≠ place) :
    (smallImage place).magic b ≠ jbd2Magic := by
  have hblock : (smallImage place).block b = List.replicate 1024 0 := if_neg h
  rw [JournalImage.magic, hblock]
  decide

def smallJournal (place : ℕ) (hplace : 1 ≤ place ∧ place < 4) : Journal where
  toJournalImage := smallImage place
  descriptors b := if b = place then some smallDescriptor else none
  blockSize_le := Nat.le_refl 1024
  length_block b := by
    show (if b = place then _ else _ : Bytes).length = 1024
    split_ifs
    · rw [List.length_append, List.length_replicate]
      decide
    · exact List.length_replicate
  in_log b d hd := by
    rw [Option.ite_none_right_eq_some] at hd
    exact hd.1 ▸ hplace
  written b d hd := by
    rw [Option.ite_none_right_eq_some] at hd
    obtain ⟨rfl, hd⟩ := hd
    cases hd
    have hfits : 12 + (tagsBytes 0 smallDescriptor.tags).length + tailSize 0 ≤ 1024 := by decide
    refine ⟨⟨[], List.replicate 988 0, ?_, rfl⟩, hfits⟩
    show (if b = b then _ else _) = _
    rw [if_pos rfl]
    rfl
  small _ b d hd := by
    rw [Option.ite_none_right_eq_some] at hd
    cases hd.2
    decide
  others b _ _ hd h := by
    refine smallImage_block (fun heq => ?_) h.1
    rw [if_pos heq] at hd
    cases hd
  data b d i hd hi _ := by
    rw [Option.ite_none_right_eq_some] at hd
    exact smallImage_block (by omega)
  apart b d i b' d' i' hd hi hd' hi' _ _ := by
    rw [Option.ite_none_right_eq_some] at hd hd'
    cases hd.2
    cases hd'.2
    have hi : i < 1 := hi
    have hi' : i' < 1 := hi'
    omega

theorem smallJournal_tags (place : ℕ) (hplace : 1 ≤ place ∧ place < 4) :
    ∀ b d, (smallJournal place hplace).descriptors b = some d → b = place ∧ d.tags.length = 1 := by
  intro b d hd
  have hd := (Option.ite_none_right_eq_some).mp hd
  cases hd.2
  exact ⟨hd.1, rfl⟩

/-- The copy behind a descriptor in the first block is found. -/
theorem firstBlock_findsAll : FindsAll (smallJournal 1 (by decide)) := by
  refine (findsAll_iff (smallJournal 1 (by decide))
    fun _ b d hd => (smallJournal_tags 1 (by decide) b d hd).2).mpr fun b d hd => ?_
  obtain ⟨rfl, hlength⟩ := smallJournal_tags 1 (by decide) b d hd
  rw [hlength]
  decide

/-- The copy of a descriptor in the last block is written to the first one, and not found. -/
theorem lastBlock_not_findsAll : ¬ FindsAll (smallJournal 3 (by decide)) := by
  intro h
  have hwrap := noWrap_of_findsAll (fun _ b d hd => (smallJournal_tags 3 (by decide) b d hd).2) h 3
    smallDescriptor rfl
  exact absurd hwrap (by decide)

end Kairon.Disk

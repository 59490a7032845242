/-
Kairon/Disk/ExtContent.lean

The content of a recovered inode.

`iterContent` reads runs of adjacent blocks in chunks and counts how much it has produced.
On an image that ends at `stop`, a chunk that is cut there (`Torn`) is followed by whatever
the next chunk holds, which then stands in the wrong place.  So the output is a beginning of
the true content for every disk exactly if nothing readable follows the first torn chunk
(`NothingAfterTear`): one direction follows the loop, the other looks at a disk that is zero
but for the first byte behind the end of the image.
-/
import Kairon.Lvm.Binary

namespace Kairon.Disk

open Lvm (Bytes)

/-! ### The loop -/

/-- An element of `recovered["runs"]`. -/
structure Run where
  logical : ℕ
  physical : ℕ
  length : ℕ
  deriving DecidableEq

/-- The dictionary `mapping`: a later run counts. -/
def mappingOf (runs : List Run) : ℕ → Option ℕ :=
  runs.foldl (fun mapping run => (List.range run.length).foldl (fun mapping step =>
    Function.update mapping (run.logical + step) (some (run.physical + step))) mapping) fun _ => none

section

variable (mapping : ℕ → Option ℕ) (blockSize chunkBlocks size : ℕ)

/-- The loop that counts adjacent blocks; the first argument bounds its steps. -/
def countAdjacent (logical physical : ℕ) : ℕ → ℕ → ℕ
  | 0, count => count
  | fuel + 1, count =>
    if count < chunkBlocks ∧ mapping (logical + count) = some (physical + count) then
      countAdjacent logical physical fuel (count + 1)
    else count

/-- How many blocks the chunk at a logical block has. -/
def chunkLength (logical : ℕ) : ℕ :=
  match mapping logical with
  | none => 1
  | some physical => countAdjacent mapping chunkBlocks logical physical chunkBlocks 1

/-- `data` of one pass of the loop, cut to what is left of the size. -/
def chunkData (read : ℕ → ℕ → Bytes) (produced logical : ℕ) : Bytes :=
  match mapping logical with
  | none => (List.replicate blockSize 0).take (size - produced)
  | some physical =>
    (read (physical * blockSize) (chunkLength mapping chunkBlocks logical * blockSize)).take
      (size - produced)

/-- The loop of `iter_content`; the first argument bounds its passes. -/
def contentFrom (read : ℕ → ℕ → Bytes) : ℕ → ℕ → ℕ → List Bytes
  | 0, _, _ => []
  | fuel + 1, produced, logical =>
    if produced < size then
      match chunkData mapping blockSize chunkBlocks size read produced logical with
      | [] => []
      | b :: bs =>
        (b :: bs) :: contentFrom read fuel (produced + (b :: bs).length)
          (logical + chunkLength mapping chunkBlocks logical)
    else []

/-- `iter_content`.  Each pass produces a byte. -/
def iterContent (read : ℕ → ℕ → Bytes) (runs : List Run) (blockSize chunkBlocks size : ℕ) :
    List Bytes := contentFrom (mappingOf runs) blockSize chunkBlocks size read size 0 0

/-! ### The true content -/

/-- The byte of the file at a position. -/
def contentByte (disk : ℕ → UInt8) (p : ℕ) : UInt8 :=
  match mapping (p / blockSize) with
  | none => 0
  | some physical => disk (physical * blockSize + p % blockSize)

/-- The bytes from a position on. -/
def contentSlice (disk : ℕ → UInt8) (start length : ℕ) : Bytes :=
  (List.range length).map fun i => contentByte mapping blockSize disk (start + i)

/-- A reader of an image of the disk that ends at `stop`. -/
def truncatedReader (disk : ℕ → UInt8) (stop offset length : ℕ) : Bytes :=
  (List.range (min length (stop - offset))).map fun i => disk (offset + i)

/-- The first logical block of the next chunk. -/
def nextChunk (logical : ℕ) : ℕ := logical + chunkLength mapping chunkBlocks logical

/-- How many bytes of the file lie in the chunk at a logical block. -/
def needed (logical : ℕ) : ℕ :=
  min (chunkLength mapping chunkBlocks logical * blockSize) (size - logical * blockSize)

variable (stop : ℕ)

/-- All bytes of the file in the chunk are in the image. -/
def Readable (logical : ℕ) : Prop := ∀ physical, mapping logical = some physical →
  physical * blockSize + needed mapping blockSize chunkBlocks size logical ≤ stop

/-- Some bytes of the file in the chunk are in the image, and some are not. -/
def Torn (logical : ℕ) : Prop := ∃ physical, mapping logical = some physical ∧
  physical * blockSize < stop ∧
    stop < physical * blockSize + needed mapping blockSize chunkBlocks size logical

/-- The block is mapped to a place behind the end of the image. -/
def Beyond (logical : ℕ) : Prop :=
  ∃ physical, mapping logical = some physical ∧ stop ≤ physical * blockSize

/-- Behind the first chunk that is torn comes nothing that can be read; the chunks are
counted from a logical block on. -/
def NothingAfterTear (logical : ℕ) : Prop :=
  ∀ k, (∀ j < k, Readable mapping blockSize chunkBlocks size stop
      ((nextChunk mapping chunkBlocks)^[j] logical)) →
    (nextChunk mapping chunkBlocks)^[k] logical * blockSize < size →
    Torn mapping blockSize chunkBlocks size stop ((nextChunk mapping chunkBlocks)^[k] logical) →
      Beyond mapping blockSize stop ((nextChunk mapping chunkBlocks)^[k + 1] logical)

end

/-- What is recovered from the image is a beginning of the true content, and all of it if
no chunk is short. -/
def RecoversPrefix (runs : List Run) (blockSize chunkBlocks size stop : ℕ) (disk : ℕ → UInt8) :
    Prop :=
  let recovered := (iterContent (truncatedReader disk stop) runs blockSize chunkBlocks size).flatten
  recovered <+: contentSlice (mappingOf runs) blockSize disk 0 size ∧
    ((∀ k, (nextChunk (mappingOf runs) chunkBlocks)^[k] 0 * blockSize < size →
        Readable (mappingOf runs) blockSize chunkBlocks size stop
          ((nextChunk (mappingOf runs) chunkBlocks)^[k] 0)) →
      recovered = contentSlice (mappingOf runs) blockSize disk 0 size)

/-! ### One pass -/

section Pass

variable {mapping : ℕ → Option ℕ} {blockSize chunkBlocks size stop : ℕ} {logical physical : ℕ}

theorem countAdjacent_spec {fuel count : ℕ}
    (h : ∀ i < count, mapping (logical + i) = some (physical + i)) :
    count ≤ countAdjacent mapping chunkBlocks logical physical fuel count ∧
      ∀ i < countAdjacent mapping chunkBlocks logical physical fuel count,
        mapping (logical + i) = some (physical + i) := by
  induction fuel generalizing count with
  | zero => exact ⟨le_rfl, h⟩
  | succ fuel ih =>
    rw [countAdjacent]
    split_ifs with hnext
    · have hstep : ∀ i < count + 1, mapping (logical + i) = some (physical + i) := by
        intro i hi
        rcases Nat.lt_succ_iff_lt_or_eq.mp hi with hi | rfl
        · exact h i hi
        · exact hnext.2
      obtain ⟨hle, hall⟩ := ih hstep
      exact ⟨Nat.le_of_succ_le hle, hall⟩
    · exact ⟨le_rfl, h⟩

theorem chunkLength_pos (mapping : ℕ → Option ℕ) (chunkBlocks logical : ℕ) :
    0 < chunkLength mapping chunkBlocks logical := by
  unfold chunkLength
  split
  · decide
  · rename_i physical hphysical
    have hone : ∀ i < 1, mapping (logical + i) = some (physical + i) := by
      intro i hi
      obtain rfl : i = 0 := by omega
      exact hphysical
    exact (countAdjacent_spec hone).1

/-- The next chunk begins where this one ends, which is further on. -/
theorem nextChunk_mul {blockSize : ℕ} (hbs : 0 < blockSize) (mapping : ℕ → Option ℕ)
    (chunkBlocks logical : ℕ) : 0 < chunkLength mapping chunkBlocks logical * blockSize ∧
      nextChunk mapping chunkBlocks logical * blockSize =
        logical * blockSize + chunkLength mapping chunkBlocks logical * blockSize :=
  ⟨Nat.mul_pos (chunkLength_pos mapping chunkBlocks logical) hbs, by rw [nextChunk, Nat.add_mul]⟩

/-- The blocks of a chunk lie side by side. -/
theorem mapping_chunk (h : mapping logical = some physical) {i : ℕ}
    (hi : i < chunkLength mapping chunkBlocks logical) :
    mapping (logical + i) = some (physical + i) := by
  have hone : ∀ i < 1, mapping (logical + i) = some (physical + i) := by
    intro i hi
    obtain rfl : i = 0 := by omega
    exact h
  rw [chunkLength, h] at hi
  exact (countAdjacent_spec hone).2 i hi

variable {disk : ℕ → UInt8}

theorem contentSlice_append (start m n : ℕ) : contentSlice mapping blockSize disk start (m + n) =
      contentSlice mapping blockSize disk start m ++
        contentSlice mapping blockSize disk (start + m) n := by
  simp only [contentSlice, List.range_add, List.map_append, List.map_map]
  refine congrArg _ (List.map_congr_left fun i _ => ?_)
  simp only [Function.comp_apply, Nat.add_assoc]

/-- What a pass that begins in the right place yields, in bytes. -/
def got (mapping : ℕ → Option ℕ) (blockSize chunkBlocks size stop logical : ℕ) : ℕ :=
  match mapping logical with
  | none => needed mapping blockSize chunkBlocks size logical
  | some physical => min (needed mapping blockSize chunkBlocks size logical)
      (stop - physical * blockSize)

section

variable (hbs : 0 < blockSize)
include hbs

theorem contentByte_hole (h : mapping logical = none) {i : ℕ} (hi : i < blockSize) :
    contentByte mapping blockSize disk (logical * blockSize + i) = 0 := by
  have hdiv : (logical * blockSize + i) / blockSize = logical := by
    rw [Nat.add_comm, Nat.add_mul_div_right _ _ hbs, Nat.div_eq_of_lt hi, Nat.zero_add]
  rw [contentByte, hdiv, h]

theorem contentByte_chunk (chunkBlocks : ℕ) (h : mapping logical = some physical) {i : ℕ}
    (hi : i < chunkLength mapping chunkBlocks logical * blockSize) :
    contentByte mapping blockSize disk (logical * blockSize + i) =
      disk (physical * blockSize + i) := by
  have hdiv : (logical * blockSize + i) / blockSize = logical + i / blockSize := by
    rw [Nat.add_comm, Nat.add_mul_div_right _ _ hbs, Nat.add_comm]
  have hmod : (logical * blockSize + i) % blockSize = i % blockSize := by
    rw [Nat.add_comm, Nat.add_mul_mod_self_right]
  have hblock := mapping_chunk h (Nat.div_lt_of_lt_mul (by rwa [Nat.mul_comm] at hi))
  rw [contentByte, hdiv, hmod, hblock]
  dsimp only
  rw [Nat.add_mul, Nat.add_assoc, Nat.div_add_mod']

/-- A pass yields the bytes of its chunk, up to the end of the image. -/
theorem chunkData_eq : chunkData mapping blockSize chunkBlocks size (truncatedReader disk stop)
    (logical * blockSize) logical = contentSlice mapping blockSize disk (logical * blockSize)
      (got mapping blockSize chunkBlocks size stop logical) := by
  unfold chunkData got
  cases h : mapping logical with
  | none =>
    have hone : chunkLength mapping chunkBlocks logical = 1 := by rw [chunkLength, h]
    dsimp only
    rw [needed, hone, Nat.one_mul, List.take_replicate, Nat.min_comm]
    refine (List.eq_replicate_iff.mpr ⟨by simp [contentSlice], fun b hb => ?_⟩).symm
    obtain ⟨i, hi, rfl⟩ := List.mem_map.mp hb
    rw [List.mem_range] at hi
    exact contentByte_hole hbs h (lt_of_lt_of_le hi (Nat.min_le_left _ _))
  | some physical =>
    dsimp only
    rw [truncatedReader, ← List.map_take, List.take_range, contentSlice]
    have hlength : min (size - logical * blockSize)
        (min (chunkLength mapping chunkBlocks logical * blockSize) (stop - physical * blockSize)) =
        min (needed mapping blockSize chunkBlocks size logical) (stop - physical * blockSize) := by
      rw [needed]
      omega
    rw [hlength]
    refine List.map_congr_left fun i hi => (contentByte_chunk hbs chunkBlocks h ?_).symm
    rw [List.mem_range, needed] at hi
    omega

end

theorem got_of_readable (h : Readable mapping blockSize chunkBlocks size stop logical) :
    got mapping blockSize chunkBlocks size stop logical =
      needed mapping blockSize chunkBlocks size logical := by
  unfold got
  cases hmapping : mapping logical with
  | none => rfl
  | some physical =>
    have hle := h physical hmapping
    exact Nat.min_eq_left (by omega)

theorem needed_pos (mapping : ℕ → Option ℕ) (chunkBlocks : ℕ) (hbs : 0 < blockSize)
    (hlt : logical * blockSize < size) :
    0 < needed mapping blockSize chunkBlocks size logical := by
  have hchunk : 0 < chunkLength mapping chunkBlocks logical := chunkLength_pos _ _ _
  have := Nat.mul_pos hchunk hbs
  rw [needed]
  omega

/-- A chunk that is neither readable nor torn lies behind the end of the image. -/
theorem got_eq_zero (hreadable : ¬ Readable mapping blockSize chunkBlocks size stop logical)
    (htorn : ¬ Torn mapping blockSize chunkBlocks size stop logical) :
    got mapping blockSize chunkBlocks size stop logical = 0 := by
  unfold Readable at hreadable
  push Not at hreadable
  obtain ⟨physical, hmapping, hlt⟩ := hreadable
  have hstop : stop ≤ physical * blockSize := by
    by_contra hstop
    exact htorn ⟨physical, hmapping, by omega, hlt⟩
  unfold got
  rw [hmapping]
  dsimp only
  omega

end Pass

/-! ### The run -/

section Content

variable {mapping : ℕ → Option ℕ} {blockSize chunkBlocks size stop : ℕ} (hbs : 0 < blockSize)
  {disk : ℕ → UInt8} {fuel logical : ℕ}
include hbs

/-- A pass that begins in the right place. -/
theorem contentFrom_pass (hlt : logical * blockSize < size) :
    (contentFrom mapping blockSize chunkBlocks size (truncatedReader disk stop) (fuel + 1)
        (logical * blockSize) logical).flatten =
      contentSlice mapping blockSize disk (logical * blockSize)
        (got mapping blockSize chunkBlocks size stop logical) ++
      if got mapping blockSize chunkBlocks size stop logical = 0 then [] else
        (contentFrom mapping blockSize chunkBlocks size (truncatedReader disk stop) fuel
          (logical * blockSize + got mapping blockSize chunkBlocks size stop logical)
          (nextChunk mapping chunkBlocks logical)).flatten := by
  have hlength : (contentSlice mapping blockSize disk (logical * blockSize)
      (got mapping blockSize chunkBlocks size stop logical)).length =
        got mapping blockSize chunkBlocks size stop logical := by simp [contentSlice]
  rw [contentFrom, if_pos hlt, chunkData_eq hbs]
  rcases h : contentSlice mapping blockSize disk (logical * blockSize)
    (got mapping blockSize chunkBlocks size stop logical) with - | ⟨b, bs⟩
  · rw [h] at hlength
    have hzero : got mapping blockSize chunkBlocks size stop logical = 0 := hlength.symm
    rw [if_pos hzero]
    rfl
  · rw [h] at hlength
    have hne : got mapping blockSize chunkBlocks size stop logical ≠ 0 := by
      rw [← hlength]
      exact Nat.succ_ne_zero _
    rw [if_neg hne]
    dsimp only
    rw [hlength, List.flatten_cons, nextChunk]

omit hbs in
/-- Nothing is left to do when the size is reached. -/
theorem contentFrom_done {read : ℕ → ℕ → Bytes} {produced : ℕ} (h : size ≤ produced) :
    contentFrom mapping blockSize chunkBlocks size read fuel produced logical = [] := by
  rcases fuel with - | fuel
  · rfl
  · rw [contentFrom, if_neg (Nat.not_lt.mpr h)]

/-- A readable chunk is followed by the next one, in the right place. -/
theorem contentFrom_readable (disk : ℕ → UInt8) (fuel : ℕ) (hlt : logical * blockSize < size)
    (h : Readable mapping blockSize chunkBlocks size stop logical) :
    ∃ rest, (contentFrom mapping blockSize chunkBlocks size (truncatedReader disk stop) (fuel + 1)
        (logical * blockSize) logical).flatten =
      contentSlice mapping blockSize disk (logical * blockSize)
        (needed mapping blockSize chunkBlocks size logical) ++ rest ∧
      ((size ≤ nextChunk mapping chunkBlocks logical * blockSize ∧ rest = [] ∧
          contentSlice mapping blockSize disk (logical * blockSize) (size - logical * blockSize) =
            contentSlice mapping blockSize disk (logical * blockSize)
              (needed mapping blockSize chunkBlocks size logical)) ∨
        nextChunk mapping chunkBlocks logical * blockSize < size ∧
          rest = (contentFrom mapping blockSize chunkBlocks size (truncatedReader disk stop) fuel
            (nextChunk mapping chunkBlocks logical * blockSize)
            (nextChunk mapping chunkBlocks logical)).flatten ∧
          contentSlice mapping blockSize disk (logical * blockSize) (size - logical * blockSize) =
            contentSlice mapping blockSize disk (logical * blockSize)
              (needed mapping blockSize chunkBlocks size logical) ++
            contentSlice mapping blockSize disk (nextChunk mapping chunkBlocks logical * blockSize)
              (size - nextChunk mapping chunkBlocks logical * blockSize)) := by
  have hgot := got_of_readable h
  have hpos := needed_pos mapping chunkBlocks hbs hlt
  have hnext : nextChunk mapping chunkBlocks logical * blockSize =
      logical * blockSize + chunkLength mapping chunkBlocks logical * blockSize := by
    rw [nextChunk, Nat.add_mul]
  refine ⟨(contentFrom mapping blockSize chunkBlocks size (truncatedReader disk stop) fuel
    (logical * blockSize + needed mapping blockSize chunkBlocks size logical)
    (nextChunk mapping chunkBlocks logical)).flatten, ?_, ?_⟩
  · rw [contentFrom_pass hbs hlt, hgot, if_neg (by omega)]
  · rcases Nat.lt_or_ge (nextChunk mapping chunkBlocks logical * blockSize) size with hmore | hdone
    · have hneeded : needed mapping blockSize chunkBlocks size logical =
          chunkLength mapping chunkBlocks logical * blockSize := by
        rw [needed]
        omega
      refine .inr ⟨hmore, ?_, ?_⟩
      · rw [hneeded, ← hnext]
      · have hsplit : size - logical * blockSize =
            needed mapping blockSize chunkBlocks size logical +
              (size - nextChunk mapping chunkBlocks logical * blockSize) := by
          omega
        rw [hsplit, contentSlice_append, hneeded, ← hnext]
    · have hneeded : needed mapping blockSize chunkBlocks size logical =
          size - logical * blockSize := by
        rw [needed]
        omega
      refine .inl ⟨hdone, ?_, by rw [hneeded]⟩
      rw [contentFrom_done (by omega), List.flatten_nil]

/-- Readable chunks give the true content. -/
theorem content_of_readable (disk : ℕ → UInt8) (hlt : logical * blockSize < size)
    (hfuel : size - logical * blockSize ≤ fuel)
    (h : ∀ k, (nextChunk mapping chunkBlocks)^[k] logical * blockSize < size →
      Readable mapping blockSize chunkBlocks size stop
        ((nextChunk mapping chunkBlocks)^[k] logical)) :
    (contentFrom mapping blockSize chunkBlocks size (truncatedReader disk stop) fuel
      (logical * blockSize) logical).flatten =
    contentSlice mapping blockSize disk (logical * blockSize) (size - logical * blockSize) := by
  induction fuel generalizing logical with
  | zero => omega
  | succ fuel ih =>
    obtain ⟨rest, hrest, ⟨-, rfl, hslice⟩ | ⟨hmore, rfl, hslice⟩⟩ :=
      contentFrom_readable hbs disk fuel hlt (h 0 hlt)
    · rw [hrest, hslice, List.append_nil]
    · obtain ⟨hpos, hnext⟩ := nextChunk_mul hbs mapping chunkBlocks logical
      rw [hrest, hslice, ih hmore (by omega) fun k => h (k + 1)]

/-- If nothing readable follows the first torn chunk, the output is a beginning of the
content. -/
theorem prefix_of_nothingAfterTear (disk : ℕ → UInt8) (hlt : logical * blockSize < size)
    (hfuel : size - logical * blockSize ≤ fuel)
    (h : NothingAfterTear mapping blockSize chunkBlocks size stop logical) :
    (contentFrom mapping blockSize chunkBlocks size (truncatedReader disk stop) fuel
      (logical * blockSize) logical).flatten <+:
    contentSlice mapping blockSize disk (logical * blockSize) (size - logical * blockSize) := by
  induction fuel generalizing logical with
  | zero => omega
  | succ fuel ih =>
    by_cases hreadable : Readable mapping blockSize chunkBlocks size stop logical
    · obtain ⟨rest, hrest, ⟨-, rfl, hslice⟩ | ⟨hmore, rfl, hslice⟩⟩ :=
        contentFrom_readable hbs disk fuel hlt hreadable
      · refine ⟨[], ?_⟩
        rw [List.append_nil, hrest, hslice, List.append_nil]
      · obtain ⟨hpos, hnext⟩ := nextChunk_mul hbs mapping chunkBlocks logical
        rw [hrest, hslice, List.prefix_append_right_inj]
        refine ih hmore (by omega) fun k hbefore => h (k + 1) fun j hj => ?_
        rcases j with - | j
        · exact hreadable
        · exact hbefore j (Nat.lt_of_succ_lt_succ hj)
    · have hle : got mapping blockSize chunkBlocks size stop logical ≤ size - logical * blockSize := by
        unfold got needed
        split <;> omega
      have hrest : size - logical * blockSize = got mapping blockSize chunkBlocks size stop logical +
          (size - logical * blockSize - got mapping blockSize chunkBlocks size stop logical) := by
        omega
      rw [contentFrom_pass hbs hlt]
      split_ifs with hgot
      · rw [hgot]
        exact List.nil_prefix
      · -- the chunk is torn, and behind it the reader has nothing
        have htorn : Torn mapping blockSize chunkBlocks size stop logical := by
          by_contra htorn
          exact hgot (got_eq_zero hreadable htorn)
        obtain ⟨physical, hmapping, hbeyond⟩ := h 0 (fun j hj => absurd hj (Nat.not_lt_zero j)) hlt htorn
        have hmapping : mapping (nextChunk mapping chunkBlocks logical) = some physical := hmapping
        have hempty : ∀ fuel produced, contentFrom mapping blockSize chunkBlocks size
            (truncatedReader disk stop) fuel produced (nextChunk mapping chunkBlocks logical) = [] := by
          intro fuel produced
          rcases fuel with - | fuel
          · rfl
          · have hdata : chunkData mapping blockSize chunkBlocks size (truncatedReader disk stop)
                produced (nextChunk mapping chunkBlocks logical) = [] := by
              rw [chunkData, hmapping]
              dsimp only
              rw [truncatedReader, Nat.sub_eq_zero_of_le hbeyond, Nat.min_zero, List.range_zero,
                List.map_nil, List.take_nil]
            rw [contentFrom, hdata]
            split_ifs <;> rfl
        rw [hempty, List.flatten_nil, List.append_nil, hrest, contentSlice_append]
        exact List.prefix_append _ _

end Content

/-- Chunks come one behind the other. -/
theorem le_iterate_nextChunk (mapping : ℕ → Option ℕ) (chunkBlocks logical k : ℕ) :
    logical ≤ (nextChunk mapping chunkBlocks)^[k] logical := by
  induction k generalizing logical with
  | zero => exact le_rfl
  | succ k ih => exact le_trans (Nat.le_add_right _ _) (ih (nextChunk mapping chunkBlocks logical))

/-- The disk that is zero but for the first byte behind the end of the image. -/
def oneBehind (stop p : ℕ) : UInt8 := if p = stop then 1 else 0

section Tear

variable {mapping : ℕ → Option ℕ} {blockSize chunkBlocks size stop : ℕ} (hbs : 0 < blockSize)
  {fuel logical : ℕ}
include hbs

/-- A readable block behind a torn chunk stands where another byte belongs. -/
theorem beyond_of_prefix (hlt : logical * blockSize < size)
    (hfuel : size - logical * blockSize ≤ fuel)
    (htorn : Torn mapping blockSize chunkBlocks size stop logical)
    (h : (contentFrom mapping blockSize chunkBlocks size (truncatedReader (oneBehind stop) stop)
        fuel (logical * blockSize) logical).flatten <+:
      contentSlice mapping blockSize (oneBehind stop) (logical * blockSize)
        (size - logical * blockSize)) :
    Beyond mapping blockSize stop (nextChunk mapping chunkBlocks logical) := by
  obtain ⟨physical, hmapping, hbelow, habove⟩ := htorn
  have hgot : got mapping blockSize chunkBlocks size stop logical = stop - physical * blockSize := by
    unfold got
    rw [hmapping]
    dsimp only
    omega
  have hneeded : needed mapping blockSize chunkBlocks size logical ≤ size - logical * blockSize :=
    Nat.min_le_right _ _
  have hchunk : needed mapping blockSize chunkBlocks size logical ≤
      chunkLength mapping chunkBlocks logical * blockSize := Nat.min_le_left _ _
  obtain ⟨fuel, rfl⟩ := Nat.exists_eq_add_of_le' (show 1 ≤ fuel by omega)
  obtain ⟨fuel, rfl⟩ := Nat.exists_eq_add_of_le' (show 1 ≤ fuel by omega)
  by_contra hbeyond
  -- the pass behind the torn chunk yields a zero
  have hdata : ∃ bs, chunkData mapping blockSize chunkBlocks size
      (truncatedReader (oneBehind stop) stop) (logical * blockSize + (stop - physical * blockSize))
      (nextChunk mapping chunkBlocks logical) = 0 :: bs := by
    obtain ⟨left, hleft⟩ : ∃ left,
        size - (logical * blockSize + (stop - physical * blockSize)) = left + 1 :=
      Nat.exists_eq_add_of_le' (by omega)
    unfold chunkData
    cases hnext : mapping (nextChunk mapping chunkBlocks logical) with
    | none =>
      obtain ⟨b, rfl⟩ := Nat.exists_eq_add_of_le' (show 1 ≤ blockSize from hbs)
      dsimp only
      rw [hleft, List.replicate_succ, List.take_succ_cons]
      exact ⟨_, rfl⟩
    | some q =>
      have hq : q * blockSize < stop := by
        by_contra hq
        exact hbeyond ⟨q, hnext, Nat.not_lt.mp hq⟩
      have hpos := Nat.mul_pos (chunkLength_pos mapping chunkBlocks
        (nextChunk mapping chunkBlocks logical)) hbs
      obtain ⟨length, hlength⟩ : ∃ length,
          min (chunkLength mapping chunkBlocks (nextChunk mapping chunkBlocks logical) * blockSize)
            (stop - q * blockSize) = length + 1 := Nat.exists_eq_add_of_le' (by omega)
      dsimp only
      rw [hleft, truncatedReader, hlength, List.range_succ_eq_map, List.map_cons,
        List.take_succ_cons, oneBehind, if_neg (by omega)]
      exact ⟨_, rfl⟩
  obtain ⟨bs, hdata⟩ := hdata
  have hflat : (contentFrom mapping blockSize chunkBlocks size
      (truncatedReader (oneBehind stop) stop) (fuel + 1 + 1) (logical * blockSize) logical).flatten =
      contentSlice mapping blockSize (oneBehind stop) (logical * blockSize)
        (stop - physical * blockSize) ++ 0 :: (bs ++ (contentFrom mapping blockSize chunkBlocks size
          (truncatedReader (oneBehind stop) stop) fuel
          (logical * blockSize + (stop - physical * blockSize) + (0 :: bs).length)
          (nextChunk mapping chunkBlocks logical + chunkLength mapping chunkBlocks
            (nextChunk mapping chunkBlocks logical))).flatten) := by
    rw [contentFrom_pass hbs hlt, hgot, if_neg (by omega), contentFrom, if_pos (by omega), hdata]
    rfl
  -- and the content has a one there
  have hone : (contentSlice mapping blockSize (oneBehind stop) (logical * blockSize)
      (size - logical * blockSize))[stop - physical * blockSize]? = some 1 := by
    rw [contentSlice, List.getElem?_map, List.getElem?_range (by omega), Option.map_some,
      contentByte_chunk hbs chunkBlocks hmapping (by omega), oneBehind, if_pos (by omega)]
  rw [hflat] at h
  obtain ⟨tail, htail⟩ := h
  rw [← htail, List.append_assoc, List.getElem?_append_right (by simp [contentSlice])] at hone
  simp [contentSlice] at hone

/-- The condition is needed. -/
theorem nothingAfterTear_of_prefix (hlt : logical * blockSize < size)
    (hfuel : size - logical * blockSize ≤ fuel)
    (h : (contentFrom mapping blockSize chunkBlocks size (truncatedReader (oneBehind stop) stop)
        fuel (logical * blockSize) logical).flatten <+:
      contentSlice mapping blockSize (oneBehind stop) (logical * blockSize)
        (size - logical * blockSize)) :
    NothingAfterTear mapping blockSize chunkBlocks size stop logical := by
  intro k
  induction k generalizing fuel logical with
  | zero => exact fun _ _ htorn => beyond_of_prefix hbs hlt hfuel htorn h
  | succ k ih =>
    intro hbefore hsize htorn
    obtain ⟨fuel, rfl⟩ := Nat.exists_eq_add_of_le' (show 1 ≤ fuel by omega)
    obtain ⟨hpos, hnext⟩ := nextChunk_mul hbs mapping chunkBlocks logical
    obtain ⟨rest, hrest, ⟨hdone, -, -⟩ | ⟨hmore, rfl, hslice⟩⟩ :=
      contentFrom_readable hbs (oneBehind stop) fuel hlt (hbefore 0 (Nat.zero_lt_succ k))
    · -- later chunks lie behind the end of the file
      have hle := Nat.mul_le_mul_right blockSize
        (le_iterate_nextChunk mapping chunkBlocks (nextChunk mapping chunkBlocks logical) k)
      rw [Function.iterate_succ_apply] at hsize
      omega
    · rw [hrest, hslice, List.prefix_append_right_inj] at h
      exact ih hmore (by omega) h (fun j hj => hbefore (j + 1) (Nat.succ_lt_succ hj)) hsize htorn

end Tear

/-- **What is recovered from an image that ends early is a beginning of the content, whatever
the disk holds, exactly if nothing readable follows the first torn chunk.** -/
theorem recoversPrefix_iff {blockSize : ℕ} (hbs : 0 < blockSize) (runs : List Run)
    (chunkBlocks size stop : ℕ) :
    (∀ disk, RecoversPrefix runs blockSize chunkBlocks size stop disk) ↔
      NothingAfterTear (mappingOf runs) blockSize chunkBlocks size stop 0 := by
  rcases Nat.eq_zero_or_pos size with rfl | hsize
  · refine iff_of_true (fun disk => ⟨List.nil_prefix, fun _ => rfl⟩) fun k _ hlt => ?_
    exact absurd hlt (Nat.not_lt_zero _)
  · have hlt : 0 * blockSize < size := by rwa [Nat.zero_mul]
    have hfuel : size - 0 * blockSize ≤ size := Nat.sub_le _ _
    constructor
    · intro h
      refine nothingAfterTear_of_prefix hbs hlt hfuel ?_
      rw [Nat.zero_mul]
      exact (h (oneBehind stop)).1
    · intro h disk
      refine ⟨?_, fun hreadable => ?_⟩
      · have hprefix := prefix_of_nothingAfterTear hbs disk hlt hfuel h
        rwa [Nat.zero_mul] at hprefix
      · have hall := content_of_readable hbs disk hlt hfuel hreadable
        rwa [Nat.zero_mul] at hall

/-- Two blocks in the middle of the image are recovered. -/
theorem wholeFile_recoversPrefix :
    RecoversPrefix [⟨0, 1, 2⟩] 1024 256 1500 4096 fun i => UInt8.ofNat i := by
  refine (recoversPrefix_iff (by decide) _ _ _ _).mpr (fun k _ hlt htorn => ?_) _
  obtain ⟨physical, hmapping, -, habove⟩ := htorn
  have hphysical : physical ≤ 2 := by
    generalize (nextChunk (mappingOf [⟨0, 1, 2⟩]) 256)^[k] 0 = logical at hmapping
    simp only [mappingOf, List.foldl_cons, List.foldl_nil, List.range_succ_eq_map, List.range_zero,
      List.map_cons, List.map_nil, Function.update_apply] at hmapping
    split_ifs at hmapping
    · obtain rfl := Option.some.inj hmapping
      decide
    · obtain rfl := Option.some.inj hmapping
      decide
  have hneeded : needed (mappingOf [⟨0, 1, 2⟩]) 1024 256 1500
      ((nextChunk (mappingOf [⟨0, 1, 2⟩]) 256)^[k] 0) ≤ 1500 :=
    le_trans (Nat.min_le_right _ _) (Nat.sub_le _ _)
  omega

/-- **The end of a block that is cut is filled with zeros.** -/
theorem tornFile_not_recoversPrefix :
    ¬ RecoversPrefix [⟨0, 1, 1⟩] 1024 256 1024 1500 (oneBehind 1500) := by
  intro h
  have hcondition := nothingAfterTear_of_prefix (by decide : 0 < 1024)
    (by decide : 0 * 1024 < 1024) (by decide : 1024 - 0 * 1024 ≤ 1024) h.1
  obtain ⟨physical, hmapping, -⟩ := hcondition 0 (fun j hj => absurd hj (Nat.not_lt_zero j))
    (by decide) ⟨1, rfl, by decide, by decide⟩
  have hnone : mappingOf [⟨0, 1, 1⟩] ((nextChunk (mappingOf [⟨0, 1, 1⟩]) 256)^[0 + 1] 0) = none := by
    decide
  cases hnone.symm.trans hmapping

end Kairon.Disk

/-
Kairon/Disk/History.lean

What the index of an ext journal says of the past of a block.

The scan goes over the log by position, so transactions come in the order in which they stand
there and not in that of their sequences; they are sorted at its end.  The index is written to a
cache as JSON, whose keys are texts, and loaded from it the next time.

Whatever the log holds, a step of the scan adds copies inside the log only and keeps one entry
for a block (`Indexed`), and so does the whole scan (`indexed_scan`).  On sorted copies, the first
one from behind that is allowed is a newest one (`newest_of_find?`), and an index with one entry
for a block is what is loaded from what it was saved as (`loadIndex_saveIndex`).
-/
import Kairon.Disk.ExtScan
import Kairon.Disk.PastNames
import Kairon.Lib.Json

namespace Kairon.Disk

open Lvm (Bytes)
open Wire (cut big)
open Json (Value field readArray readBool readItems readKeyed readNat readOptional readText
  writeArray writeKeyed writeOptional)

/-! ### The index of a journal -/

/-- `self.copies`, `self.commit_times` and `self.dir_copies`. -/
structure JournalIndex extends ScanIndex where
  dirCopies : List (ℕ × List DirCopy)

/-- `self.copies.get(number, [])`. -/
def ScanIndex.copiesOf (s : ScanIndex) (number : ℕ) : List Copy := (Dict.get s.copies number).getD []

/-- The bytes of a copy: those that were escaped begin with the magic number again. -/
def Copy.unescape (copy : Copy) (data : Bytes) : Bytes :=
  if copy.escaped then big 4 jbd2Magic ++ data.drop 4 else data

section

variable (j : JournalImage) (directory : Bytes → Option (Option ℕ × List DirEntry))

/-- `copy_data`. -/
def JournalImage.copyData (copy : Copy) : Bytes := copy.unescape (j.read copy.journalBlock 1)

/-- `targets` of `_index_directories`: the block and the copy that a block of the log is for. -/
def targets (copies : List (ℕ × List Copy)) : List (ℕ × ℕ × Copy) :=
  copies.foldl (fun found entry =>
    entry.2.foldl (fun found copy => Dict.set copy.journalBlock (entry.1, copy) found) found) []

/-- The copies in a piece of the log that are directory blocks.  What such a block says is a
parameter: nothing if it does not look like one. -/
def pieceDirectories (targets : List (ℕ × ℕ × Copy)) (start : ℕ) : List (ℕ × DirCopy) :=
  let count := min 1024 (j.maxlen - start)
  let data := j.read start count
  (List.range count).filterMap fun index => do
    let target ← Dict.get targets (start + index)
    let raw := target.2.unescape (cut data (index * j.blockSize) ((index + 1) * j.blockSize))
    let found ← if raw.length = j.blockSize then directory raw else none
    some (target.1, ⟨target.2.seq, found.1, found.2⟩)

/-- `dir_copies.setdefault(fs_block, []).append(…)`. -/
def addDirCopy (copies : List (ℕ × List DirCopy)) (record : ℕ × DirCopy) :
    List (ℕ × List DirCopy) :=
  Dict.set record.1 ((Dict.get copies record.1).getD [] ++ [record.2]) copies

/-- `_index_directories`. -/
def indexDirectories (copies : List (ℕ × List Copy)) : List (ℕ × List DirCopy) :=
  let starts := (List.range ((j.maxlen + 1023) / 1024)).map fun piece => piece * 1024
  let records := starts.flatMap (pieceDirectories j directory (targets copies))
  (records.foldl addDirCopy []).map fun items =>
    (items.1, items.2.insertionSort fun a b => a.seq ≤ b.seq)

/-- What `_load_index` makes where there is no cache. -/
def buildIndex : Option JournalIndex := do
  let s ← scan j
  some ⟨s, indexDirectories j directory s.copies⟩

/-! ### The cache -/

def writeCopy (copy : Copy) : Value :=
  .array [.nat copy.seq, .nat copy.journalBlock, .bool copy.escaped]

def readCopy : Value → Option Copy
  | .array [seq, journalBlock, escaped] => do
      let seq ← readNat seq
      let journalBlock ← readNat journalBlock
      let escaped ← readBool escaped
      some ⟨seq, journalBlock, escaped⟩
  | _ => none

def writeDirEntry (entry : DirEntry) : Value :=
  .array [.text entry.name, .nat entry.inode, .nat entry.fileType, .bool entry.isLive]

def readDirEntry : Value → Option DirEntry
  | .array [name, inode, fileType, isLive] => do
      let name ← readText name
      let inode ← readNat inode
      let fileType ← readNat fileType
      let isLive ← readBool isLive
      some ⟨name, inode, fileType, isLive⟩
  | _ => none

def writeDirCopy (copy : DirCopy) : Value :=
  .array [.nat copy.seq, writeOptional .nat copy.owner, writeArray writeDirEntry copy.entries]

def readDirCopy : Value → Option DirCopy
  | .array [seq, owner, entries] => do
      let seq ← readNat seq
      let owner ← readOptional readNat owner
      let entries ← readArray readDirEntry entries
      some ⟨seq, owner, entries⟩
  | _ => none

def indexVersion : ℕ := 2

/-- What `_load_index` writes to the cache. -/
def saveIndex (index : JournalIndex) : Value :=
  .object [("version", .nat indexVersion),
    ("copies", writeKeyed (writeArray writeCopy) index.copies),
    ("commit_times", writeKeyed .nat index.commitTimes),
    ("dir_copies", writeKeyed (writeArray writeDirCopy) index.dirCopies)]

/-- What it loads from there: nothing where the version is another one or a part is missing. -/
def loadIndex (data : Value) : Option JournalIndex := do
  let version ← field "version" data
  if readNat version = some indexVersion then do
    let copies ← field "copies" data
    let copies ← readKeyed (readArray readCopy) copies
    let commitTimes ← field "commit_times" data
    let commitTimes ← readKeyed readNat commitTimes
    let dirCopies ← field "dir_copies" data
    let dirCopies ← readKeyed (readArray readDirCopy) dirCopies
    some ⟨⟨copies, commitTimes⟩, dirCopies⟩
  else none

/-! ### Blocks as of a transaction -/

/-- `max_seq is None or copy.seq <= max_seq`. -/
def Copy.allowed (maxSeq : Option ℕ) (copy : Copy) : Bool := maxSeq.all fun seq => copy.seq ≤ seq

/-- `block_as_of`, with the blocks on disk. -/
def blockAsOf (disk : ℕ → Bytes) (s : ScanIndex) (number : ℕ) (maxSeq : Option ℕ) : Bytes :=
  match (s.copiesOf number).reverse.find? (Copy.allowed maxSeq) with
  | some copy => j.copyData copy
  | none => disk number

/-- A newest one of the copies that are allowed. -/
structure Newest (copies : List Copy) (maxSeq : Option ℕ) (copy : Copy) : Prop where
  mem : copy ∈ copies
  allowed : copy.allowed maxSeq
  newest : ∀ other ∈ copies, other.allowed maxSeq → other.seq ≤ copy.seq

/-- What is promised of an index: the copies of a block are sorted and inside the log, a block is
answered with its newest copy or the one on disk, and so it is by the index from the cache. -/
structure HistoryRight (disk : ℕ → Bytes) (index : JournalIndex) : Prop where
  sorted : ∀ number, (index.copiesOf number).Pairwise fun a b => a.seq ≤ b.seq
  inside : ∀ number, ∀ copy ∈ index.copiesOf number,
    j.first ≤ copy.journalBlock ∧ copy.journalBlock < j.maxlen
  asOf : ∀ number maxSeq, (∃ copy, Newest (index.copiesOf number) maxSeq copy ∧
      blockAsOf j disk index.toScanIndex number maxSeq = j.copyData copy) ∨
    (∀ copy ∈ index.copiesOf number, ¬ copy.allowed maxSeq) ∧
      blockAsOf j disk index.toScanIndex number maxSeq = disk number
  cached : ∃ loaded, loadIndex (saveIndex index) = some loaded ∧ ∀ number maxSeq,
    blockAsOf j disk loaded.toScanIndex number maxSeq =
      blockAsOf j disk index.toScanIndex number maxSeq

end

/-! ### The scan -/

section Scan

variable {j : JournalImage}

/-- One entry for a block and for a time, and copies inside the log. -/
structure Indexed (j : JournalImage) (s : ScanIndex) : Prop where
  nodup : (s.copies.map Prod.fst).Nodup
  times : (s.commitTimes.map Prod.fst).Nodup
  inside : ∀ entry ∈ s.copies, ∀ copy ∈ entry.2,
    j.first ≤ copy.journalBlock ∧ copy.journalBlock < j.maxlen

variable {s : ScanIndex}

theorem Indexed.addTime (h : Indexed j s) (seq seconds : ℕ) :
    Indexed j { s with commitTimes := Dict.set seq seconds s.commitTimes } :=
  ⟨h.nodup, Dict.nodup_keys_set seq seconds h.times, h.inside⟩

theorem Indexed.addCopy (h : Indexed j s) {record : ℕ × Copy}
    (hrecord : j.first ≤ record.2.journalBlock ∧ record.2.journalBlock < j.maxlen) :
    Indexed j { s with copies := Disk.addCopy s.copies record } := by
  refine ⟨Dict.nodup_keys_set _ _ h.nodup, h.times, fun entry hentry copy hcopy => ?_⟩
  rcases Dict.mem_of_mem_set hentry with rfl | hentry
  · -- The copies of the block that were there, and the new one behind them.
    rw [List.mem_append, List.mem_singleton] at hcopy
    rcases hcopy with hcopy | rfl
    · rcases hget : Dict.get s.copies record.1 with - | copies
      · rw [hget] at hcopy
        cases hcopy
      · rw [hget] at hcopy
        exact h.inside _ (Dict.mem_of_get hget) copy hcopy
    · exact hrecord
  · exact h.inside entry hentry copy hcopy

theorem Indexed.addRecords (h : Indexed j s) {records : List (ℕ × Copy)}
    (hrecords : ∀ record ∈ records,
      j.first ≤ record.2.journalBlock ∧ record.2.journalBlock < j.maxlen) :
    Indexed j { s with copies := records.foldl Disk.addCopy s.copies } := by
  induction records generalizing s with
  | nil => exact h
  | cons record records ih =>
    exact @ih { s with copies := Disk.addCopy s.copies record }
      (h.addCopy (hrecords record (.head _)))
      fun other hother => hrecords other (.tail _ hother)

/-- The copies of the tags of a descriptor in the log are inside the log. -/
theorem tagRecords_inside {seq journalBlock : ℕ} {tags : List (ℕ × Bool)}
    (hfirst : j.first ≤ journalBlock) :
    ∀ record ∈ tagRecords j.maxlen seq journalBlock tags,
      j.first ≤ record.2.journalBlock ∧ record.2.journalBlock < j.maxlen := by
  rintro ⟨fsBlock, copy⟩ hrecord
  obtain ⟨i, escaped, -, hlt, rfl⟩ := mem_tagRecords.mp hrecord
  exact ⟨hfirst.trans (Nat.le_add_right _ _), hlt⟩

/-- The loop over a piece keeps the index, whatever its blocks hold. -/
theorem indexed_scanPiece {start count fuel index : ℕ} {data : Bytes}
    {result : ℕ × ScanIndex} (hstart : j.first ≤ start) (hs : Indexed j s)
    (h : scanPiece j start count data fuel index s = some result) : Indexed j result.2 := by
  induction fuel generalizing index s with
  | zero =>
    cases h
    exact hs
  | succ fuel ih =>
    rw [scanPiece] at h
    split_ifs at h
    · simp only [Option.bind_eq_bind, Option.bind_eq_some_iff] at h
      obtain ⟨magic, -, blocktype, -, seq, -, h⟩ := h
      split_ifs at h
      · exact ih hs h
      · -- A commit block.
        obtain ⟨seconds, -, h⟩ := Option.bind_eq_some_iff.mp h
        split_ifs at h
        · exact ih (hs.addTime seq seconds) h
        · exact ih hs h
      · exact ih hs h
      · -- A descriptor block.
        obtain ⟨found, -, h⟩ := Option.bind_eq_some_iff.mp h
        refine ih (hs.addRecords (tagRecords_inside ?_)) h
        omega
    · cases h
      exact hs

theorem indexed_scanFrom {fuel start : ℕ} {s s' : ScanIndex} (hstart : j.first ≤ start)
    (hs : Indexed j s) (h : scanFrom j fuel start s = some s') : Indexed j s' := by
  induction fuel generalizing start s with
  | zero =>
    cases h
    exact hs
  | succ fuel ih =>
    rw [scanFrom] at h
    split_ifs at h
    · simp only [Option.bind_eq_bind, Option.bind_eq_some_iff] at h
      obtain ⟨found, hfound, h⟩ := h
      exact ih (hstart.trans (Nat.le_add_right _ _)) (indexed_scanPiece hstart hs hfound) h
    · cases h
      exact hs

/-- **A scan, whatever the log holds: one entry for a block, its copies inside the log.** -/
theorem indexed_scan (h : scan j = some s) : Indexed j s := by
  rw [scan] at h
  simp only [Option.bind_eq_bind, Option.bind_eq_some_iff] at h
  obtain ⟨found, hfound, h⟩ := h
  cases h
  have hempty : Indexed j ⟨[], []⟩ :=
    ⟨List.nodup_nil, List.nodup_nil, fun entry hentry => by cases hentry⟩
  have hindexed := indexed_scanFrom (Nat.le_refl _) hempty hfound
  refine ⟨?_, hindexed.times, fun entry hentry copy hcopy => ?_⟩
  · rw [List.map_map]
    exact hindexed.nodup
  · obtain ⟨items, hitems, rfl⟩ := List.mem_map.mp hentry
    exact hindexed.inside items hitems copy ((List.mem_insertionSort _).mp hcopy)

theorem sorted_scan (h : scan j = some s) (number : ℕ) :
    (s.copiesOf number).Pairwise fun a b => a.seq ≤ b.seq := by
  rw [scan] at h
  simp only [Option.bind_eq_bind, Option.bind_eq_some_iff] at h
  obtain ⟨found, -, h⟩ := h
  cases h
  rw [ScanIndex.copiesOf]
  rcases hget : Dict.get _ number with - | items
  · exact List.Pairwise.nil
  · obtain ⟨items', -, heq⟩ := List.mem_map.mp (Dict.mem_of_get hget)
    cases heq
    exact List.pairwise_insertionSort _ _

theorem Indexed.inside_copiesOf (h : Indexed j s) (number : ℕ) :
    ∀ copy ∈ s.copiesOf number, j.first ≤ copy.journalBlock ∧ copy.journalBlock < j.maxlen := by
  intro copy hcopy
  rw [ScanIndex.copiesOf] at hcopy
  rcases hget : Dict.get s.copies number with - | copies
  · rw [hget] at hcopy
    cases hcopy
  · rw [hget] at hcopy
    exact h.inside _ (Dict.mem_of_get hget) copy hcopy

end Scan

/-! ### The newest copy -/

/-- On sorted copies, the first one from behind that is allowed is a newest one. -/
theorem newest_of_find? {copies : List Copy} {maxSeq : Option ℕ} {copy : Copy}
    (hsorted : copies.Pairwise fun a b => a.seq ≤ b.seq)
    (h : copies.reverse.find? (Copy.allowed maxSeq) = some copy) : Newest copies maxSeq copy := by
  obtain ⟨hallowed, behind, before, hsplit, hbehind⟩ := List.find?_eq_some_iff_append.mp h
  have hcopies : copies = before.reverse ++ copy :: behind.reverse := by
    rw [← List.reverse_reverse copies, hsplit]
    simp
  rw [hcopies] at hsorted
  refine ⟨by rw [hcopies]; simp, hallowed, fun other hother hallowed' => ?_⟩
  rw [hcopies, List.mem_append, List.mem_cons] at hother
  rcases hother with hother | rfl | hother
  · exact (List.pairwise_append.mp hsorted).2.2 other hother copy (.head _)
  · exact Nat.le_refl _
  · have hnot := hbehind other (List.mem_reverse.mp hother)
    rw [hallowed'] at hnot
    cases hnot

/-- A block is answered with a newest copy, or with the one on disk where none is allowed. -/
theorem blockAsOf_cases {j : JournalImage} {disk : ℕ → Bytes} {s : ScanIndex} {number : ℕ}
    {maxSeq : Option ℕ} (hsorted : (s.copiesOf number).Pairwise fun a b => a.seq ≤ b.seq) :
    (∃ copy, Newest (s.copiesOf number) maxSeq copy ∧
      blockAsOf j disk s number maxSeq = j.copyData copy) ∨
    (∀ copy ∈ s.copiesOf number, ¬ copy.allowed maxSeq) ∧
      blockAsOf j disk s number maxSeq = disk number := by
  rw [blockAsOf]
  rcases hfind : (s.copiesOf number).reverse.find? (Copy.allowed maxSeq) with - | copy
  · exact .inr ⟨fun copy hcopy => List.find?_eq_none.mp hfind copy (List.mem_reverse.mpr hcopy), rfl⟩
  · exact .inl ⟨copy, newest_of_find? hsorted hfind, rfl⟩

/-! ### The cache -/

theorem readCopy_writeCopy (copy : Copy) : readCopy (writeCopy copy) = some copy := rfl

theorem readDirCopy_writeDirCopy (copy : DirCopy) : readDirCopy (writeDirCopy copy) = some copy := by
  have howner : readOptional readNat (writeOptional .nat copy.owner) = some copy.owner :=
    Json.readOptional_writeOptional fun _ _ => ⟨rfl, nofun⟩
  have hentries : readArray readDirEntry (writeArray writeDirEntry copy.entries) = some copy.entries :=
    Json.readArray_writeArray fun _ _ => rfl
  rw [writeDirCopy, readDirCopy, howner, hentries]
  rfl

theorem nodup_addDirCopy {records : List (ℕ × DirCopy)} {copies : List (ℕ × List DirCopy)}
    (h : (copies.map Prod.fst).Nodup) :
    ((records.foldl addDirCopy copies).map Prod.fst).Nodup := by
  induction records generalizing copies with
  | nil => exact h
  | cons record records ih => exact ih (Dict.nodup_keys_set _ _ h)

theorem nodup_indexDirectories (j : JournalImage)
    (directory : Bytes → Option (Option ℕ × List DirEntry)) (copies : List (ℕ × List Copy)) :
    ((indexDirectories j directory copies).map Prod.fst).Nodup := by
  rw [indexDirectories, List.map_map]
  exact nodup_addDirCopy List.nodup_nil

/-- **An index with one entry for a block is what is loaded from what it was saved as.** -/
theorem loadIndex_saveIndex {j : JournalImage} {index : JournalIndex}
    (h : Indexed j index.toScanIndex) (hdir : (index.dirCopies.map Prod.fst).Nodup) :
    loadIndex (saveIndex index) = some index := by
  have hcopies : readKeyed (readArray readCopy) (writeKeyed (writeArray writeCopy) index.copies) =
      some index.copies :=
    Json.readKeyed_writeKeyed h.nodup fun _ _ =>
      Json.readArray_writeArray fun copy _ => readCopy_writeCopy copy
  have htimes : readKeyed readNat (writeKeyed .nat index.commitTimes) = some index.commitTimes :=
    Json.readKeyed_writeKeyed h.times fun _ _ => rfl
  have hdirs : readKeyed (readArray readDirCopy)
      (writeKeyed (writeArray writeDirCopy) index.dirCopies) = some index.dirCopies :=
    Json.readKeyed_writeKeyed hdir fun _ _ =>
      Json.readArray_writeArray fun copy _ => readDirCopy_writeDirCopy copy
  have hfields : ∀ key value, Dict.get [("version", .nat indexVersion),
    ("copies", writeKeyed (writeArray writeCopy) index.copies),
    ("commit_times", writeKeyed .nat index.commitTimes),
    ("dir_copies", writeKeyed (writeArray writeDirCopy) index.dirCopies)] key = some value →
      field key (saveIndex index) = some value := fun _ _ hget => hget
  rw [loadIndex, hfields "version" _ rfl, hfields "copies" _ rfl, hfields "commit_times" _ rfl,
    hfields "dir_copies" _ rfl]
  simp only [Option.bind_eq_bind, Option.bind_some, hcopies, htimes, hdirs]
  rfl

/-! ### The main result -/

/-- **The history of every block is right, whatever the log holds.** -/
theorem buildIndex_historyRight (j : JournalImage)
    (directory : Bytes → Option (Option ℕ × List DirEntry)) (disk : ℕ → Bytes) (index : JournalIndex)
    (h : buildIndex j directory = some index) : HistoryRight j disk index := by
  rw [buildIndex] at h
  simp only [Option.bind_eq_bind, Option.bind_eq_some_iff] at h
  obtain ⟨s, hscan, h⟩ := h
  cases h
  have hindexed := indexed_scan hscan
  refine ⟨sorted_scan hscan, hindexed.inside_copiesOf, fun _ _ => blockAsOf_cases (sorted_scan hscan _),
    _, loadIndex_saveIndex hindexed (nodup_indexDirectories j directory _), fun _ _ => rfl⟩

/-- The index of a log with one descriptor block. -/
theorem firstBlock_historyRight : ∃ index, buildIndex (smallImage 1) (fun _ => none) = some index ∧
      HistoryRight (smallImage 1) (fun _ => []) index := by
  obtain ⟨s, hscan, -⟩ := @scan_eq (smallJournal 1 (by decide))
    fun _ b d hd => (smallJournal_tags 1 (by decide) b d hd).2
  have hbuild : buildIndex (smallImage 1) (fun _ => none) =
      some ⟨s, indexDirectories (smallImage 1) (fun _ => none) s.copies⟩ := by
    rw [buildIndex, show scan (smallImage 1) = some s from hscan]
    rfl
  exact ⟨_, hbuild, buildIndex_historyRight _ _ _ _ hbuild⟩

end Kairon.Disk

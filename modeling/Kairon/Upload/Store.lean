/-
Kairon/Upload/Store.lean

`store_memory_upload_chunk_stream` and what it calls: the staging
classifier, the loop that receives the body, `_record_chunk_received` and
the clearing of `active_chunks` in the `finally` block.

The handler reads the row twice (at entry, and under the lock of its chunk
index) and commits it up to three times: it marks the index active, records
the chunk under the `chunks_meta` lock, and clears the mark.  Marking and
clearing run outside that lock.
-/
import Kairon.Upload.Session

namespace Kairon.Upload

open Concur

variable {D : Type} [DecidableEq D]

/-! ### Staging integrity -/

/-- The result of `classify_chunk_staging`. -/
structure Integrity where
  status : StagingStatus
  resumable : Bool
  repairable : Bool
  expectedChunks : ℕ
  dbReceivedChunks : ℕ
  diskChunks : ℕ
  missingDbChunksOnDisk : Finset ℕ
  extraDiskChunks : Finset ℕ
  sizeMismatches : Finset ℕ
  hashMismatches : Finset ℕ

/-- Recorded chunks without a file. -/
def missingOnDisk (v : StagingView) (received : Finmap fun _ : ℕ => ChunkRecord D) :
    Finset ℕ :=
  received.keys.filter fun i => v.chunks.lookup i = none

/-- A recorded size of 0 is not compared. -/
def sizeDiffers (b : Bytes) (r : ChunkRecord D) : Bool := r.size ≠ 0 ∧ b.length ≠ r.size

/-- Whether the file and the record of a chunk are both there and satisfy `p`. -/
def bothThere (p : Bytes → ChunkRecord D → Bool) (v : StagingView)
    (received : Finmap fun _ : ℕ => ChunkRecord D) (i : ℕ) : Bool :=
  (v.chunks.lookup i).any fun b => (received.lookup i).any fun r => p b r

/-- Recorded chunks whose file has another size. -/
def sizeMismatchesOf (v : StagingView) (received : Finmap fun _ : ℕ => ChunkRecord D) :
    Finset ℕ :=
  received.keys.filter fun i => bothThere sizeDiffers v received i

/-- Recorded chunks of the right size whose file has another hash. -/
def hashMismatchesOf (sha256 : Bytes → D) (v : StagingView)
    (received : Finmap fun _ : ℕ => ChunkRecord D) : Finset ℕ :=
  received.keys.filter fun i =>
    bothThere (fun b r => !sizeDiffers b r && decide (sha256 b ≠ r.sha256)) v received i

/-- `classify_chunk_staging`. -/
def classifyChunkStaging (sha256 : Bytes → D) (v : StagingView) (expectedChunks : ℕ)
    (dbReceivedChunkCount : ℕ) (received : Finmap fun _ : ℕ => ChunkRecord D)
    (verifyHashes : Bool) : Integrity :=
  if !v.sessionRoot then
    ⟨.stagingMissing, false, false, expectedChunks, dbReceivedChunkCount, 0, ∅, ∅, ∅, ∅⟩
  else if !v.chunksDir then
    ⟨.stagingMissing, false, false, expectedChunks, dbReceivedChunkCount, 0, received.keys, ∅, ∅, ∅⟩
  else
    let missing := missingOnDisk v received
    let sizes := sizeMismatchesOf v received
    let hashes := if verifyHashes then hashMismatchesOf sha256 v received else ∅
    let extra := v.chunks.keys \ received.keys
    let status : StagingStatus :=
      if missing ≠ ∅ then .missingChunks
      else if sizes ≠ ∅ then .sizeMismatch
      else if hashes ≠ ∅ then .hashMismatch
      else if extra ≠ ∅ then .extraChunks
      else .healthy
    let usable := status = .extraChunks ∨ status = .healthy
    ⟨status, usable, usable, expectedChunks, dbReceivedChunkCount, v.chunks.keys.card,
      missing, extra, sizes, hashes⟩

/-- `check_memory_upload_staging_integrity`. -/
def checkStagingIntegrity (cfg : Session D) (sha256 : Bytes → D) (v : StagingView)
    (item : Row D) (verifyHashes : Bool) : Integrity :=
  classifyChunkStaging sha256 v cfg.totalChunks item.receivedChunkCount
    item.metadata.receivedChunks verifyHashes

/-! ### Requests -/

/-- A client-declared SHA-256: missing or empty, only blanks, not 64 hex
digits, or a digest. -/
inductive ShaHeader (D : Type)
  | absent | blank | malformed | declared (d : D)

/-- How the body's stream ends: at its end, or by a disconnect or a failed
write. -/
inductive StreamEnd
  | eof | broken
  deriving DecidableEq

/-- One `PUT` of a chunk. -/
structure ChunkPut (D : Type) where
  chunkIndex : ℤ
  blocks : List Bytes
  streamEnd : StreamEnd
  contentLength : Option ℕ
  contentLengthIsPayload : Bool
  chunkSha256 : ShaHeader D
  expectedMode : UploadMode

/-- The number of bytes chunk `i` must have. -/
def expectedLength (cfg : Session D) (i : ℕ) : ℤ :=
  min (cfg.chunkSizeBytes : ℤ) ((cfg.expectedBytes : ℤ) - i * cfg.chunkSizeBytes)

/-- The receive loop: blocks are appended until one would exceed the
expected length. -/
def receiveBlocks (limit : ℤ) : List Bytes → Bytes → Except UploadError Bytes
  | [], acc => .ok acc
  | b :: bs, acc =>
    if b = [] then receiveBlocks limit bs acc
    else if ((acc.length + b.length : ℕ) : ℤ) > limit then .error .chunkTooLarge
    else receiveBlocks limit bs (acc ++ b)

/-! ### Recording a chunk -/

/-- `_set_active_chunk`. -/
def setActiveChunk (item : Row D) (i : ℕ) (active : Bool) : Row D :=
  { item with metadata := { item.metadata with
      activeChunks := if active then insert i item.metadata.activeChunks
        else item.metadata.activeChunks.erase i } }

omit [DecidableEq D] in
/-- `sum(size)` over the recorded chunks. -/
def receivedBytes (received : Finmap fun _ : ℕ => ChunkRecord D) : ℕ :=
  ∑ i ∈ received.keys, ((received.lookup i).map ChunkRecord.size).getD 0

/-- The row `_record_chunk_received` writes back. -/
def recordedRow (item : Row D) (i size : ℕ) (sha : D) (status : Option UploadStatus) :
    Row D :=
  let received := item.metadata.receivedChunks.insert i ⟨size, sha⟩
  { item with
    metadata := { item.metadata with receivedChunks := received }
    receivedChunkCount := received.keys.card
    bytesReceived := receivedBytes received
    status := status.getD item.status
    failure := none }

/-- `_record_chunk_received`: merge one chunk into the latest committed
metadata, under the session-wide `chunks_meta` lock. -/
def recordChunkReceived (i size : ℕ) (sha : D) (status : Option UploadStatus) :
    Handler D (Row D) :=
  withLock .chunksMeta do
    let item ← perform (.read .record)
    perform (.commit (.record i) (item.diff (recordedRow item i size sha status) true))
    perform (.read .recorded)

/-- The `finally` block: clear the active mark of the index. -/
def clearActive (i : ℕ) : Handler D (Row D) := do
  let item ← perform (.read .cleanup)
  perform (.commit .clearActive (item.diff (setActiveChunk item i false) false))
  perform (.read .cleaned)

/-! ### Storing the body -/

/-- The chunk is recorded with the expected length, its file is there and
the declared hash (if any) is the recorded one: nothing to do. -/
def alreadyStored (place : ReadPlace) (item : Row D) (i : ℕ) (len : ℤ)
    (declared : Option D) : Handler D Bool :=
  match item.metadata.receivedChunks.lookup i with
  | none => pure false
  | some r => do
      let exists_ ← perform (.chunkFile place i)
      pure (decide ((r.size : ℤ) = len) && exists_ && declared.all fun d => decide (r.sha256 = d))

/-- A chunk file is already there although no record was returned early:
accept the same bytes again, refuse others. -/
def compareExisting (sha256 : Bytes → D) (item : Row D) (i : ℕ) (content : Bytes) :
    Handler D (Row D) :=
  match item.metadata.receivedChunks.lookup i with
  | some r => do
      perform .dropTemp
      if r.size = content.length ∧ r.sha256 = sha256 content then pure item
      else .raise (.chunkContentMismatch i)
  | none => do
      match ← perform (.finalContent i) with
      | none => do
          perform .dropTemp
          .raise (.chunkContentMismatch i)
      | some existing => do
          perform .dropTemp
          if existing.length ≠ content.length then
            .raise (.chunkSizeMismatch i content.length existing.length)
          else if sha256 existing = sha256 content then
            recordChunkReceived i content.length (sha256 content) none
          else .raise (.chunkContentMismatch i)

/-- Rename the part file to its final name and record the chunk. -/
def renameAndRecord (sha256 : Bytes → D) (i : ℕ) (content : Bytes) : Handler D (Row D) := do
  if ← perform (.replaceTemp i content) then
    recordChunkReceived i content.length (sha256 content) (some .uploading)
  else do
    -- the staging directory vanished under a cancel
    let item ← perform (.read .vanished)
    if item.status.isTerminal then .raise .terminal else .raise .fileNotFound

/-- The body of the `try` block: receive, verify, rename, record. -/
def storeBody (sha256 : Bytes → D) (item : Row D) (put : ChunkPut D) (i : ℕ) (len : ℤ)
    (declared : Option D) : Handler D (Row D) := do
  perform .mkChunkDir
  if !(← perform .openTemp) then .raise .fileNotFound
  else match receiveBlocks len put.blocks [] with
  | .error e => do
      perform .dropTemp
      .raise e
  | .ok content =>
    if put.streamEnd = .broken then .raise .streamBroken
    else if (content.length : ℤ) ≠ len then do
      perform .dropTemp
      .raise .chunkIncomplete
    else if declared.any fun d => d ≠ sha256 content then do
      perform .dropTemp
      .raise .chunkHashMismatch
    else do
      if (← perform (.finalContent i)).isSome then compareExisting sha256 item i content
      else renameAndRecord sha256 i content

/-- The part of the handler that runs under the lock of the chunk index. -/
def storeLocked (sha256 : Bytes → D) (put : ChunkPut D) (i : ℕ) (len : ℤ)
    (declared : Option D) : Handler D (Row D) := do
  let item ← perform (.read .storeLocked)
  if item.status.isTerminal ∨ item.status.isFinalizing then .raise .finalizingOrCancelled
  else if ← alreadyStored .storeLocked item i len declared then pure item
  else do
    perform (.commit .markActive (item.diff (setActiveChunk item i true) false))
    (storeBody sha256 item put i len declared).followedBy (clearActive i)

/-- `_sanitize_sha256` of a header. -/
def ShaHeader.sanitized : ShaHeader D → Except UploadError (Option D)
  | .absent => .ok none
  | .blank => .ok none
  | .malformed => .error .invalidSha256
  | .declared d => .ok (some d)

/-- After the entry checks: length and hash headers, the fast path, and the
locked part. -/
def storeChecked (cfg : Session D) (sha256 : Bytes → D) (item : Row D) (put : ChunkPut D)
    (i : ℕ) : Handler D (Row D) :=
  if put.contentLengthIsPayload ∧ put.contentLength.any fun n : ℕ =>
      decide ((n : ℤ) ≠ expectedLength cfg i) then
    .raise .contentLength
  else match put.chunkSha256.sanitized with
  | .error e => .raise e
  | .ok declared => do
      if ← alreadyStored .storeEntry item i (expectedLength cfg i) declared then pure item
      else withLock (.chunk i) (storeLocked sha256 put i (expectedLength cfg i) declared)

/-- The row written when a chunk arrives after `expires_at`. -/
def expiredRow (item : Row D) : Row D :=
  { item with status := .expired, failure := some .sessionExpired }

/-- The row written when the staging directory cannot be resumed from. -/
def unusableRow (item : Row D) (integrity : Integrity) : Row D :=
  { item with
    status := .failed
    failure := some (.stagingUnusable integrity.status integrity.missingDbChunksOnDisk)
    retryable := true }

/-- `store_memory_upload_chunk_stream`. -/
def storeMemoryUploadChunkStream (cfg : Session D) (sha256 : Bytes → D) (put : ChunkPut D) :
    Handler D (Row D) := do
  let item ← perform (.read .storeEntry)
  if item.status.isTerminal then .raise .terminal
  else if item.status.isFinalizing then .raise .finalizing
  else if cfg.uploadMode ≠ put.expectedMode then .raise .modeConflict
  else if put.chunkIndex < 0 ∨ put.chunkIndex ≥ cfg.totalChunks then
    .raise .invalidChunkIndex
  else do
    let now ← perform (.clock .storeEntry)
    if item.expiresAt.any fun t => t < now then do
      perform (.commit .storeExpired (item.diff (expiredRow item) false))
      .raise .sessionExpired
    else do
      let view ← perform .stagingScan
      let integrity := checkStagingIntegrity cfg sha256 view item false
      if integrity.status ≠ .healthy ∧ integrity.status ≠ .extraChunks then do
        perform (.commit .storeUnusable (item.diff (unusableRow item integrity) false))
        .raise (.stagingUnusable integrity.status integrity.missingDbChunksOnDisk)
      else storeChecked cfg sha256 item put put.chunkIndex.toNat

end Kairon.Upload

/-
Kairon/Upload/Create.lean

Where a session comes from and how the client cuts the file:
`create_memory_upload_session`, which fixes the chunk size and the number of
chunks, and `sliceChunk` of the browser's `runResumableUpload.ts`.

The number of chunks is `max(1, math.ceil(expected_size_bytes / chunk_size))`
with Python's true division, so it goes through a binary64
(`Binary64.ceilTrueDiv`).
-/
import Kairon.Lib.Binary64
import Kairon.Upload.Finalize

namespace Kairon.Upload

variable {D : Type}

/-! ### Settings -/

/-- The settings read when a session is created; 0 stands for unset. -/
structure UploadSettings where
  chunkSizeBytes : ℕ
  chunkSizeMinBytes : ℕ
  chunkSizeMaxBytes : ℕ
  directThresholdBytes : ℕ
  sessionTtlSeconds : ℕ

/-- `int(value or default)`. -/
def orDefault (value default : ℕ) : ℕ := if value = 0 then default else value

/-- The chunk size of a resumable upload. -/
def UploadSettings.chunkSize (s : UploadSettings) : ℕ :=
  max (orDefault s.chunkSizeMinBytes 1048576)
    (min (orDefault s.chunkSizeMaxBytes 268435456) (orDefault s.chunkSizeBytes 67108864))

def UploadSettings.directThreshold (s : UploadSettings) : ℕ :=
  orDefault s.directThresholdBytes 1073741824

def UploadSettings.ttlSeconds (s : UploadSettings) : ℕ :=
  max 300 (orDefault s.sessionTtlSeconds 86400)

/-- `total_chunks`. -/
def totalChunksOf (expectedSizeBytes chunkSize : ℕ) : ℕ :=
  max 1 (Binary64.ceilTrueDiv expectedSizeBytes chunkSize)

/-! ### The new session -/

inductive CreateError
  | disabled | invalidSize | tooLarge | unsupportedExtension | hostRequired
  | activeSessionExists | caseQuotaExceeded | insufficientSpace
  | invalidMode | directTooLarge | invalidSha256

/-- What the checks of the request against the policy of its kind, the
database and the file system answer. -/
structure Admission where
  enabled : Bool
  maxBytes : ℕ
  extensionAllowed : Bool
  hostGiven : Bool
  activeSessionExists : Bool
  withinCaseQuota : Bool
  capacity : Bool

/-- The request; a mode that is given may be neither `direct` nor
`resumable`. -/
structure CreateRequest (D : Type) where
  expectedSizeBytes : ℤ
  uploadMode : Option (Option UploadMode)
  fileFingerprint : ShaHeader D
  expectedSha256 : ShaHeader D

/-- The columns fixed at creation. -/
def newSession (expectedBytes chunkSize : ℕ) (expectedSha256 : Option D)
    (mode : UploadMode) (ttlSeconds : ℕ) : Session D where
  expectedBytes := expectedBytes
  chunkSizeBytes := chunkSize
  totalChunks := totalChunksOf expectedBytes chunkSize
  expectedSha256 := expectedSha256
  uploadMode := mode
  ttlSeconds := ttlSeconds

/-- The row and the staging directory right after creation. -/
def newWorld (now ttlSeconds : ℕ) : World D where
  row :=
    { status := .created
      metadata := { receivedChunks := ∅, activeChunks := ∅, duplicate := none }
      receivedChunkCount := 0
      bytesReceived := 0
      sha256 := none
      failure := none
      retryable := false
      expiresAt := some (now + ttlSeconds) }
  disk :=
    { sessionRoot := true
      chunksDir := true
      chunks := ∅
      temps := ∅
      assemblies := ∅
      canonical := none }
  locks := fun _ => none
  evidence := none

/-- The mode of a request. -/
def selectedMode : Option (Option UploadMode) → Except CreateError UploadMode
  | none => .ok .resumable
  | some (some mode) => .ok mode
  | some none => .error .invalidMode

def sanitizedSha : ShaHeader D → Except CreateError (Option D)
  | .absent => .ok none
  | .blank => .ok none
  | .malformed => .error .invalidSha256
  | .declared d => .ok (some d)

/-- The checks of `create_memory_upload_session`, in order, and the mode. -/
def checkedMode (s : UploadSettings) (a : Admission) (req : CreateRequest D) :
    Except CreateError UploadMode :=
  if !a.enabled then .error .disabled
  else if req.expectedSizeBytes ≤ 0 then .error .invalidSize
  else if req.expectedSizeBytes > a.maxBytes then .error .tooLarge
  else if !a.extensionAllowed then .error .unsupportedExtension
  else if !a.hostGiven then .error .hostRequired
  else if a.activeSessionExists then .error .activeSessionExists
  else if !a.withinCaseQuota then .error .caseQuotaExceeded
  else if !a.capacity then .error .insufficientSpace
  else match selectedMode req.uploadMode with
  | .error e => .error e
  | .ok mode =>
    if mode = .direct ∧ req.expectedSizeBytes > s.directThreshold then .error .directTooLarge
    else .ok mode

/-- `create_memory_upload_session`. -/
def createMemoryUploadSession (s : UploadSettings) (a : Admission) (now : ℕ)
    (req : CreateRequest D) : Except CreateError (Session D × World D) := do
  let mode ← checkedMode s a req
  let _ ← sanitizedSha req.fileFingerprint
  let sha ← sanitizedSha req.expectedSha256
  let expected := req.expectedSizeBytes.toNat
  let chunkSize := if mode = .direct then expected else s.chunkSize
  pure (newSession expected chunkSize sha mode s.ttlSeconds, newWorld now s.ttlSeconds)

theorem chunkSize_pos (s : UploadSettings) : 0 < s.chunkSize := by
  unfold UploadSettings.chunkSize orDefault
  split_ifs <;> omega

variable {req : CreateRequest D}

theorem checkedMode_size {s : UploadSettings} {a : Admission} {mode : UploadMode}
    (h : checkedMode s a req = .ok mode) :
    0 < req.expectedSizeBytes ∧ req.expectedSizeBytes ≤ a.maxBytes := by
  unfold checkedMode at h
  split_ifs at h
  omega

/-- A created session is a new one of a non-empty file within the limit, with a positive chunk
size. -/
theorem createMemoryUploadSession_spec {s : UploadSettings} {a : Admission} {now : ℕ}
    {cfg : Session D} {w : World D} (h : createMemoryUploadSession s a now req = .ok (cfg, w)) :
    0 < req.expectedSizeBytes ∧ req.expectedSizeBytes ≤ a.maxBytes ∧
      ∃ chunkSize sha mode, 0 < chunkSize ∧
        cfg = newSession req.expectedSizeBytes.toNat chunkSize sha mode s.ttlSeconds ∧
        w = newWorld now s.ttlSeconds := by
  unfold createMemoryUploadSession at h
  rcases hmode : checkedMode s a req with e | mode
  · simp [hmode, Except.bind, bind] at h
  · obtain ⟨hpos, hle⟩ := checkedMode_size hmode
    rcases hfp : sanitizedSha req.fileFingerprint with e | fp
    · simp [hmode, hfp, Except.bind, bind] at h
    · rcases hsha : sanitizedSha req.expectedSha256 with e | sha
      · simp [hmode, hfp, hsha, Except.bind, bind] at h
      · simp only [hmode, hfp, hsha, Except.bind, bind, pure, Except.pure,
          Except.ok.injEq, Prod.mk.injEq] at h
        refine ⟨hpos, hle, _, sha, mode, ?_, h.1.symm, h.2.symm⟩
        split
        · omega
        · exact chunkSize_pos s

/-! ### The client's slices -/

inductive SliceError
  | negativeIndex | beyondFile | blobSize
  deriving DecidableEq

/-- The byte range `sliceChunk` cuts out. -/
def sliceRange (fileSize : ℕ) (chunkIndex : ℤ) (chunkSize : ℕ) :
    Except SliceError (ℕ × ℕ) :=
  if chunkIndex < 0 then .error .negativeIndex
  else if chunkIndex.toNat * chunkSize ≥ fileSize then .error .beyondFile
  else .ok (chunkIndex.toNat * chunkSize, min fileSize (chunkIndex.toNat * chunkSize + chunkSize))

/-- `sliceChunk`. -/
def sliceChunk (file : Bytes) (chunkIndex : ℤ) (chunkSize : ℕ) : Except SliceError Bytes :=
  match sliceRange file.length chunkIndex chunkSize with
  | .error e => .error e
  | .ok (start, stop) =>
    if ((file.drop start).take (stop - start)).length ≠ stop - start then .error .blobSize
    else .ok ((file.drop start).take (stop - start))

theorem sliceRange_ok_iff {fileSize : ℕ} {i : ℤ} {c : ℕ} {r : ℕ × ℕ} :
    sliceRange fileSize i c = .ok r ↔
      0 ≤ i ∧ i.toNat * c < fileSize ∧ r = (i.toNat * c, min fileSize (i.toNat * c + c)) := by
  unfold sliceRange
  split_ifs with hneg hbeyond
  · simp only [false_iff, not_and]
    omega
  · simp only [false_iff, not_and]
    omega
  · simp only [Except.ok.injEq]
    refine ⟨fun h => ⟨by omega, by omega, h.symm⟩, fun h => h.2.2.symm⟩

/-! ### A small session -/

/-- A two-byte file in one-byte chunks. -/
def twoChunks : Session ℕ := newSession 2 1 none .resumable 300

/-- SHA-256 of the one-byte strings `a` and `b`. -/
def sampleDigest (content : Bytes) : ℕ :=
  if content = [97] then 0xca978112ca1bbdcafac231b39a23dc4da786eff8147c4e72b9807785afee48bb
  else if content = [98] then
    0x3e23e8160039594a33894f6564e1b1348bbd7a0088d42c4acb73eeaed59c009d
  else 0

/-- The client's `PUT` of byte `b` as chunk `i`. -/
def putByte (i : ℕ) (b : UInt8) : ChunkPut ℕ where
  chunkIndex := i
  blocks := [[b]]
  streamEnd := .eof
  contentLength := some 1
  contentLengthIsPayload := true
  chunkSha256 := .absent
  expectedMode := .resumable

/-- Start a request of the two-chunk session. -/
def start (r : Request ℕ) : SessionAction ℕ := .spawn (r.handler twoChunks sampleDigest)

/-- One operation of process `t`, at time 0, with nothing failing. -/
def stepOf (t : ℕ) : SessionAction ℕ := .step t { now := 0, ok := true, duplicate := none }

end Kairon.Upload

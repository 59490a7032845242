/-
Kairon/Upload/Finalize.lean

The other operations on a session: `finalize_memory_upload_session` with
`run_chunked_finalize` and the registration of the `memory` workflow
(`register_memory_evidence_from_upload`), `cancel_memory_upload_session`,
and the two cleanups.

The finalize callbacks run under the session's `finalize` lock only.  After
each commit the ORM instance is expired, so the next attribute access loads
the row again: those loads are the `read` operations between the commits.
-/
import Kairon.Upload.Store

namespace Kairon.Upload

open Concur

variable {D : Type} [DecidableEq D]

/-! ### Registration -/

/-- `_valid_regular_file`. -/
def validRegularFile (file : Option Bytes) (expectedSize : ℕ) : Bool :=
  file.any fun b => b.length = expectedSize

/-- The row of a registered upload. -/
def completedRow (item : Row D) : Row D :=
  { item with status := .completed, retryable := false }

def registrationFailedRow (item : Row D) (e : RegistrationError) (retryable : Bool) :
    Row D :=
  { item with status := .failed, failure := some (.registration e), retryable := retryable }

/-- The evidence row exists already: the upload is complete if its file is. -/
def registerExisting (cfg : Session D) (item : Row D) (existing : EvidenceRow D) :
    Handler D (EvidenceRow D) := do
  if validRegularFile (← perform .canonical) cfg.expectedBytes then do
    perform (.commit .completed (item.diff (completedRow item) false))
    pure existing
  else do
    perform (.commit .registerInconsistent (item.diff { item with
      status := .inconsistent
      failure := some (.registration .fileMissing)
      retryable := false } false))
    .raise (.registration .fileMissing)

/-- The critical transaction: insert the evidence row, then complete. -/
def insertEvidenceRow (evidence : EvidenceRow D) : Handler D (EvidenceRow D) := do
  match ← perform (.insertEvidence evidence) with
  | .inserted => do
      perform (.commit .completed { status := some .completed, retryable := some false })
      pure evidence
  | .integrityError => do
      -- a parallel retry won the race: after the rollback the row is loaded again
      let item ← perform (.read .building)
      match ← perform .evidence with
      | some existing => do
          perform (.commit .completed (item.diff { item with status := .completed } false))
          pure existing
      | none => do
          perform (.commit .registerFailed
            (item.diff (registrationFailedRow item .dbConstraint true) false))
          .raise (.registration .dbConstraint)
  | .failed => do
      perform (.commit .registerFailed {
        status := some .failed
        failure := some (some (.registration .failed))
        retryable := some true })
      .raise (.registration .failed)

/-- Build the evidence row from the session and insert it. -/
def insertAndComplete (cfg : Session D) : Handler D (EvidenceRow D) := do
  let item ← perform (.read .building)
  insertEvidenceRow ⟨item.sha256, cfg.expectedBytes⟩

/-- `register_memory_evidence_from_upload`. -/
def registerMemoryEvidence (cfg : Session D) (sha256 : Bytes → D) :
    Handler D (EvidenceRow D) := do
  let item ← perform (.read .register)
  match ← perform .evidence with
  | some existing => registerExisting cfg item existing
  | none =>
    if item.bytesReceived ≠ cfg.expectedBytes then .raise (.registration .uploadIncomplete)
    else match item.sha256 with
    | none => .raise (.registration .hashMissing)
    | some sha => do
        match ← perform .canonical with
        | none => .raise (.registration .fileInvalid)
        | some file =>
          if file.length ≠ cfg.expectedBytes then .raise (.registration .fileInvalid)
          else if sha256 file ≠ sha then .raise (.registration .hashMismatch)
          else do
            match ← perform .duplicateOf with
            | some ref => do
                perform (.commit .registerDuplicate
                  (item.diff (registrationFailedRow item (.duplicate ref) false) false))
                .raise (.registration (.duplicate ref))
            | none => do
                perform (.commit .registering
                  (item.diff { item with failure := none } false))
                insertAndComplete cfg

/-! ### Assembling and promoting -/

/-- `_on_duplicate`: drop the staged and the canonical bytes and fail. -/
def onDuplicate {α : Type} (item : Row D) (sha : D) (ref : DuplicateRef) :
    Handler D α := do
  perform (.removeStaging .duplicate)
  perform .removeFinalRoot
  perform (.commit .duplicate (item.diff { item with
    sha256 := some sha
    status := .failed
    failure := some (.duplicate ref)
    retryable := false
    metadata := { item.metadata with duplicate := some ref } } true))
  .raise (.duplicate ref)

/-- `_on_finalizing`, `atomic_promote`, `_post_promote`, `_register` and
`_cleanup`. -/
def promoteAndRegister (cfg : Session D) (sha256 : Bytes → D) (item : Row D)
    (content : Bytes) : Handler D (EvidenceRow D) := do
  perform (.commit .finalizing (item.diff { item with
    sha256 := some (sha256 content)
    status := .finalizing
    bytesReceived := content.length
    receivedChunkCount := cfg.totalChunks } true))
  if !(← perform (.promote content)) then .raise .fileNotFound
  else if !(← perform .postPromote) then .raise .fileNotFound
  else do
    let evidence ← registerMemoryEvidence cfg sha256
    perform (.removeStaging .registered)
    pure evidence

/-- `run_chunked_finalize` with the session's callbacks. -/
def runChunkedFinalize (cfg : Session D) (sha256 : Bytes → D) (item : Row D)
    (expectedSha : Option D) : Handler D (EvidenceRow D) := do
  perform (.commit .verifying
    (item.diff { item with status := .verifying, failure := none } true))
  match ← perform (.assemble cfg.totalChunks) with
  | none => .raise .fileNotFound
  | some content =>
    if content.length ≠ cfg.expectedBytes then .raise .finalSizeMismatch
    else if expectedSha.any fun d => sha256 content ≠ d then .raise .sha256Mismatch
    else do
      let item ← perform (.read .duplicateCheck)
      match ← perform .duplicateOf with
      | some ref => onDuplicate item (sha256 content) ref
      | none => promoteAndRegister cfg sha256 item content

/-- The outer `except`: a registration error passes, any other error fails
the session. -/
def finalizeFailed {α : Type} (e : UploadError) : Handler D α :=
  match e with
  | .registration _ => .raise e
  | _ => do
      perform .dropAssembly
      perform (.commit .finalizeFailed {
        status := some .failed, failure := some (some e), retryable := some true
        touch := true })
      .raise e

/-- `_sanitize_sha256(expected_sha256 or item.expected_sha256)`. -/
def finalizeSha (cfg : Session D) : ShaHeader D → Except UploadError (Option D)
  | .absent => .ok cfg.expectedSha256
  | header => header.sanitized

/-- The checks of `finalize_memory_upload_session` on a session that is not
yet finished. -/
def finalizeUnfinished (cfg : Session D) (sha256 : Bytes → D) (item : Row D)
    (expectedSha : ShaHeader D) : Handler D (Outcome D) := do
  let view ← perform .stagingScan
  let integrity := checkStagingIntegrity cfg sha256 view item true
  if integrity.status ≠ .healthy then do
    perform (.commit .finalizeInconsistent (item.diff { item with
      status := .failed
      failure := some (.stagingInconsistent integrity.status)
      retryable := true } false))
    .raise (.stagingInconsistent integrity.status)
  else match finalizeSha cfg expectedSha with
  | .error e => .raise e
  | .ok declared =>
    let missing := (List.range cfg.totalChunks).filter
      fun i => item.metadata.receivedChunks.lookup i = none
    if missing ≠ [] then .raise (.chunksMissing missing)
    else if !(← perform .capacity) then .raise .insufficientSpace
    else do
      let evidence ← (runChunkedFinalize cfg sha256 item declared).handle finalizeFailed
      let item ← perform (.read .finalized)
      pure (item, some evidence)

/-- `finalize_memory_upload_session`. -/
def finalizeMemoryUploadSession (cfg : Session D) (sha256 : Bytes → D)
    (expectedSha : ShaHeader D) : Handler D (Outcome D) :=
  withLock .finalize do
    let item ← perform (.read .finalizeEntry)
    if item.status = .completed then do
      let evidence ← perform .evidence
      pure (item, evidence)
    else if item.status ∈ [.cancelled, .expired, .inconsistent] then pure (item, none)
    else if item.metadata.activeChunks ≠ ∅ then
      .raise (.chunksActive item.metadata.activeChunks)
    else finalizeUnfinished cfg sha256 item expectedSha

/-! ### Cancel and cleanup -/

/-- `cancel_memory_upload_session`; it takes no lock. -/
def cancelMemoryUploadSession (reason : Option String) : Handler D (Row D) := do
  let item ← perform (.read .cancelEntry)
  if item.status = .completed then .raise .alreadyCompleted
  else if item.status ∈ [.cancelled, .expired, .failed, .inconsistent] then pure item
  else do
    perform (.commit .cancel (item.diff { item with
      status := .cancelled
      retryable := false
      failure := some (.cancelled (reason.getD "Operator requested cancel")) } true))
    perform (.removeStaging .cancelled)
    perform (.read .cancelled)

/-- `cleanup_expired_memory_upload_sessions` on this session: expire it when
its time is over, or drop the staged bytes of a terminal session that was
last updated before the cut-off (`stale`). -/
def cleanupExpiredSession (stale : Bool) : Handler D (Row D) := do
  let now ← perform (.clock .expiryQuery)
  let item ← perform (.read .expiryQuery)
  if item.status.isActive ∧ item.expiresAt.any fun t => t < now then do
    perform (.commit .expiry (item.diff { item with
      status := .expired
      failure := some .sessionExpiredUnfinished
      retryable := false } false))
    perform (.removeStaging .expired)
    pure item
  else do
    let item ← perform (.read .purgeQuery)
    if stale ∧ item.status ∈ [.cancelled, .failed, .expired] then do
      perform (.removeStaging .purged)
      pure item
    else pure item

/-- `cleanup_memory_upload_staging` with `dry_run = False` on this session. -/
def cleanupMemoryUploadStaging : Handler D (Row D) := do
  let item ← perform (.read .stagingQuery)
  if item.status.isActive ∨ item.metadata.activeChunks ≠ ∅ then pure item
  else do
    perform (.removeStaging .staging)
    pure item

/-! ### Requests -/

/-- The requests and jobs that act on a session. -/
inductive Request (D : Type)
  | store (put : ChunkPut D)
  | finalize (expectedSha : ShaHeader D)
  | cancel (reason : Option String)
  | cleanupExpired (stale : Bool)
  | cleanupStaging

/-- The handler of a request. -/
def Request.handler (cfg : Session D) (sha256 : Bytes → D) :
    Request D → Handler D (Outcome D)
  | .store put => do
      let row ← storeMemoryUploadChunkStream cfg sha256 put
      pure (row, none)
  | .finalize expectedSha => finalizeMemoryUploadSession cfg sha256 expectedSha
  | .cancel reason => do
      let row ← cancelMemoryUploadSession reason
      pure (row, none)
  | .cleanupExpired stale => do
      let row ← cleanupExpiredSession stale
      pure (row, none)
  | .cleanupStaging => do
      let row ← cleanupMemoryUploadStaging
      pure (row, none)

/-- Only requests of this session are started. -/
def RequestsOnly (cfg : Session D) (sha256 : Bytes → D) (_ : SessionConfig D) :
    SessionAction D → Prop
  | .spawn p => ∃ r : Request D, p = r.handler cfg sha256
  | _ => True

end Kairon.Upload

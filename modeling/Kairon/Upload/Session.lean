/-
Kairon/Upload/Session.lean

The memory upload session: one row of `memory_uploads`, its staging
directory, the Redis locks around it, and the atomic operations through
which the request handlers of `services/memory/upload_sessions.py` touch
them.

* The row is `Row`; the columns that never change after creation are in
  `Session`.  `metadata_json` is one column (`SessionMetadata`), read and
  written whole.
* SQLAlchemy's unit of work writes, at a commit, the columns whose value
  differs from the loaded one.  `Row.diff` computes that set of columns as a
  `Patch` and the `commit` operation applies it to the row as it then is;
  a write-back of a stale copy is therefore visible in the model.
* A part file or an assembly file is private to its process until it is
  renamed, so the state only records that it exists (`temps`, `assemblies`)
  and the renaming operation carries the bytes.
* The Redis locks are tried, never waited for (`wait_seconds = 0`); the lock
  of a dead process goes when its TTL is over (`Machine.reap`).

Digests are values of an arbitrary type `D`: `sha256` is a parameter.
-/
import Mathlib.Data.Finmap
import Mathlib.Algebra.BigOperators.Group.Finset.Basic
import Kairon.Lib.Interleave

namespace Kairon.Upload

open Concur

abbrev Bytes := List UInt8

/-! ### The row -/

/-- The statuses an upload session goes through. -/
inductive UploadStatus
  | created | uploading | verifying | finalizing
  | completed | cancelled | expired | failed | inconsistent
  deriving DecidableEq

namespace UploadStatus

/-- `ACTIVE_UPLOAD_SESSION_STATUSES`. -/
def isActive (s : UploadStatus) : Bool :=
  s ∈ [created, uploading, verifying, finalizing]

/-- `TERMINAL_UPLOAD_SESSION_STATUSES`. -/
def isTerminal (s : UploadStatus) : Bool :=
  s ∈ [completed, cancelled, expired, failed, inconsistent]

/-- Verification or finalization is under way. -/
def isFinalizing (s : UploadStatus) : Bool := s ∈ [verifying, finalizing]

end UploadStatus

inductive UploadMode
  | direct | resumable
  deriving DecidableEq

/-- An entry of `received_chunks`. -/
structure ChunkRecord (D : Type) where
  size : ℕ
  sha256 : D
  deriving DecidableEq

/-- The existing evidence a duplicate upload is reported against. -/
structure DuplicateRef where
  existingEvidenceId : String
  existingFilename : String
  deriving DecidableEq

/-- The mutable keys of `metadata_json`. -/
structure SessionMetadata (D : Type) where
  receivedChunks : Finmap fun _ : ℕ => ChunkRecord D
  activeChunks : Finset ℕ
  duplicate : Option DuplicateRef
  deriving DecidableEq

/-! ### Errors -/

/-- `integrity_status` of `classify_chunk_staging`. -/
inductive StagingStatus
  | healthy | stagingMissing | missingChunks | extraChunks | sizeMismatch | hashMismatch
  deriving DecidableEq

/-- What a registration attempt was refused for. -/
inductive RegistrationError
  | fileMissing | uploadIncomplete | hashMissing | fileInvalid | hashMismatch
  | duplicate (ref : DuplicateRef) | dbConstraint | failed
  deriving DecidableEq

/-- What a handler raises, or records as the failure of the session. -/
inductive UploadError
  | lockUnavailable | locked
  | terminal | finalizing | finalizingOrCancelled | modeConflict | invalidChunkIndex
  | sessionExpired | sessionExpiredUnfinished
  | stagingUnusable (status : StagingStatus) (missing : Finset ℕ)
  | contentLength | invalidSha256 | chunkTooLarge | chunkIncomplete | chunkHashMismatch
  | chunkSizeMismatch (chunkIndex expected existing : ℕ)
  | chunkContentMismatch (chunkIndex : ℕ)
  | chunksActive (active : Finset ℕ)
  | stagingInconsistent (status : StagingStatus)
  | chunksMissing (missing : List ℕ)
  | insufficientSpace | finalSizeMismatch | sha256Mismatch
  | duplicate (ref : DuplicateRef)
  | registration (e : RegistrationError)
  | alreadyCompleted | cancelled (reason : String)
  | streamBroken | fileNotFound
  deriving DecidableEq

/-- The columns of a `memory_uploads` row that handlers change.
`failure_code` and `failure_message` are always written together. -/
structure Row (D : Type) where
  status : UploadStatus
  metadata : SessionMetadata D
  receivedChunkCount : ℕ
  bytesReceived : ℕ
  sha256 : Option D
  failure : Option UploadError
  retryable : Bool
  expiresAt : Option ℕ

/-- The columns that are fixed when the session is created; `ttlSeconds` is
the configured lifetime, at least 300 s. -/
structure Session (D : Type) where
  expectedBytes : ℕ
  chunkSizeBytes : ℕ
  totalChunks : ℕ
  expectedSha256 : Option D
  uploadMode : UploadMode
  ttlSeconds : ℕ

/-! ### Net changes -/

/-- The assignments a commit sends to the database; `touch` is
`_touch_session`, which moves `expires_at`. -/
structure Patch (D : Type) where
  status : Option UploadStatus := none
  metadata : Option (SessionMetadata D) := none
  receivedChunkCount : Option ℕ := none
  bytesReceived : Option ℕ := none
  sha256 : Option (Option D) := none
  failure : Option (Option UploadError) := none
  retryable : Option Bool := none
  touch : Bool := false

section Patch

variable {D : Type} [DecidableEq D]

/-- A column is sent only if it differs from the value that was loaded. -/
def changed {α : Type} [DecidableEq α] (loaded new : α) : Option α :=
  if new = loaded then none else some new

/-- The unit of work: the columns of `new` that differ from `loaded`. -/
def Row.diff (loaded new : Row D) (touch : Bool) : Patch D where
  status := changed loaded.status new.status
  metadata := changed loaded.metadata new.metadata
  receivedChunkCount := changed loaded.receivedChunkCount new.receivedChunkCount
  bytesReceived := changed loaded.bytesReceived new.bytesReceived
  sha256 := changed loaded.sha256 new.sha256
  failure := changed loaded.failure new.failure
  retryable := changed loaded.retryable new.retryable
  touch := touch

omit [DecidableEq D] in
/-- Applying a patch to the row as it is at the commit. -/
def Row.apply (row : Row D) (p : Patch D) (now ttl : ℕ) : Row D where
  status := p.status.getD row.status
  metadata := p.metadata.getD row.metadata
  receivedChunkCount := p.receivedChunkCount.getD row.receivedChunkCount
  bytesReceived := p.bytesReceived.getD row.bytesReceived
  sha256 := p.sha256.getD row.sha256
  failure := p.failure.getD row.failure
  retryable := p.retryable.getD row.retryable
  expiresAt := if p.touch then some (now + ttl) else row.expiresAt

theorem changed_getD {α : Type} [DecidableEq α] (loaded new : α) :
    (changed loaded new).getD loaded = new := by
  by_cases h : new = loaded <;> simp [changed, h]

theorem changed_eq_some {α : Type} [DecidableEq α] {loaded new v : α}
    (h : changed loaded new = some v) : v = new := by
  unfold changed at h
  split at h
  · cases h
  · exact (Option.some.inj h).symm

end Patch

/-! ### The world of a session -/

/-- The session's staging directory and its canonical evidence file. -/
structure Disk where
  sessionRoot : Bool
  chunksDir : Bool
  chunks : Finmap fun _ : ℕ => Bytes
  temps : Finset ℕ
  assemblies : Finset ℕ
  canonical : Option Bytes

/-- The Redis keys of one session. -/
inductive LockKey
  | chunk (i : ℕ) | chunksMeta | finalize
  deriving DecidableEq

/-- The `Evidence` row a finalized upload is registered as. -/
structure EvidenceRow (D : Type) where
  sha256 : Option D
  sizeBytes : ℕ

structure World (D : Type) where
  row : Row D
  disk : Disk
  locks : LockKey → Option ℕ
  evidence : Option (EvidenceRow D)

/-- `shutil.rmtree` of the session root. -/
def Disk.removeStaging (d : Disk) : Disk :=
  { d with
    sessionRoot := false
    chunksDir := false
    chunks := ∅
    temps := ∅
    assemblies := ∅ }

/-- The bytes of the chunk files `0 .. n-1` in order, if all are there. -/
def Disk.concatChunks (d : Disk) (n : ℕ) : Option Bytes :=
  ((List.range n).mapM fun i => d.chunks.lookup i).map List.flatten

/-! ### Atomic operations -/

/-- The places of the handlers that read the row. -/
inductive ReadPlace
  | storeEntry | storeLocked | record | recorded | vanished | cleanup | cleaned
  | finalizeEntry | duplicateCheck | register | building | failure | finalized
  | cancelEntry | cancelled | expiryQuery | purgeQuery | stagingQuery
  deriving DecidableEq

/-- The places of the handlers that commit the row. -/
inductive CommitPlace
  | storeExpired | storeUnusable | markActive | record (i : ℕ) | clearActive
  | finalizeInconsistent | verifying | duplicate | finalizing
  | registerInconsistent | registerDuplicate | registering | registerFailed | completed
  | finalizeFailed | cancel | expiry

/-- The places that remove the staging directory. -/
inductive CleanupPlace
  | duplicate | registered | cancelled | expired | purged | staging
  deriving DecidableEq

inductive Op (D : Type)
  | read (place : ReadPlace)
  | commit (place : CommitPlace) (p : Patch D)
  | clock (place : ReadPlace)
  | lock (k : LockKey)
  | unlock (k : LockKey)
  | stagingScan
  | chunkFile (place : ReadPlace) (i : ℕ)
  | mkChunkDir
  | openTemp
  | dropTemp
  | finalContent (i : ℕ)
  | replaceTemp (i : ℕ) (content : Bytes)
  | capacity
  | assemble (n : ℕ)
  | dropAssembly
  | duplicateOf
  | removeStaging (place : CleanupPlace)
  | removeFinalRoot
  | promote (content : Bytes)
  | postPromote
  | canonical
  | evidence
  | insertEvidence (ev : EvidenceRow D)

/-- Answer of `redis_upload_lock`. -/
inductive LockAnswer
  | acquired | busy | unavailable

/-- Answer of the critical insert of the `Evidence` row. -/
inductive InsertAnswer
  | inserted | integrityError | failed

/-- The staging directory as `classify_chunk_staging` sees it. -/
structure StagingView where
  sessionRoot : Bool
  chunksDir : Bool
  chunks : Finmap fun _ : ℕ => Bytes

@[reducible] def Resp {D : Type} : Op D → Type
  | .read _ => Row D
  | .clock _ => ℕ
  | .lock _ => LockAnswer
  | .stagingScan => StagingView
  | .chunkFile .. => Bool
  | .openTemp => Bool
  | .finalContent _ => Option Bytes
  | .replaceTemp .. => Bool
  | .capacity => Bool
  | .assemble _ => Option Bytes
  | .duplicateOf => Option DuplicateRef
  | .promote _ => Bool
  | .postPromote => Bool
  | .canonical => Option Bytes
  | .evidence => Option (EvidenceRow D)
  | .insertEvidence _ => InsertAnswer
  | _ => Unit

/-- The environment's choices: the clock, whether an external step succeeds,
and whether the case already holds the same image. -/
structure Env where
  now : ℕ
  ok : Bool
  duplicate : Option DuplicateRef

variable {D : Type}

/-- The effect of an operation of process `t`. -/
def exec (cfg : Session D) (t : ℕ) : (o : Op D) → Env → World D → World D × Resp o
  | .read _, _, w => (w, w.row)
  | .commit _ p, e, w => ({ w with row := w.row.apply p e.now cfg.ttlSeconds }, ())
  | .clock _, e, w => (w, e.now)
  | .lock k, e, w =>
    if !e.ok then (w, .unavailable)
    else if w.locks k = none then
      ({ w with locks := Function.update w.locks k (some t) }, .acquired)
    else (w, .busy)
  | .unlock k, _, w =>
    if w.locks k = some t then ({ w with locks := Function.update w.locks k none }, ())
    else (w, ())
  | .stagingScan, _, w => (w, ⟨w.disk.sessionRoot, w.disk.chunksDir, w.disk.chunks⟩)
  | .chunkFile _ i, _, w => (w, (w.disk.chunks.lookup i).isSome)
  | .mkChunkDir, _, w =>
    ({ w with disk := { w.disk with sessionRoot := true, chunksDir := true } }, ())
  | .openTemp, _, w =>
    if w.disk.chunksDir then
      ({ w with disk := { w.disk with temps := insert t w.disk.temps } }, true)
    else (w, false)
  | .dropTemp, _, w =>
    ({ w with disk := { w.disk with temps := w.disk.temps.erase t } }, ())
  | .finalContent i, _, w => (w, w.disk.chunks.lookup i)
  | .replaceTemp i content, _, w =>
    if t ∈ w.disk.temps then
      ({ w with disk := { w.disk with
          temps := w.disk.temps.erase t
          chunks := w.disk.chunks.insert i content } }, true)
    else (w, false)
  | .capacity, e, w => (w, e.ok)
  | .assemble n, _, w =>
    if w.disk.sessionRoot then
      ({ w with disk := { w.disk with assemblies := insert t w.disk.assemblies } },
        w.disk.concatChunks n)
    else (w, none)
  | .dropAssembly, _, w =>
    ({ w with disk := { w.disk with assemblies := w.disk.assemblies.erase t } }, ())
  | .duplicateOf, e, w => (w, e.duplicate)
  | .removeStaging _, _, w => ({ w with disk := w.disk.removeStaging }, ())
  | .removeFinalRoot, _, w => ({ w with disk := { w.disk with canonical := none } }, ())
  | .promote content, _, w =>
    if t ∈ w.disk.assemblies then
      ({ w with disk := { w.disk with
          assemblies := w.disk.assemblies.erase t
          canonical := some content } }, true)
    else (w, false)
  | .postPromote, e, w => (w, e.ok)
  | .canonical, _, w => (w, w.disk.canonical)
  | .evidence, _, w => (w, w.evidence)
  | .insertEvidence ev, e, w =>
    if w.evidence.isSome then (w, .integrityError)
    else if e.ok then ({ w with evidence := some ev }, .inserted)
    else (w, .failed)

/-- The locks of a dead process are gone after their TTL. -/
def reap (t : ℕ) (w : World D) : World D :=
  { w with locks := fun k => if w.locks k = some t then none else w.locks k }

def machine (cfg : Session D) : Machine (Op D) Resp Env (World D) where
  exec := exec cfg
  reap := reap

/-! ### Answers -/

section Answers

variable (cfg : Session D) (t : ℕ) (e : Env) (w : World D)

@[simp] theorem machine_read (place : ReadPlace) :
    (machine cfg).exec t (.read place) e w = (w, w.row) := rfl

@[simp] theorem machine_clock (place : ReadPlace) :
    (machine cfg).exec t (.clock place) e w = (w, e.now) := rfl

@[simp] theorem machine_stagingScan :
    (machine cfg).exec t .stagingScan e w
      = (w, ⟨w.disk.sessionRoot, w.disk.chunksDir, w.disk.chunks⟩) := rfl

@[simp] theorem machine_chunkFile (place : ReadPlace) (i : ℕ) :
    (machine cfg).exec t (.chunkFile place i) e w = (w, (w.disk.chunks.lookup i).isSome) := rfl

@[simp] theorem machine_finalContent (i : ℕ) :
    (machine cfg).exec t (.finalContent i) e w = (w, w.disk.chunks.lookup i) := rfl

@[simp] theorem machine_capacity : (machine cfg).exec t .capacity e w = (w, e.ok) := rfl

@[simp] theorem machine_duplicateOf :
    (machine cfg).exec t .duplicateOf e w = (w, e.duplicate) := rfl

@[simp] theorem machine_postPromote : (machine cfg).exec t .postPromote e w = (w, e.ok) := rfl

@[simp] theorem machine_canonical :
    (machine cfg).exec t .canonical e w = (w, w.disk.canonical) := rfl

@[simp] theorem machine_evidence : (machine cfg).exec t .evidence e w = (w, w.evidence) := rfl

end Answers

/-! ### Frame lemmas -/

def Op.isCommit : Op D → Bool
  | .commit .. => true
  | _ => false

/-- Only commits write the row. -/
theorem exec_row (cfg : Session D) (t : ℕ) {o : Op D} (ho : o.isCommit = false) (e : Env)
    (w : World D) : (exec cfg t o e w).1.row = w.row := by
  cases o with
  | commit place p => cases ho
  | lock k => simp only [exec]; split <;> [rfl; (split <;> rfl)]
  | unlock k => simp only [exec]; split <;> rfl
  | openTemp | replaceTemp i b | assemble n | promote b => simp only [exec]; split <;> rfl
  | insertEvidence ev => simp only [exec]; split <;> [rfl; (split <;> rfl)]
  | _ => rfl

variable {k : LockKey}

/-- A lock held by another process stays with it. -/
theorem exec_locks_other (cfg : Session D) {t u : ℕ} (hu : u ≠ t) (o : Op D) (e : Env) {w : World D}
    (h : w.locks k = some u) : (exec cfg t o e w).1.locks k = some u := by
  cases o with
  | lock k' =>
    simp only [exec]
    split
    · exact h
    · split
      · next hfree =>
          have hk : k ≠ k' := by
            rintro rfl
            rw [h] at hfree
            cases hfree
          simp only [Function.update_of_ne hk, h]
      · exact h
  | unlock k' =>
    simp only [exec]
    split
    · next hmine =>
        have hk : k ≠ k' := by
          rintro rfl
          rw [h] at hmine
          exact hu (Option.some.inj hmine)
        simp only [Function.update_of_ne hk, h]
    · exact h
  | openTemp | replaceTemp i b | assemble n | promote b => simp only [exec]; split <;> exact h
  | insertEvidence ev => simp only [exec]; split <;> [exact h; (split <;> exact h)]
  | _ => exact h

/-- A process keeps its own lock until it releases it. -/
theorem exec_locks_self (cfg : Session D) {t : ℕ} {o : Op D}
    (ho : o ≠ .unlock k) (e : Env) {w : World D} (h : w.locks k = some t) :
    (exec cfg t o e w).1.locks k = some t := by
  cases o with
  | lock k' =>
    simp only [exec]
    split
    · exact h
    · split
      · by_cases hk : k = k'
        · subst hk
          simp only [Function.update_self]
        · simp only [Function.update_of_ne hk, h]
      · exact h
  | unlock k' =>
    have hk : k ≠ k' := by
      rintro rfl
      exact ho rfl
    simp only [exec]
    split
    · simp only [Function.update_of_ne hk, h]
    · exact h
  | openTemp | replaceTemp i b | assemble n | promote b => simp only [exec]; split <;> exact h
  | insertEvidence ev => simp only [exec]; split <;> [exact h; (split <;> exact h)]
  | _ => exact h

/-- Reaping a dead process frees no lock of a live one. -/
theorem reap_locks_other {t u : ℕ} (hu : u ≠ t) {w : World D}
    (h : w.locks k = some u) : (reap t w).locks k = some u := by
  have hne : (some u : Option ℕ) ≠ some t := fun he => hu (Option.some.inj he)
  simp only [reap, h, if_neg hne]

/-- What a handler returns: the session row, and the evidence for a
finalized one. -/
abbrev Outcome (D : Type) := Row D × Option (EvidenceRow D)

/-- A request handler of the session. -/
abbrev Handler (D : Type) (α : Type) := Prog (Op D) Resp UploadError α

abbrev perform (o : Op D) : Handler D (Resp o) := Prog.perform o

/-- `with _redis_upload_lock(key): body`. -/
def withLock {α : Type} (k : LockKey) (body : Handler D α) : Handler D α := do
  match ← perform (.lock k) with
  | .acquired => body.followedBy (perform (.unlock k))
  | .busy => .raise .locked
  | .unavailable => .raise .lockUnavailable

theorem exec_lock_acquired (cfg : Session D) {t : ℕ} {e : Env} {w : World D}
    (h : (exec cfg t (.lock k) e w).2 = .acquired) :
    (exec cfg t (.lock k) e w).1.locks k = some t := by
  simp only [exec] at h ⊢
  split at h
  · cases h
  · next hok =>
      rw [if_neg hok]
      split at h
      · next hfree => rw [if_pos hfree]; simp only [Function.update_self]
      · cases h

/-- The body of a `withLock` runs with the lock held. -/
theorem withLock_ok {α : Type} {cfg : Session D} {Inv : World D → Prop}
    {Rely Guar : ℕ → Op D → World D → World D → Prop} {Q : Except UploadError α → World D → Prop}
    {t : ℕ} {body : Handler D α} (hl : Harmless (machine cfg) Inv Guar t (.lock k))
    (hQ : ∀ w, Q (.error .locked) w ∧ Q (.error .lockUnavailable) w)
    (hbody : ∀ w, Inv w → w.locks k = some t →
      (body.followedBy (perform (.unlock k))).Ok (machine cfg) Inv Rely Guar Q t w)
    (w : World D) : (withLock k body).Ok (machine cfg) Inv Rely Guar Q t w := by
  refine Prog.Ok.harmless hl fun w' e hinv _ => ?_
  change Prog.Ok _ _ _ _ Q t (match (exec cfg t (.lock k) e w').2 with
    | .acquired => body.followedBy (perform (.unlock k))
    | .busy => .raise .locked
    | .unavailable => .raise .lockUnavailable) (exec cfg t (.lock k) e w').1
  cases h : (exec cfg t (.lock k) e w').2 with
  | acquired => exact hbody _ (hl w' e hinv).1 (exec_lock_acquired cfg h)
  | busy => exact (hQ _).1
  | unavailable => exact (hQ _).2

/-! ### Configurations -/

/-- Configurations and schedules of one session. -/
abbrev SessionConfig (D : Type) := Config (Op D) Resp UploadError (Outcome D) (World D)
abbrev SessionAction (D : Type) := Action (Op D) Resp UploadError (Outcome D) Env

/-- The operation process `t` executes next. -/
def pending (c : SessionConfig D) (t : ℕ) : Option (Op D) :=
  match c.threads t with
  | some (.op o _) => some o
  | _ => none

theorem pending_of_threads {c : SessionConfig D} {t : ℕ} {o : Op D}
    {k : Resp o → Handler D (Outcome D)} (h : c.threads t = some (.op o k)) :
    pending c t = some o := by
  simp [pending, h]

end Kairon.Upload

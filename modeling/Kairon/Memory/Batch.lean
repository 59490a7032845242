/-
Kairon/Memory/Batch.lean

Run-all batches of memory analysis.

`create_run_all_batch` stores a batch and enqueues one run for each profile that
the plan selects; a worker reports every run that has ended to `advance_batch`,
an operator can ask for cancellation, and a pass over the active batches brings
them up to date after a restart.  The functions are modelled on the two tables
they share, `memory_analysis_batches` and `memory_scan_runs`, as maps from ids.

The database refuses a commit that would leave two active batches for one
evidence (`uq_memory_analysis_batches_one_active`); a `Database` carries that
index beside the primary keys, and `Database.commit` is where it is checked.
-/
import Mathlib.Algebra.Order.Ring.Int
import Kairon.Lib.Dict

namespace Kairon.Memory

/-! ### Profiles and runs -/

inductive Profile
  | metadataOnly | processesBasic | processesExtended | shellHistoryBasic | filesBasic | findEvil
  | networkBasic | modulesBasic | handlesBasic | kernelBasic | suspiciousMemory
  deriving DecidableEq

/-- `RUN_ALL_PROFILES`. -/
def runAllProfiles : List Profile :=
  [.metadataOnly, .processesBasic, .processesExtended, .shellHistoryBasic, .filesBasic, .findEvil,
    .networkBasic, .modulesBasic, .handlesBasic, .kernelBasic, .suspiciousMemory]

inductive RunStatus
  | pending | queued | running | completed | completedWithErrors
  | failed | timedOut | cancelled | backendUnavailable | invalidEvidence | disabled
  deriving DecidableEq

namespace RunStatus

/-- `ACTIVE_RUN_STATUSES`. -/
def isActive (s : RunStatus) : Bool := s ∈ [pending, queued, running]

/-- `SUCCESS_RUN_STATUSES`. -/
def isSuccess (s : RunStatus) : Bool := s ∈ [completed, completedWithErrors]

/-- `FAILED_RUN_STATUSES`. -/
def isFailure (s : RunStatus) : Bool :=
  s ∈ [failed, timedOut, cancelled, backendUnavailable, invalidEvidence]

/-- The statuses of a run that `advance_batch` takes into account. -/
def isTerminal (s : RunStatus) : Bool := s.isSuccess || s.isFailure

end RunStatus

/-- What the batches read and write of a row of `memory_scan_runs`. -/
structure MemoryScanRun where
  caseId : String
  evidenceId : String
  profile : Profile
  status : RunStatus
  createdAt : ℤ
  workerTaskId : Option String := none
  batchId : Option String := none
  batchPosition : Option ℕ := none
  batchTotal : Option ℕ := none

/-! ### Batches -/

inductive BatchStatus
  | queued | running | completed | completedWithErrors | failed | cancelled
  deriving DecidableEq

/-- The statuses of an active batch, all others being final. -/
def BatchStatus.isActive (s : BatchStatus) : Bool := s ∈ [queued, running]

/-- `MEMORY_BATCH_MODES`. -/
inductive Mode
  | missingOrFailed | rerunAll | runtimeValidation
  deriving DecidableEq

def Mode.ofText : String → Option Mode
  | "missing_or_failed" => some missingOrFailed
  | "rerun_all" => some rerunAll
  | "runtime_validation" => some runtimeValidation
  | _ => none

/-- Why a profile is left out of a batch. -/
inductive SkipReason
  | platformMismatch | pluginUnsupported | symbolsUnavailable
  | unavailable (reason : String)
  | alreadyCompleted | alreadyActive | failedPreviousRunSkipped

/-- What the functions read and write of a row of `memory_analysis_batches`. -/
structure MemoryAnalysisBatch where
  caseId : String
  evidenceId : String
  mode : Mode
  status : BatchStatus
  requestedProfiles : List Profile
  skippedProfiles : List (Profile × SkipReason)
  currentProfile : Option Profile := none
  completedProfiles : List Profile := []
  failedProfiles : List Profile := []
  continueOnFailure : Bool
  cancellationRequested : Bool := false
  cancellationReason : Option String := none
  createdAt : ℤ
  startedAt : Option ℤ := none
  completedAt : Option ℤ := none
  version : ℕ := 1
  lastAdvancedRunId : Option String := none
  lastAdvancedAt : Option ℤ := none
  reconciledAt : Option ℤ := none
  failureReason : Option String := none

namespace MemoryAnalysisBatch

def isActive (batch : MemoryAnalysisBatch) : Bool := batch.status.isActive

/-- Whether the batch is active for the evidence of a case. -/
def isActiveFor (caseId evidenceId : String) (batch : MemoryAnalysisBatch) : Bool :=
  batch.caseId = caseId && batch.evidenceId = evidenceId && batch.isActive

/-- The profiles whose run has been taken into account. -/
def used (batch : MemoryAnalysisBatch) : List Profile :=
  batch.completedProfiles ++ batch.failedProfiles

end MemoryAnalysisBatch

/-! ### The database -/

/-- Two rows are not both active for one evidence. -/
def Apart (first second : String × MemoryAnalysisBatch) : Prop :=
  ¬ (first.2.isActive ∧ second.2.isActiveFor first.2.caseId first.2.evidenceId)

instance : DecidableRel Apart := fun _ _ => inferInstanceAs (Decidable (¬ _))

/-- `uq_memory_analysis_batches_one_active`. -/
def OneActive (batches : List (String × MemoryAnalysisBatch)) : Prop := batches.Pairwise Apart

instance (batches : List (String × MemoryAnalysisBatch)) : Decidable (OneActive batches) :=
  inferInstanceAs (Decidable (List.Pairwise _ _))

/-- The two tables, with their primary keys and the index on the batches. -/
structure Database where
  batches : List (String × MemoryAnalysisBatch)
  runs : List (String × MemoryScanRun)
  batchIds : (batches.map Prod.fst).Nodup
  runIds : (runs.map Prod.fst).Nodup
  oneActive : OneActive batches

namespace Database

/-- `db.get(MemoryAnalysisBatch, id)`. -/
def batch (db : Database) (id : String) : Option MemoryAnalysisBatch := Dict.get db.batches id

/-- `db.get(MemoryScanRun, id)`. -/
def run (db : Database) (id : String) : Option MemoryScanRun := Dict.get db.runs id

/-- Commits a batch.  The index can refuse it, and nothing is stored then. -/
def commit (db : Database) (id : String) (batch : MemoryAnalysisBatch) : Option Database :=
  if h : OneActive (Dict.set id batch db.batches) then
    some { db with
      batches := Dict.set id batch db.batches
      batchIds := Dict.nodup_keys_set id batch db.batchIds
      oneActive := h }
  else none

def setRun (db : Database) (id : String) (run : MemoryScanRun) : Database :=
  { db with
    runs := Dict.set id run db.runs
    runIds := Dict.nodup_keys_set id run db.runIds }

/-- The runs of a profile for the evidence of a case. -/
def runsOf (db : Database) (caseId evidenceId : String) (profile : Profile) :
    List MemoryScanRun :=
  (db.runs.map Prod.snd).filter fun run =>
    run.caseId = caseId && run.evidenceId = evidenceId && run.profile = profile

end Database

/-- `order_by(desc(created_at)).first()`: of rows created at one time, the first. -/
def newest {α : Type} (createdAt : α → ℤ) : List α → Option α
  | [] => none
  | row :: rows =>
    match newest createdAt rows with
    | none => some row
    | some other => if createdAt row < createdAt other then some other else some row

/-! ### The plan -/

inductive Capability
  | identification | processes | processesExtended | network | modules | handles | kernelModules
  | suspiciousRegions | shellHistory | files | findEvil
  deriving DecidableEq

/-- `PROFILE_CAPABILITY`. -/
def profileCapability : Profile → Capability
  | .metadataOnly => .identification
  | .processesBasic => .processes
  | .processesExtended => .processesExtended
  | .networkBasic => .network
  | .modulesBasic => .modules
  | .handlesBasic => .handles
  | .kernelBasic => .kernelModules
  | .suspiciousMemory => .suspiciousRegions
  | .shellHistoryBasic => .shellHistory
  | .filesBasic => .files
  | .findEvil => .findEvil

inductive PlatformFamily
  | windows | linux | macos | unknown | unsupported
  deriving DecidableEq

inductive ReadinessState
  | ready | blocked | blockedSymbols | unsupported | failed | platformUnknown
  | platformUnsupported | profileUnavailable | frameworkUnavailable | invalidEvidence
  | partiallyReady
  deriving DecidableEq

structure AnalysisPlan where
  detectedPlatform : PlatformFamily
  readiness : ReadinessState
  eligibleCapabilities : List Capability

/-- The verdict of the probe that the creation of a batch looks at. -/
inductive DetectionStatus
  | probableDisk | ambiguousRaw | other
  deriving DecidableEq

structure BatchError where
  code : String
  message : String
  statusCode : ℕ := 400
  deriving DecidableEq

/-- What the creation of a batch reads of an evidence.  `access` is
`validate_current_process_evidence_access` and `plan` is
`build_memory_analysis_plan`, which both read the file. -/
structure Evidence where
  isMemoryDump : Bool
  detectionStatus : DetectionStatus
  operatorOverride : Bool
  access : Except (String × String) Unit
  plan : AnalysisPlan

/-- A run that `create_memory_metadata_run` can add. -/
structure NewRun where
  id : String
  caseId : String

/-- Around one call: the time, the evidence, which profiles the settings offer,
the outcome of preparing a run and of pushing it onto the queue, the id of a new
batch, and the text of the error that the database raises on a known id. -/
structure Env where
  now : ℤ
  evidence : String → Option Evidence
  /-- `profile_has_enabled_plugins`, as the reason against the profile. -/
  profileUnavailable : Profile → Option String
  prepare : String → Profile → Except String NewRun
  enqueue : String → Except String String
  batchId : String
  integrityError : String

section

variable (env : Env)

/-- The gate of `plan_run_all` by platform.  A probe that could not read the
evidence gates nothing. -/
def platformGate (plan : AnalysisPlan) (profile : Profile) : Option SkipReason :=
  if plan.readiness = .invalidEvidence then none
  else if profileCapability profile ∉ plan.eligibleCapabilities then
    if plan.detectedPlatform ≠ .windows then some .platformMismatch else some .pluginUnsupported
  else if plan.detectedPlatform ≠ .windows ∧ plan.readiness = .blockedSymbols then
    some .symbolsUnavailable
  else none

/-- `_profile_latest_status`. -/
def profileLatestStatus (db : Database) (caseId evidenceId : String) (profile : Profile) :
    Option RunStatus :=
  (newest MemoryScanRun.createdAt (db.runsOf caseId evidenceId profile)).map MemoryScanRun.status

/-- The gate of `plan_run_all` by earlier runs. -/
def earlierRuns (db : Database) (caseId evidenceId : String) (profile : Profile) :
    Option SkipReason :=
  let runs := db.runsOf caseId evidenceId profile
  if runs.any fun run => run.status.isSuccess then some .alreadyCompleted
  else if runs.any fun run => run.status.isActive then some .alreadyActive
  else if (profileLatestStatus db caseId evidenceId profile).any RunStatus.isFailure then
    some .failedPreviousRunSkipped
  else none

/-- Why `plan_run_all` skips a profile. -/
def skipReason (db : Database) (caseId evidenceId : String) (mode : Mode) (plan : AnalysisPlan)
    (profile : Profile) : Option SkipReason :=
  (platformGate plan profile).or <|
    ((env.profileUnavailable profile).map .unavailable).or <|
      if mode = .rerunAll then none else earlierRuns db caseId evidenceId profile

/-- The profiles that a mode considers. -/
def allowedProfiles : Mode → List Profile
  | .runtimeValidation => [.metadataOnly, .processesExtended]
  | _ => runAllProfiles

/-- `plan_run_all`: the profiles to run, and those skipped. -/
def planRunAll (db : Database) (caseId evidenceId : String) (mode : Mode) (plan : AnalysisPlan) :
    List Profile × List (Profile × SkipReason) :=
  let skip := skipReason env db caseId evidenceId mode plan
  ((allowedProfiles mode).filter fun profile => (skip profile).isNone,
    (allowedProfiles mode).filterMap fun profile => (skip profile).map (profile, ·))

/-! ### Enqueueing -/

/-- `create_memory_metadata_run`. -/
def createMemoryMetadataRun (evidenceId : String) (profile : Profile) (db : Database) :
    Except String (String × MemoryScanRun) :=
  match env.prepare evidenceId profile with
  | .error text => .error text
  | .ok new =>
    if (db.run new.id).isSome then .error env.integrityError
    else
      .ok (new.id,
        { caseId := new.caseId
          evidenceId := evidenceId
          profile := profile
          status := .pending
          createdAt := env.now })

/-- `_enqueue_profile`.  The run is stored before it is pushed onto the queue, so
that it stays when that fails. -/
def enqueueProfile (batchId : String) (batch : MemoryAnalysisBatch) (profile : Profile)
    (position : ℕ) (db : Database) : Database × Except String String :=
  match createMemoryMetadataRun env batch.evidenceId profile db with
  | .error text => (db, .error text)
  | .ok (id, run) =>
    let run := { run with
      batchId := some batchId
      batchPosition := some position
      batchTotal := some batch.requestedProfiles.length }
    match env.enqueue id with
    | .error text => (db.setRun id run, .error text)
    | .ok task =>
      (db.setRun id { run with status := .queued, workerTaskId := some task }, .ok id)

/-- The loops that enqueue profiles, each with its position. -/
def enqueueProfiles (batchId : String) (batch : MemoryAnalysisBatch) :
    List (Profile × ℕ) → Database → Database × Except String (List String)
  | [], db => (db, .ok [])
  | (profile, position) :: rest, db =>
    match enqueueProfile env batchId batch profile position db with
    | (db, .error text) => (db, .error text)
    | (db, .ok id) =>
      let (db, ids) := enqueueProfiles batchId batch rest db
      (db, ids.map (id :: ·))

/-! ### Creation -/

structure BatchRequest where
  caseId : String
  evidenceId : String
  mode : String
  continueOnFailure : Bool

/-- `find_active_batch`. -/
def findActiveBatch (db : Database) (caseId evidenceId : String) :
    Option (String × MemoryAnalysisBatch) :=
  newest (fun entry => entry.2.createdAt)
    (db.batches.filter fun entry => entry.2.isActiveFor caseId evidenceId)

/-- The checks of `create_run_all_batch` on the evidence. -/
def checkEvidence (evidenceId : String) : Except BatchError Evidence :=
  match env.evidence evidenceId with
  | none => .error ⟨"EVIDENCE_NOT_FOUND", "Evidence not found.", 404⟩
  | some evidence =>
    if !evidence.isMemoryDump then
      .error ⟨"INVALID_EVIDENCE_TYPE",
        "Run-all batches are only supported for memory_dump evidence.", 400⟩
    else if evidence.detectionStatus = .probableDisk then
      .error ⟨"MEMORY_TYPE_PROBABLE_DISK",
        "This evidence was classified as a probable disk image. " ++
          "Import it as disk evidence or confirm it as memory before analyzing.", 409⟩
    else if evidence.detectionStatus = .ambiguousRaw ∧ !evidence.operatorOverride then
      .error ⟨"MEMORY_TYPE_CONFIRMATION_REQUIRED",
        "This evidence has an ambiguous_raw probe verdict. " ++
          "Confirm the evidence type before running the batch.", 409⟩
    else
      match evidence.access with
      | .error (code, message) =>
        if code ∈ ["EVIDENCE_NOT_FOUND", "EVIDENCE_FILE_MISSING"] then
          .error ⟨code, message, 400⟩
        else .ok evidence
      | .ok () => .ok evidence

/-- The batch that `create_run_all_batch` adds. -/
def newBatch (request : BatchRequest) (mode : Mode)
    (plan : List Profile × List (Profile × SkipReason)) : MemoryAnalysisBatch where
  caseId := request.caseId
  evidenceId := request.evidenceId
  mode := mode
  status := .queued
  requestedProfiles := plan.1
  skippedProfiles := plan.2
  continueOnFailure := request.continueOnFailure
  createdAt := env.now

/-- The batch with its first profile current. -/
def MemoryAnalysisBatch.start (now : ℤ) (batch : MemoryAnalysisBatch) : MemoryAnalysisBatch :=
  { batch with
    currentProfile := batch.requestedProfiles.head?
    status := .running
    startedAt := some now }

/-- The batch as `create_run_all_batch` commits it, and the runs enqueued for
it. -/
def enqueueBatch (batch : MemoryAnalysisBatch) (db : Database) :
    MemoryAnalysisBatch × Database × Except BatchError (List String) :=
  if batch.requestedProfiles = [] then
    ({ batch with status := .completed, completedAt := some env.now }, db, .ok [])
  else
    let batch := batch.start env.now
    match enqueueProfiles env env.batchId batch (batch.requestedProfiles.zipIdx 1) db with
    | (db, .ok ids) => (batch, db, .ok ids)
    | (db, .error text) =>
      ({ batch with
          status := .failed
          failureReason := some ("Could not enqueue memory analysis run: " ++ text)
          completedAt := some env.now },
        db,
        .error ⟨"MEMORY_WORKER_QUEUE_UNAVAILABLE", "Memory analysis runs could not be enqueued. " ++
            "Check Redis and the memory worker queue.", 503⟩)

/-- What `create_run_all_batch` checks before it adds a batch, and the batch it
adds. -/
def admitBatch (request : BatchRequest) (db : Database) :
    Except BatchError MemoryAnalysisBatch :=
  match checkEvidence env request.evidenceId with
  | .error error => .error error
  | .ok evidence =>
    match findActiveBatch db request.caseId request.evidenceId with
    | some (id, _) =>
      .error ⟨"MEMORY_BATCH_ALREADY_ACTIVE",
        "An active run-all batch already exists for this evidence: " ++ id, 409⟩
    | none =>
      match Mode.ofText request.mode with
      | none =>
        .error ⟨"MEMORY_BATCH_INVALID_MODE", "Unknown run-all mode: " ++ request.mode, 400⟩
      | some mode =>
        .ok (newBatch env request mode
          (planRunAll env db request.caseId request.evidenceId mode evidence.plan))

/-- `create_run_all_batch`. -/
def createRunAllBatch (request : BatchRequest) (db : Database) :
    Database × Except BatchError (List String) :=
  match admitBatch env request db with
  | .error error => (db, .error error)
  | .ok batch =>
    -- a batch of that id would break the primary key
    if (db.batch env.batchId).isSome then (db, .error ⟨"", env.integrityError, 500⟩)
    else
      let (batch, added, result) := enqueueBatch env batch db
      match added.commit env.batchId batch with
      | some committed => (committed, result)
      | none => (db, .error ⟨"", env.integrityError, 500⟩)

/-! ### Cancellation -/

/-- `cancel_batch`. -/
def cancelBatch (batchId : String) (db : Database) : Option Database :=
  match db.batch batchId with
  | none => some db
  | some batch =>
    if batch.isActive then
      db.commit batchId { batch with
        cancellationRequested := true
        cancellationReason := some "operator_requested" }
    else some db

/-! ### Advancing -/

namespace MemoryAnalysisBatch

/-- The guards of `advance_batch`: a duplicate callback, a run of another profile
than the current one, a profile that has been taken into account, and a run that
has not ended. -/
def ignores (batch : MemoryAnalysisBatch) (runId : String) (run : MemoryScanRun) : Bool :=
  batch.lastAdvancedRunId = some runId
    || (batch.currentProfile.any fun profile => run.profile ≠ profile)
    || run.profile ∈ batch.used
    || !run.status.isTerminal

/-- The batch with the profile of a run that has ended. -/
def record (batch : MemoryAnalysisBatch) (run : MemoryScanRun) : MemoryAnalysisBatch :=
  if run.status.isSuccess then
    { batch with completedProfiles := batch.completedProfiles ++ [run.profile] }
  else { batch with failedProfiles := batch.failedProfiles ++ [run.profile] }

/-- The first requested profile that has not been taken into account. -/
def nextProfile (batch : MemoryAnalysisBatch) : Option Profile :=
  batch.requestedProfiles.find? fun profile => profile ∉ batch.used

/-- The batch closed, for want of a next profile. -/
def close (now : ℤ) (batch : MemoryAnalysisBatch) : MemoryAnalysisBatch :=
  { batch with
    currentProfile := none
    status :=
      if batch.status = .failed then .failed
      else if batch.failedProfiles = [] then .completed
      else .completedWithErrors
    completedAt := some now }

/-- What `advance_batch` makes of a batch with a run that it does not ignore. -/
def advance (now : ℤ) (runId : String) (run : MemoryScanRun) (batch : MemoryAnalysisBatch) :
    MemoryAnalysisBatch :=
  let batch := batch.record run
  let batch := { batch with
    version := (if batch.version = 0 then 1 else batch.version) + 1
    lastAdvancedRunId := some runId
    lastAdvancedAt := some now }
  if run.profile = .metadataOnly ∧ run.status.isFailure then
    close now { batch with
      status := .failed
      failureReason := some "metadata_only fundamental failure" }
  else
    match if batch.cancellationRequested then none else batch.nextProfile with
    | none => close now batch
    | some profile => { batch with currentProfile := some profile, status := .running }

end MemoryAnalysisBatch

/-- `advance_batch`. -/
def advanceBatch (runId : String) (run : MemoryScanRun) (db : Database) : Option Database :=
  match run.batchId with
  | none => some db
  | some batchId =>
    match db.batch batchId with
    | none => some db
    | some batch =>
      if batch.ignores runId run then some db
      else db.commit batchId (batch.advance env.now runId run)

/-! ### Reconciliation -/

structure Summary where
  enqueuedFirstProfile : ℕ := 0
  advanced : ℕ := 0
  cancelledAfterCancelRequest : ℕ := 0
  noop : ℕ := 0
  errors : ℕ := 0

def Summary.addNoop (summary : Summary) : Summary := { summary with noop := summary.noop + 1 }

def Summary.addError (summary : Summary) : Summary :=
  { summary with errors := summary.errors + 1 }

/-- The result of a commit in a reconciliation, whose errors are counted. -/
def Summary.orError (summary : Summary) (db : Database) :
    Option (Database × Summary) → Database × Summary
  | some outcome => outcome
  | none => (db, summary.addError)

/-- The run of the current profile: the newest of those of the batch. -/
def currentRun (batchId : String) (profile : Profile) (db : Database) :
    Option (String × MemoryScanRun) :=
  newest (fun entry => entry.2.createdAt)
    (db.runs.filter fun entry => entry.2.batchId = some batchId && entry.2.profile = profile)

/-- A queued batch, none of whose runs need have been enqueued. -/
def reconcileQueued (batchId : String) (batch : MemoryAnalysisBatch) (db : Database)
    (summary : Summary) : Database × Summary :=
  if batch.requestedProfiles = [] then
    summary.orError db <|
      (db.commit batchId { batch with status := .completed, completedAt := some env.now }).map
        fun db => (db, summary.addNoop)
  else
    let existing := (db.runs.filter fun entry => entry.2.batchId = some batchId).map
      fun entry => entry.2.profile
    let batch := batch.start env.now
    let missing := (batch.requestedProfiles.zipIdx 1).filter fun entry => entry.1 ∉ existing
    match enqueueProfiles env batchId batch missing db with
    | (added, .error _) =>
      summary.orError db <| (added.commit batchId batch).map fun db => (db, summary.addError)
    | (added, .ok ids) =>
      summary.orError db <|
        (added.commit batchId { batch with reconciledAt := some env.now }).map fun db =>
          (db, { summary with
            enqueuedFirstProfile := summary.enqueuedFirstProfile + ids.length })

/-- The time of a reconciliation, set on the batch as `advance_batch` left it. -/
def setReconciledAt (batchId : String) (db : Database) : Option Database :=
  match db.batch batchId with
  | none => some db
  | some batch => db.commit batchId { batch with reconciledAt := some env.now }

/-- A running batch: closed if it was cancelled, and brought up to date with the
run of its current profile. -/
def reconcileRunning (batchId : String) (batch : MemoryAnalysisBatch) (db : Database)
    (summary : Summary) : Database × Summary :=
  match batch.currentProfile with
  | none =>
    if batch.cancellationRequested then
      summary.orError db <|
        (db.commit batchId { batch with status := .cancelled, completedAt := some env.now }).map
          fun db => (db, { summary with
            cancelledAfterCancelRequest := summary.cancelledAfterCancelRequest + 1 })
    else (db, summary.addNoop)
  | some profile =>
    match currentRun batchId profile db with
    | none => (db, summary.addNoop)
    | some (runId, run) =>
      if !run.status.isTerminal || batch.lastAdvancedRunId = some runId then
        (db, summary.addNoop)
      else
        summary.orError db <|
          ((advanceBatch env runId run db).bind (setReconciledAt env batchId)).map fun db =>
            (db, { summary with advanced := summary.advanced + 1 })

/-- `_reconcile_one_batch`. -/
def reconcileOneBatch (outcome : Database × Summary) (batchId : String) : Database × Summary :=
  let (db, summary) := outcome
  match db.batch batchId with
  | none => (db, summary)
  | some batch =>
    match batch.status with
    | .queued => reconcileQueued env batchId batch db summary
    | .running => reconcileRunning env batchId batch db summary
    | _ => (db, summary.addNoop)

/-- `reconcile_memory_batches`. -/
def reconcileMemoryBatches (db : Database) : Database × Summary :=
  ((db.batches.filter fun entry => entry.2.isActive).map Prod.fst).foldl
    (reconcileOneBatch env) (db, {})

end

/-! ### Runs of the system -/

/-- What happens to the tables: a batch is created, the worker stores the status
of a run, it reports a run, a batch is cancelled, the batches are reconciled. -/
inductive Call
  | createRunAllBatch (request : BatchRequest)
  | setRunStatus (runId : String) (status : RunStatus)
  | advanceBatch (runId : String)
  | cancelBatch (batchId : String)
  | reconcileMemoryBatches

structure Event where
  env : Env
  call : Call

/-- The tables after a call; one that raises leaves what was committed. -/
def step (db : Database) (event : Event) : Database :=
  match event.call with
  | .createRunAllBatch request => (createRunAllBatch event.env request db).1
  | .setRunStatus runId status =>
    match db.run runId with
    | none => db
    | some run => db.setRun runId { run with status := status }
  | .advanceBatch runId =>
    -- `_advance_batch_after_run` reads the run afresh
    match db.run runId with
    | none => db
    | some run => (advanceBatch event.env runId run db).getD db
  | .cancelBatch batchId => (cancelBatch batchId db).getD db
  | .reconcileMemoryBatches => (reconcileMemoryBatches event.env db).1

def runEvents (db : Database) (events : List Event) : Database := events.foldl step db

end Kairon.Memory

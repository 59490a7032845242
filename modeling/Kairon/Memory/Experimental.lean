/-
Kairon/Memory/Experimental.lean

The experimental mismatched-symbol analysis: `experimental_lifecycle`, the run
endpoints of `routes_memory_experimental` and the jobs of `experimental_worker`.

A run is one row of `memory_experimental_runs`.  The lifecycle functions are pure
functions of the row that they load, and each of them commits once.  An endpoint is
one such function behind its guards (`Call.apply`).  A job goes on for minutes, and
other calls come in between: it is cut at its commits, and `Job` says where it stands
and what it carries from one to the next.  A profile job counts itself with the row
that it loaded before it indexed its documents, so the totals it adds to travel in
`Job.index` and `Job.record`.

The checks of the candidate (its hashes, its identity) and the plugins are the
environment's: their outcome comes with the event.
-/
import Mathlib

namespace Kairon.Experimental

/-! ### The row -/

/-- `RUN_STATUS_*`. -/
inductive RunStatus
  | candidateUnavailable
  | acknowledgementRequired
  | canaryQueued
  | canaryRunning
  | canaryPassed
  | canaryDegraded
  | canaryFailed
  | canaryInconclusive
  | fullRunQueued
  | fullRunRunning
  | completedUntrusted
  | partialUntrusted
  | failedUntrusted
  | cancelled
  | deleted
  deriving DecidableEq

/-- The text of a status, as error messages quote it. -/
def RunStatus.value : RunStatus → String
  | .candidateUnavailable => "candidate_unavailable"
  | .acknowledgementRequired => "acknowledgement_required"
  | .canaryQueued => "canary_queued"
  | .canaryRunning => "canary_running"
  | .canaryPassed => "canary_passed"
  | .canaryDegraded => "canary_degraded"
  | .canaryFailed => "canary_failed"
  | .canaryInconclusive => "canary_inconclusive"
  | .fullRunQueued => "full_run_queued"
  | .fullRunRunning => "full_run_running"
  | .completedUntrusted => "completed_untrusted"
  | .partialUntrusted => "partial_untrusted"
  | .failedUntrusted => "failed_untrusted"
  | .cancelled => "cancelled"
  | .deleted => "deleted"

/-- `CANARY_STATUS_*`, without `skipped`, which nothing writes. -/
inductive CanaryStatus
  | pending
  | running
  | passed
  | degraded
  | failed
  | inconclusive
  deriving DecidableEq

def CanaryStatus.value : CanaryStatus → String
  | .pending => "pending"
  | .running => "running"
  | .passed => "passed"
  | .degraded => "degraded"
  | .failed => "failed"
  | .inconclusive => "inconclusive"

/-- `EXPERIMENTAL_PROFILES`. -/
inductive Profile
  | metadata
  | processes
  | processScan
  | commandLines
  | modules
  | network
  | suspiciousMemory
  deriving DecidableEq

def experimentalProfiles : List Profile :=
  [.metadata, .processes, .processScan, .commandLines, .modules, .network, .suspiciousMemory]

/-- `allowed_profiles_for_canary_outcome`. -/
def allowedProfilesForCanaryOutcome : CanaryStatus → List Profile
  | .passed => experimentalProfiles
  | .degraded => [.metadata, .modules]
  | _ => []

/-- The aggregate counts of a run. -/
structure ProfileCounts where
  profilesQueued : ℕ := 0
  profilesCompleted : ℕ := 0
  profilesFailed : ℕ := 0
  profilesCancelled : ℕ := 0
  deriving DecidableEq

structure MemoryExperimentalRun extends ProfileCounts where
  status : RunStatus := .acknowledgementRequired
  acknowledgementActor : Option String := none
  acknowledgementAt : Option ℤ := none
  canaryStatus : CanaryStatus := .pending
  canaryStartedAt : Option ℤ := none
  canaryCompletedAt : Option ℤ := none
  canaryOverrideRequired : Bool := false
  canaryOverrideAt : Option ℤ := none
  canaryOverrideActor : Option String := none
  canaryOverrideReason : Option String := none
  requestedProfiles : List Profile
  startedAt : Option ℤ := none
  completedAt : Option ℤ := none
  cancelledAt : Option ℤ := none
  cancelledBy : Option String := none
  cancellationReason : Option String := none
  deletedAt : Option ℤ := none
  deletedBy : Option String := none
  deletionReason : Option String := none

/-- `create_run`, once it has let the request through: no profiles mean all of them. -/
def createRun (requestedProfiles : List Profile) : MemoryExperimentalRun :=
  { requestedProfiles :=
      if requestedProfiles = [] then experimentalProfiles else requestedProfiles }

structure ExperimentalLifecycleError where
  errorCode : String
  message : String
  httpStatus : ℕ := 400

/-- What a call or a job finds around it: the feature flag, whether the candidate and
the requirement of the run belong to the case and evidence of the request, the clock. -/
structure Env where
  enabled : Bool
  inScope : Bool
  now : ℤ

/-- A lifecycle function: the row to commit, or the error. -/
abbrev Outcome := Except ExperimentalLifecycleError MemoryExperimentalRun

/-! ### The lifecycle -/

/-- What `record_acknowledgement` is told: the message of a failed integrity check, and
the actor of the payload or the code with which it was rejected. -/
structure Acknowledgement where
  integrity : Except String Unit
  payload : Except (Option String) String

def recordAcknowledgement (env : Env) (ack : Acknowledgement) (run : MemoryExperimentalRun) :
    Outcome :=
  if ¬ env.enabled then
    .error ⟨"EXPERIMENTAL_DISABLED", "Experimental mismatched-symbol analysis is disabled.", 404⟩
  else if run.status ≠ .acknowledgementRequired then
    .error ⟨"EXPERIMENTAL_RUN_NOT_IN_ACK_STATE",
      "Run is in status '" ++ run.status.value ++ "'; acknowledgement is no longer accepted.", 409⟩
  else match ack.integrity with
    | .error message => .error ⟨"EXPERIMENTAL_CANDIDATE_UNAVAILABLE", message, 409⟩
    | .ok () => match ack.payload with
      | .error code =>
        .error ⟨code.getD "EXPERIMENTAL_ACK_INVALID", "Acknowledgement payload was rejected.", 400⟩
      | .ok actor =>
        .ok { run with acknowledgementActor := some actor, acknowledgementAt := some env.now }

def advanceToCanaryQueue (env : Env) (run : MemoryExperimentalRun) : Outcome :=
  if run.acknowledgementAt = none then
    .error ⟨"EXPERIMENTAL_ACK_REQUIRED",
      "Acknowledgement must be recorded before the canary can start.", 409⟩
  else if run.status ∉ [.acknowledgementRequired, .canaryQueued] then
    .error ⟨"EXPERIMENTAL_RUN_NOT_IN_ACK_STATE",
      "Run is in status '" ++ run.status.value ++ "'; the canary cannot be enqueued.", 409⟩
  else
    .ok { run with
      status := .canaryQueued
      canaryStatus := .pending
      startedAt := run.startedAt <|> some env.now }

def markCanaryRunning (env : Env) (run : MemoryExperimentalRun) : Outcome :=
  if run.status ≠ .canaryQueued then
    .error ⟨"EXPERIMENTAL_RUN_NOT_QUEUED",
      "Run is in status '" ++ run.status.value ++ "'; cannot mark canary running.", 409⟩
  else
    .ok { run with
      status := .canaryRunning
      canaryStatus := .running
      canaryStartedAt := some env.now }

/-- The aggregate of `evaluate_canary`. -/
inductive Verdict
  | passed
  | degraded
  | inconclusive
  | failed
  deriving DecidableEq

def Verdict.canaryStatus : Verdict → CanaryStatus
  | .passed => .passed
  | .degraded => .degraded
  | .inconclusive => .inconclusive
  | .failed => .failed

def Verdict.status : Verdict → RunStatus
  | .passed => .canaryPassed
  | .degraded => .canaryDegraded
  | .inconclusive => .canaryInconclusive
  | .failed => .canaryFailed

/-- `persist_canary_result`: the outcome goes into the row, the status stays. -/
def persistCanaryResult (env : Env) (verdict : Verdict) (run : MemoryExperimentalRun) :
    MemoryExperimentalRun :=
  let run := { run with
    canaryStatus := verdict.canaryStatus
    canaryCompletedAt := some env.now }
  if verdict = .degraded ∨ verdict = .inconclusive then
    { run with canaryOverrideRequired := true }
  else
    { run with
      canaryOverrideRequired := false
      canaryOverrideAt := some env.now
      canaryOverrideActor := some "system"
      canaryOverrideReason := some (if verdict = .passed then "not_required" else "n/a") }

@[simp] theorem persistCanaryResult_status (env : Env) (verdict : Verdict)
    (run : MemoryExperimentalRun) : (persistCanaryResult env verdict run).status = run.status := by
  rw [persistCanaryResult]
  split_ifs <;> rfl

@[simp] theorem persistCanaryResult_canaryStatus (env : Env) (verdict : Verdict)
    (run : MemoryExperimentalRun) :
    (persistCanaryResult env verdict run).canaryStatus = verdict.canaryStatus := by
  rw [persistCanaryResult]
  split_ifs <;> rfl

@[simp] theorem persistCanaryResult_acknowledgementAt (env : Env) (verdict : Verdict)
    (run : MemoryExperimentalRun) :
    (persistCanaryResult env verdict run).acknowledgementAt = run.acknowledgementAt := by
  rw [persistCanaryResult]
  split_ifs <;> rfl

/-- The first commit of `finalize_canary`. -/
def finalizeCanary (env : Env) (verdict : Verdict) (run : MemoryExperimentalRun) : Outcome :=
  if run.status ∉ [.canaryRunning, .canaryQueued] then
    .error ⟨"EXPERIMENTAL_RUN_NOT_RUNNING",
      "Run is in status '" ++ run.status.value ++ "'; cannot finalize canary.", 409⟩
  else .ok (persistCanaryResult env verdict run)

/-- The second commit of `finalize_canary`, after which the status says the outcome. -/
def settleCanary (env : Env) (verdict : Verdict) (run : MemoryExperimentalRun) :
    MemoryExperimentalRun :=
  { run with
    status := verdict.status
    completedAt := if verdict = .failed then some env.now else run.completedAt }

@[simp] theorem settleCanary_status (env : Env) (verdict : Verdict)
    (run : MemoryExperimentalRun) : (settleCanary env verdict run).status = verdict.status := rfl

@[simp] theorem settleCanary_canaryStatus (env : Env) (verdict : Verdict)
    (run : MemoryExperimentalRun) :
    (settleCanary env verdict run).canaryStatus = run.canaryStatus := rfl

def recordCanaryOverride (env : Env) (actor reason : String) (run : MemoryExperimentalRun) :
    Outcome :=
  if run.status ∉ [.canaryDegraded, .canaryInconclusive] then
    .error ⟨"EXPERIMENTAL_CANARY_NOT_OVERRIDEABLE",
      "Canary status is '" ++ run.canaryStatus.value ++ "'; override is not required.", 409⟩
  else
    .ok { run with
      canaryOverrideAt := some env.now
      canaryOverrideActor := some actor
      canaryOverrideReason := some reason
      canaryOverrideRequired := false
      status := if run.canaryStatus = .degraded then .canaryDegraded else .canaryInconclusive }

def requestFullRun (run : MemoryExperimentalRun) : Outcome :=
  if run.status ∉ [.canaryPassed, .canaryDegraded, .canaryInconclusive] then
    .error ⟨"EXPERIMENTAL_CANARY_NOT_PASSED",
      "Canary status is '" ++ run.canaryStatus.value ++ "'; full run is blocked.", 409⟩
  else if run.status = .canaryInconclusive then
    .error ⟨"EXPERIMENTAL_CANARY_INCONCLUSIVE_BLOCKED",
      "Inconclusive canary runs cannot continue to a full experimental run.", 409⟩
  else if run.status = .canaryDegraded ∧ run.canaryOverrideAt = none then
    .error ⟨"EXPERIMENTAL_CANARY_OVERRIDE_REQUIRED",
      "Canary outcome is not 'passed'; operator override is required.", 409⟩
  else .ok { run with status := .fullRunQueued }

def markFullRunRunning (run : MemoryExperimentalRun) : Outcome :=
  if run.status ≠ .fullRunQueued then
    .error ⟨"EXPERIMENTAL_RUN_NOT_QUEUED",
      "Run is in status '" ++ run.status.value ++ "'; cannot start full run.", 409⟩
  else .ok { run with status := .fullRunRunning }

/-- `record_profile_progress`: the increments are added to the totals that were
loaded, and the commit writes those that have changed. -/
def recordProfileProgress (loaded increment : ProfileCounts) (run : MemoryExperimentalRun) :
    MemoryExperimentalRun :=
  { run with
    profilesQueued :=
      if increment.profilesQueued = 0 then run.profilesQueued
      else loaded.profilesQueued + increment.profilesQueued
    profilesCompleted :=
      if increment.profilesCompleted = 0 then run.profilesCompleted
      else loaded.profilesCompleted + increment.profilesCompleted
    profilesFailed :=
      if increment.profilesFailed = 0 then run.profilesFailed
      else loaded.profilesFailed + increment.profilesFailed
    profilesCancelled :=
      if increment.profilesCancelled = 0 then run.profilesCancelled
      else loaded.profilesCancelled + increment.profilesCancelled }

@[simp] theorem recordProfileProgress_status (loaded increment : ProfileCounts)
    (run : MemoryExperimentalRun) :
    (recordProfileProgress loaded increment run).status = run.status := rfl

@[simp] theorem recordProfileProgress_canaryStatus (loaded increment : ProfileCounts)
    (run : MemoryExperimentalRun) :
    (recordProfileProgress loaded increment run).canaryStatus = run.canaryStatus := rfl

/-- The outcomes that `finalise_run` accepts. -/
inductive RunOutcome
  | completedUntrusted
  | partialUntrusted
  | failedUntrusted

def RunOutcome.status : RunOutcome → RunStatus
  | .completedUntrusted => .completedUntrusted
  | .partialUntrusted => .partialUntrusted
  | .failedUntrusted => .failedUntrusted

/-- `finalise_run`: the status is written whatever it was. -/
def finaliseRun (env : Env) (outcome : RunOutcome) (run : MemoryExperimentalRun) :
    MemoryExperimentalRun :=
  { run with status := outcome.status, completedAt := some env.now }

@[simp] theorem finaliseRun_status (env : Env) (outcome : RunOutcome)
    (run : MemoryExperimentalRun) : (finaliseRun env outcome run).status = outcome.status := rfl

/-- `cancel_run`: the status is written whatever it was. -/
def cancelRun (env : Env) (actor reason : String) (run : MemoryExperimentalRun) :
    MemoryExperimentalRun :=
  { run with
    status := .cancelled
    cancelledAt := some env.now
    cancelledBy := some actor
    cancellationReason := some reason
    completedAt := some env.now }

@[simp] theorem cancelRun_status (env : Env) (actor reason : String)
    (run : MemoryExperimentalRun) : (cancelRun env actor reason run).status = .cancelled := rfl

def deleteRun (env : Env) (actor reason : String) (run : MemoryExperimentalRun) : Outcome :=
  if run.status ∉ [.cancelled, .canaryFailed, .canaryInconclusive, .completedUntrusted,
      .partialUntrusted, .failedUntrusted] then
    .error ⟨"EXPERIMENTAL_DELETE_REQUIRES_TERMINAL_OR_CANCELLED",
      "Experimental runs can only be deleted after cancellation or a terminal state.", 409⟩
  else
    .ok { run with
      status := .deleted
      deletedAt := some env.now
      deletedBy := some actor
      deletionReason := some reason
      completedAt := run.completedAt <|> some env.now }

/-! ### The worker -/

/-- The profiles that `queue_experimental_full_run` counts and the endpoint enqueues:
the requested ones among those that the canary allows. -/
def queuedProfiles (run : MemoryExperimentalRun) : List Profile :=
  (allowedProfilesForCanaryOutcome run.canaryStatus).filter (· ∈ run.requestedProfiles)

def queueExperimentalFullRun (run : MemoryExperimentalRun) : Outcome :=
  if queuedProfiles run = [] then
    .error ⟨"EXPERIMENTAL_CANARY_BLOCKED",
      "No experimental profile is allowed for the current canary outcome.", 400⟩
  else (requestFullRun run).map fun requested =>
    recordProfileProgress requested.toProfileCounts
      { profilesQueued := (queuedProfiles run).length } requested

/-- `_reconcile_run_terminal_state`. -/
def reconcileRunTerminalState (env : Env) (run : MemoryExperimentalRun) : MemoryExperimentalRun :=
  if run.status ∉ [.fullRunRunning, .fullRunQueued] then run
  else if run.profilesCompleted + run.profilesFailed + run.profilesCancelled
      < run.profilesQueued then run
  else if run.profilesCompleted = 0 then finaliseRun env .failedUntrusted run
  else if run.profilesFailed > 0 ∨ run.profilesCancelled > 0 then finaliseRun env .partialUntrusted run
  else finaliseRun env .completedUntrusted run

/-- Where a job stands between two of its commits. -/
inductive Job
  /-- The canary's plugins are running. -/
  | canaryPlugins
  /-- The canary's outcome is in the row, the status has not been written. -/
  | canarySettle (verdict : Verdict)
  /-- The plugins of a profile are running; `started` is the status at the start. -/
  | plugins (started : RunStatus)
  /-- The documents have been made from the row as it was loaded then. -/
  | index (started : RunStatus) (loaded : ProfileCounts) (documents : ℕ) (hadFailure : Bool)
  /-- What is left is to count the profile. -/
  | record (loaded : ProfileCounts) (failed : Bool)
  | reconcile
  | done
  deriving DecidableEq

/-- The start of `run_experimental_canary`, up to `mark_canary_running`; `candidate` is
the outcome of the integrity check and of the access to the evidence, with the reason
that is stored. -/
def runExperimentalCanary (env : Env) (candidate : Except String Unit)
    (run : MemoryExperimentalRun) : MemoryExperimentalRun × Job :=
  if ¬ env.enabled then (cancelRun env "system" "feature_disabled" run, .done)
  else if run.status ∈ [.canaryPassed, .canaryDegraded, .canaryInconclusive, .canaryFailed] then
    (run, .done)
  else if run.deletedAt.isSome then (run, .done)
  else match candidate with
    | .error reason => (cancelRun env "system" reason run, .done)
    | .ok () => match markCanaryRunning env run with
      | .error _ => (cancelRun env "system" "canary_failed" run, .done)
      | .ok run => (run, .canaryPlugins)

/-- The start of `run_experimental_profile`.  The error of `mark_full_run_running` is
swallowed; a candidate that is not available is counted as a failure of the profile. -/
def runExperimentalProfile (profile : Option Profile) (candidate : Except String Unit)
    (env : Env) (run : MemoryExperimentalRun) : MemoryExperimentalRun × Job :=
  if run.deletedAt.isSome then (run, .done)
  else if ¬ env.enabled then (run, .done)
  else match profile with
    | none => (run, .done)
    | some profile =>
      if profile ∉ allowedProfilesForCanaryOutcome run.canaryStatus ∨
          profile ∉ run.requestedProfiles then (run, .done)
      else match candidate with
        | .error _ => (run, .record run.toProfileCounts true)
        | .ok () => match markFullRunRunning run with
          | .error _ => (run, .plugins run.status)
          | .ok marked => (marked, .plugins run.status)

/-- What the plugins of a job have given. -/
structure PluginResults where
  verdict : Verdict := .passed
  documents : ℕ := 0
  hadFailure : Bool := false

/-! ### The system -/

/-- Documents in the experimental index: the status that their job started with and
the status of the run when they were indexed. -/
structure Indexing where
  started : RunStatus
  status : RunStatus
  documents : ℕ
  deriving DecidableEq

structure World where
  run : MemoryExperimentalRun
  jobs : List Job := []
  indexed : List Indexing := []

/-- A request for the run. -/
inductive Call
  | acknowledge (ack : Acknowledgement)
  | startCanary
  | canaryOverride (actor reason : String)
  | continueRun
  | cancel (actor reason : String)
  | finalize (outcome : RunOutcome)
  | delete (actor reason : String)

/-- The guard of the endpoints. -/
def Call.admitted (env : Env) : Call → Bool
  | .finalize _ => env.enabled
  | _ => env.enabled && env.inScope

def Call.apply (env : Env) (run : MemoryExperimentalRun) : Call → Outcome
  | .acknowledge ack => recordAcknowledgement env ack run
  | .startCanary => advanceToCanaryQueue env run
  | .canaryOverride actor reason => recordCanaryOverride env actor reason run
  | .continueRun => queueExperimentalFullRun run
  | .cancel actor reason => .ok (cancelRun env actor reason run)
  | .finalize outcome => .ok (finaliseRun env outcome run)
  | .delete actor reason => deleteRun env actor reason run

inductive Action
  | call (call : Call)
  | deliverCanary (candidate : Except String Unit)
  | deliverProfile (profile : Option Profile) (candidate : Except String Unit)
  /-- The job at that place goes on to its next commit. -/
  | goOn (job : ℕ) (results : PluginResults)

structure Event where
  env : Env
  action : Action

/-- An event while the feature is on, for a run of the case and evidence of the request. -/
def Event.enabled (now : ℤ) (action : Action) : Event := ⟨⟨true, true, now⟩, action⟩

/-- A job goes on. -/
def Job.next (env : Env) (results : PluginResults) (run : MemoryExperimentalRun) :
    Job → MemoryExperimentalRun × Job
  | .canaryPlugins => match finalizeCanary env results.verdict run with
    | .error _ => (cancelRun env "system" "canary_failed" run, .done)
    | .ok run => (run, .canarySettle results.verdict)
  | .canarySettle verdict => (settleCanary env verdict run, .done)
  | .plugins started =>
    (run, .index started run.toProfileCounts results.documents results.hadFailure)
  | .index _ loaded documents hadFailure =>
    (run, .record loaded (hadFailure && documents == 0))
  | .record loaded failed =>
    (recordProfileProgress loaded
      (if failed then { profilesFailed := 1 } else { profilesCompleted := 1 }) run, .reconcile)
  | .reconcile => (reconcileRunTerminalState env run, .done)
  | .done => (run, .done)

/-- What a job indexes as it goes on. -/
def Job.indexes (run : MemoryExperimentalRun) : Job → List Indexing
  | .index started _ documents _ =>
    if documents = 0 then [] else [⟨started, run.status, documents⟩]
  | _ => []

def step (w : World) (event : Event) : World :=
  match event.action with
  | .call call =>
    if call.admitted event.env then
      match call.apply event.env w.run with
      | .error _ => w
      | .ok run => { w with run := run }
    else w
  | .deliverCanary candidate =>
    let started := runExperimentalCanary event.env candidate w.run
    { w with run := started.1, jobs := w.jobs ++ [started.2] }
  | .deliverProfile profile candidate =>
    let started := runExperimentalProfile profile candidate event.env w.run
    { w with run := started.1, jobs := w.jobs ++ [started.2] }
  | .goOn place results =>
    match w.jobs[place]? with
    | none => w
    | some job =>
      let moved := job.next event.env results w.run
      { run := moved.1
        jobs := w.jobs.set place moved.2
        indexed := w.indexed ++ job.indexes w.run }

/-- The world in which a run has just been created. -/
def created (requestedProfiles : List Profile) : World := { run := createRun requestedProfiles }

end Kairon.Experimental

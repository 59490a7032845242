/-
Kairon/Ingest/PlanRun.lean

The record of an indexing plan run, `metadata["indexing_plan_run"]`, and its three
writers: `close_indexing_plan_job` when a step is done, the watchdog's
`_reconcile_indexing_plan_run`, and `release_stale_ingest_lock` for cancel and
pause.  `evidence_has_active_indexing` reads it.

The writers run in any order.  `closes_once` says what holds along every run in
which no step reports to a run that is cancelled or paused, the watchdog's view of
a job agrees with what its step reports, and the lock is released while no job is
active.  `late_step` shows what happens otherwise.
-/
import Mathlib
import Kairon.Search.Syntax

namespace Kairon.Plan

open Search (Text)

/-! ### The record -/

/-- The values of `status`, of a run and of its jobs. -/
inductive Status
  | queued | running | processing | pending
  | completed | completedWithErrors | failed | timedOut | timeout | noData | toolingMissing
  | cancelled | paused
  deriving DecidableEq

namespace Status

/-- `ACTIVE_STATUSES`, and `ACTIVE_RUN_STATUSES` of the watchdog. -/
def Active (status : Status) : Prop := status ∈ [queued, running, processing, pending]

/-- The statuses that make a run end with errors. -/
def Failure (status : Status) : Prop := status ∈ [failed, timedOut, timeout]

/-- The statuses that releasing the lock gives a run. -/
def Released (status : Status) : Prop := status ∈ [cancelled, paused]

instance (status : Status) : Decidable status.Active := inferInstanceAs (Decidable (_ ∈ _))
instance (status : Status) : Decidable status.Failure := inferInstanceAs (Decidable (_ ∈ _))
instance (status : Status) : Decidable status.Released := inferInstanceAs (Decidable (_ ∈ _))

end Status

/-- An entry of `queued_jobs`; a missing status is `none`. -/
structure QueuedJob where
  stepId : Text
  runId : Text
  status : Option Status

/-- `str(job.get("status") or "") in ACTIVE_STATUSES` -/
def QueuedJob.Active (job : QueuedJob) : Prop := ∃ status ∈ job.status, status.Active

/-- `str(job.get("status") or "") in {"failed", "timed_out", "timeout"}` -/
def QueuedJob.Failure (job : QueuedJob) : Prop := ∃ status ∈ job.status, status.Failure

instance (job : QueuedJob) : Decidable job.Active := inferInstanceAs (Decidable (∃ _ ∈ _, _))
instance (job : QueuedJob) : Decidable job.Failure := inferInstanceAs (Decidable (∃ _ ∈ _, _))

/-- `metadata["indexing_plan_run"]` -/
structure PlanRun where
  runId : Text
  status : Status
  queuedJobs : List QueuedJob

/-- `create_indexing_plan_run`, with the jobs as they were enqueued: a step and the
id of its RQ job. -/
def createIndexingPlanRun (runId : Text) (jobs : List (Text × Text)) : PlanRun where
  runId := runId
  status := if jobs = [] then .completed else .queued
  queuedJobs := jobs.map fun job => { stepId := job.1, runId := job.2, status := some .queued }

/-! ### The writers -/

/-- How a run ends of which no job is active. -/
def closingStatus (jobs : List QueuedJob) : Status :=
  if ∃ job ∈ jobs, job.Failure then .completedWithErrors else .completed

/-- `close_indexing_plan_job`, where there is a run. -/
def closeIndexingPlanJob (stepId : Text) (status : Status) (plan : PlanRun) : PlanRun :=
  let queuedJobs := plan.queuedJobs.map fun job =>
    if job.stepId = stepId then { job with status := some status } else job
  if ¬ ∃ job ∈ plan.queuedJobs, job.stepId = stepId then plan
  else if ∃ job ∈ queuedJobs, job.Active then { plan with queuedJobs := queuedJobs }
  else { plan with queuedJobs := queuedJobs, status := closingStatus queuedJobs }

/-- What RQ says of a job. -/
inductive RqStatus
  | queued | started | deferred | scheduled | finished | failed | stopped | canceled
  deriving DecidableEq

/-- `_rq_job_terminal_status`; `fetch` is `ingest_queue.fetch_job`. -/
def rqJobTerminalStatus (fetch : Text → Option RqStatus) (jobId : Text) : Option Status :=
  if jobId = [] then none
  else
    match fetch jobId with
    | none => some .failed
    | some status =>
      if status ∈ [RqStatus.queued, .started, .deferred, .scheduled] then none
      else some (if status = .finished then .completed else .failed)

/-- What a sweep makes of a job. -/
def sweptJob (fetch : Text → Option RqStatus) (job : QueuedJob) : QueuedJob :=
  if job.Active then
    match rqJobTerminalStatus fetch job.runId with
    | none => job
    | some terminal => { job with status := some terminal }
  else job

/-- `_reconcile_indexing_plan_run` -/
def reconcileIndexingPlanRun (fetch : Text → Option RqStatus) (plan : PlanRun) : PlanRun :=
  let queuedJobs := plan.queuedJobs.map (sweptJob fetch)
  if ¬ plan.status.Active then plan
  else if ¬ ∃ job ∈ plan.queuedJobs, job.Active ∧ rqJobTerminalStatus fetch job.runId ≠ none then
    plan
  else if ∃ job ∈ queuedJobs, job.Active then
    { plan with queuedJobs := queuedJobs, status := .queued }
  else { plan with queuedJobs := queuedJobs, status := closingStatus queuedJobs }

/-- Why the lock is released. -/
inductive Phase
  | cancelled | paused

def Phase.status : Phase → Status
  | cancelled => .cancelled
  | paused => .paused

/-- What `release_stale_ingest_lock` does to the run. -/
def releaseStaleIngestLock (phase : Phase) (plan : PlanRun) : PlanRun :=
  { plan with status := phase.status }

/-! ### The reader -/

inductive IngestStatus
  | pending | processing | completed | completedWithErrors | failed
  deriving DecidableEq

/-- What `evidence_has_active_indexing` reads of the metadata.  Texts are stripped
and in lower case. -/
structure Metadata where
  currentIngestRunId : Text
  latestIngestRunId : Text
  currentPhase : Text
  phase : Text
  hasIngestRuns : Bool
  indexingPlanRun : Option PlanRun
  mftFullStatus : Option Status
  mftStatus : Option Status
  registryUserActivityStatus : Option Status
  defenderEvtxStatus : Option Status
  srumStatus : Option Status

inductive ActiveStep
  | coreIngest | indexingPlan | fullMft | userActivity | defender | srum

/-- `text or other` -/
def orText (text other : Text) : Text := if text = [] then other else text

/-- The status of a job, or that of the plan where the job has none, is active. -/
def activeInPlan (plan : PlanRun) (job : QueuedJob) : Prop := (job.status.getD plan.status).Active

instance (plan : PlanRun) (job : QueuedJob) : Decidable (activeInPlan plan job) :=
  inferInstanceAs (Decidable (Status.Active _))

/-- `plan_has_active_job` -/
def planHasActiveJob (plan : Option PlanRun) : Prop :=
  ∃ run ∈ plan, run.status.Active ∧ ∃ job ∈ run.queuedJobs, activeInPlan run job

instance (plan : Option PlanRun) : Decidable (planHasActiveJob plan) :=
  inferInstanceAs (Decidable (∃ _ ∈ _, _))

/-- The first of some checks whose status is active. -/
def firstActive (checks : List (ActiveStep × Option Status)) : Option ActiveStep :=
  (checks.find? fun check => ∃ status ∈ check.2, status.Active).map Prod.fst

/-- `evidence_has_active_indexing`: the step that is reported as active, if any. -/
def evidenceHasActiveIndexing (metadata : Metadata) (ingest : IngestStatus) : Option ActiveStep :=
  let runId := orText metadata.currentIngestRunId metadata.latestIngestRunId
  let phase := orText metadata.currentPhase metadata.phase
  if ingest = .pending ∨ ingest = .processing then
    if ingest = .pending ∧ (phase = "waiting_selection".toList ∨ phase = "selection_pending".toList) ∧
        runId = [] then none
    else if ingest = .pending ∧ runId = [] ∧ ¬ metadata.hasIngestRuns ∧
        ¬ planHasActiveJob metadata.indexingPlanRun then none
    else some .coreIngest
  else if ∃ run ∈ metadata.indexingPlanRun, run.status.Active ∧
      ∃ job ∈ run.queuedJobs, activeInPlan run job ∧ job.stepId ≠ "core_artifacts".toList then
    some .indexingPlan
  else
    firstActive
      [(.fullMft, metadata.mftFullStatus.or metadata.mftStatus),
       (.userActivity, metadata.registryUserActivityStatus),
       (.defender, metadata.defenderEvtxStatus), (.srum, metadata.srumStatus)]

/-! ### Runs -/

/-- What a step reports when it is done: a status that is not active. -/
abbrev Outcome := { status : Status // ¬ status.Active }

/-- What happens to a plan run: a step is done, the watchdog looks at the jobs, the
lock is released. -/
inductive Event
  | stepDone (stepId : Text)
  | sweep (fetch : Text → Option RqStatus)
  | release (phase : Phase)

/-- One event, where each step has its outcome. -/
def Event.apply (outcome : Text → Outcome) (plan : PlanRun) : Event → PlanRun
  | .stepDone stepId => closeIndexingPlanJob stepId (outcome stepId).1 plan
  | .sweep fetch => reconcileIndexingPlanRun fetch plan
  | .release phase => releaseStaleIngestLock phase plan

/-- The run after some events. -/
def after (outcome : Text → Outcome) (plan : PlanRun) (events : List Event) : PlanRun :=
  events.foldl (fun plan event => event.apply outcome plan) plan

/-- The condition on an event and the run before it: no step of the run reports once
it is cancelled or paused; the watchdog takes a job for failed exactly if its step
reports a failure; the lock is released while no job is active. -/
def Event.Careful (outcome : Text → Outcome) (plan : PlanRun) : Event → Prop
  | .stepDone stepId => plan.status.Released → ∀ job ∈ plan.queuedJobs, job.stepId ≠ stepId
  | .sweep fetch => plan.status.Active → ∀ job ∈ plan.queuedJobs, job.Active →
      ∀ terminal, rqJobTerminalStatus fetch job.runId = some terminal →
        (terminal.Failure ↔ (outcome job.stepId).1.Failure)
  | .release _ => ∀ job ∈ plan.queuedJobs, ¬ job.Active

/-- Every event meets its condition. -/
def CarefulRun (outcome : Text → Outcome) : PlanRun → List Event → Prop
  | _, [] => True
  | plan, event :: events =>
    event.Careful outcome plan ∧ CarefulRun outcome (event.apply outcome plan) events

/-- The end of a run, as the outcomes of its steps decide it. -/
def finalStatus (outcome : Text → Outcome) (steps : List Text) : Status :=
  if ∃ step ∈ steps, (outcome step).1.Failure then .completedWithErrors else .completed

/-- A state of a plan run that closes once and for good. -/
structure ClosesOnce (outcome : Text → Outcome) (steps : List Text) (plan : PlanRun) : Prop where
  /-- It is active exactly while some queued job is. -/
  activity : plan.status.Active ↔ ∃ job ∈ plan.queuedJobs, job.Active
  /-- Its final status depends only on the outcomes of the jobs. -/
  final : (∀ job ∈ plan.queuedJobs, ¬ job.Active) → ¬ plan.status.Released →
    plan.status = finalStatus outcome steps
  /-- Once all jobs are terminal the plan is not reported as active. -/
  reported : (∀ job ∈ plan.queuedJobs, ¬ job.Active) →
    ∀ metadata : Metadata, metadata.indexingPlanRun = some plan → ∀ ingest,
      ¬ planHasActiveJob metadata.indexingPlanRun ∧
        evidenceHasActiveIndexing metadata ingest ≠ some .indexingPlan

/-! ### What every event keeps -/

/-- The invariant of careful runs. -/
structure Kept (outcome : Text → Outcome) (steps : List Text) (plan : PlanRun) : Prop where
  stepIds : plan.queuedJobs.map QueuedJob.stepId = steps
  /-- Every job has a status, and a terminal one tells what its step has reported. -/
  recorded : ∀ job ∈ plan.queuedJobs, ∃ status, job.status = some status ∧
    (¬ status.Active → (status.Failure ↔ (outcome job.stepId).1.Failure))
  activity : plan.status.Active ↔ ∃ job ∈ plan.queuedJobs, job.Active
  final : (∀ job ∈ plan.queuedJobs, ¬ job.Active) → ¬ plan.status.Released →
    plan.status = finalStatus outcome steps

variable {status : Status}

theorem active_of_status {job : QueuedJob} (h : job.status = some status) :
    job.Active ↔ status.Active := by
  simp [QueuedJob.Active, h]

theorem failure_of_status {job : QueuedJob} (h : job.status = some status) :
    job.Failure ↔ status.Failure := by
  simp [QueuedJob.Failure, h]

theorem not_active_closingStatus (jobs : List QueuedJob) : ¬ (closingStatus jobs).Active := by
  rw [closingStatus]
  split
  · decide
  · decide

variable {outcome : Text → Outcome} {steps : List Text}

variable {jobs : List QueuedJob}

/-- The jobs' own records decide as the outcomes do. -/
theorem closingStatus_eq (hsteps : jobs.map QueuedJob.stepId = steps)
    (hrecorded : ∀ job ∈ jobs, ∃ status, job.status = some status ∧
      (¬ status.Active → (status.Failure ↔ (outcome job.stepId).1.Failure)))
    (hclosed : ¬ ∃ job ∈ jobs, job.Active) :
    closingStatus jobs = finalStatus outcome steps := by
  have hiff : (∃ job ∈ jobs, job.Failure) ↔ ∃ step ∈ steps, (outcome step).1.Failure := by
    rw [← hsteps]
    simp only [List.mem_map, exists_exists_and_eq_and]
    refine exists_congr fun job => and_congr_right fun hjob => ?_
    obtain ⟨status, hstatus, hreport⟩ := hrecorded job hjob
    rw [failure_of_status hstatus]
    exact hreport fun hactive => hclosed ⟨job, hjob, (active_of_status hstatus).2 hactive⟩
  rw [closingStatus, finalStatus]
  by_cases h : ∃ job ∈ jobs, job.Failure
  · rw [if_pos h, if_pos (hiff.1 h)]
  · rw [if_neg h, if_neg fun hf => h (hiff.2 hf)]

variable {plan : PlanRun}

/-- A run whose jobs are rewritten, and that is closed if none of them is active. -/
theorem Kept.rewrite (hsteps : jobs.map QueuedJob.stepId = steps)
    (hrecorded : ∀ job ∈ jobs, ∃ status, job.status = some status ∧
      (¬ status.Active → (status.Failure ↔ (outcome job.stepId).1.Failure)))
    (hactive : (∃ job ∈ jobs, job.Active) → status.Active)
    (hclosed : (¬ ∃ job ∈ jobs, job.Active) → status = closingStatus jobs) :
    Kept outcome steps { plan with queuedJobs := jobs, status := status } := by
  refine ⟨hsteps, hrecorded, ⟨fun h => ?_, hactive⟩, fun hnone _ => ?_⟩
  · by_contra hnone
    rw [hclosed hnone] at h
    exact not_active_closingStatus jobs h
  · have hnone' : ¬ ∃ job ∈ jobs, job.Active := fun ⟨job, hjob, h⟩ => hnone job hjob h
    exact (hclosed hnone').trans (closingStatus_eq hsteps hrecorded hnone')

theorem kept_create (outcome : Text → Outcome) (runId : Text) (jobs : List (Text × Text)) :
    Kept outcome (jobs.map Prod.fst) (createIndexingPlanRun runId jobs) := by
  have hqueued : Status.queued.Active := by decide
  have hrecorded : ∀ job ∈ (createIndexingPlanRun runId jobs).queuedJobs,
      job.status = some .queued := by
    intro job hjob
    obtain ⟨entry, -, rfl⟩ := List.mem_map.1 hjob
    rfl
  refine @Kept.rewrite _ outcome _ _ (createIndexingPlanRun runId jobs) ?_ ?_ ?_ ?_
  · rw [List.map_map]
    rfl
  · exact fun job hjob => ⟨.queued, hrecorded job hjob, fun h => absurd hqueued h⟩
  · rintro ⟨job, hjob, -⟩
    obtain ⟨entry, hentry, -⟩ := List.mem_map.1 hjob
    rw [if_neg (List.ne_nil_of_mem hentry)]
    exact hqueued
  · intro hnone
    have hnil : jobs = [] := by
      by_contra hne
      obtain ⟨entry, hentry⟩ := List.exists_mem_of_ne_nil jobs hne
      have hjob := List.mem_map_of_mem (f := fun job : Text × Text =>
        ({ stepId := job.1, runId := job.2, status := some .queued } : QueuedJob)) hentry
      exact hnone ⟨_, hjob, (active_of_status (hrecorded _ hjob)).2 hqueued⟩
    rw [hnil]
    rfl

theorem kept_stepDone (h : Kept outcome steps plan) {stepId : Text} :
    Kept outcome steps (closeIndexingPlanJob stepId (outcome stepId).1 plan) := by
  rw [closeIndexingPlanJob]
  by_cases hmatched : ∃ job ∈ plan.queuedJobs, job.stepId = stepId
  swap
  · rw [if_pos hmatched]
    exact h
  rw [if_neg (not_not.2 hmatched)]
  set jobs := plan.queuedJobs.map fun job =>
    if job.stepId = stepId then { job with status := some (outcome stepId).1 } else job with hjobs
  have hsteps : jobs.map QueuedJob.stepId = steps := by
    rw [← h.stepIds, hjobs, List.map_map]
    refine List.map_congr_left fun job _ => ?_
    rw [Function.comp_apply]
    split
    · rfl
    · rfl
  have hrecorded : ∀ job ∈ jobs, ∃ status, job.status = some status ∧
      (¬ status.Active → (status.Failure ↔ (outcome job.stepId).1.Failure)) := by
    intro job hjob
    obtain ⟨old, hold, rfl⟩ := List.mem_map.1 hjob
    by_cases hstep : old.stepId = stepId
    · rw [if_pos hstep]
      refine ⟨(outcome stepId).1, rfl, fun _ => ?_⟩
      rw [hstep]
    · rw [if_neg hstep]
      exact h.recorded old hold
  by_cases hactive : ∃ job ∈ jobs, job.Active
  · -- an active job is one that was not touched, so that the run was active before
    rw [if_pos hactive]
    refine .rewrite hsteps hrecorded (fun _ => h.activity.2 ?_) fun hnone => absurd hactive hnone
    obtain ⟨job, hjob, hjobActive⟩ := hactive
    obtain ⟨old, hold, rfl⟩ := List.mem_map.1 hjob
    by_cases hstep : old.stepId = stepId
    · rw [if_pos hstep] at hjobActive
      exact absurd ((active_of_status rfl).1 hjobActive) (outcome stepId).2
    · rw [if_neg hstep] at hjobActive
      exact ⟨old, hold, hjobActive⟩
  · rw [if_neg hactive]
    exact .rewrite hsteps hrecorded (fun h => absurd h hactive) fun _ => rfl

theorem kept_sweep (h : Kept outcome steps plan) {fetch : Text → Option RqStatus}
    (hcareful : (Event.sweep fetch).Careful outcome plan) :
    Kept outcome steps (reconcileIndexingPlanRun fetch plan) := by
  rw [reconcileIndexingPlanRun]
  by_cases hplan : plan.status.Active
  swap
  · rw [if_pos hplan]
    exact h
  rw [if_neg (not_not.2 hplan)]
  by_cases hchanged : ∃ job ∈ plan.queuedJobs,
      job.Active ∧ rqJobTerminalStatus fetch job.runId ≠ none
  swap
  · rw [if_pos hchanged]
    exact h
  rw [if_neg (not_not.2 hchanged)]
  have hsteps : (plan.queuedJobs.map (sweptJob fetch)).map QueuedJob.stepId = steps := by
    rw [← h.stepIds, List.map_map]
    refine List.map_congr_left fun job _ => ?_
    rw [Function.comp_apply, sweptJob]
    split
    · split
      · rfl
      · rfl
    · rfl
  have hrecorded : ∀ job ∈ plan.queuedJobs.map (sweptJob fetch), ∃ status,
      job.status = some status ∧
        (¬ status.Active → (status.Failure ↔ (outcome job.stepId).1.Failure)) := by
    intro job hjob
    obtain ⟨old, hold, rfl⟩ := List.mem_map.1 hjob
    rw [sweptJob]
    by_cases hactive : old.Active
    · rw [if_pos hactive]
      rcases hrq : rqJobTerminalStatus fetch old.runId with - | terminal
      · exact h.recorded old hold
      · exact ⟨terminal, rfl, fun _ => hcareful hplan old hold hactive terminal hrq⟩
    · rw [if_neg hactive]
      exact h.recorded old hold
  by_cases hactive : ∃ job ∈ plan.queuedJobs.map (sweptJob fetch), job.Active
  · rw [if_pos hactive]
    exact .rewrite hsteps hrecorded (fun _ => by decide) fun hnone => absurd hactive hnone
  · rw [if_neg hactive]
    exact .rewrite hsteps hrecorded (fun h => absurd h hactive) fun _ => rfl

theorem released_status (phase : Phase) : phase.status.Released := by
  cases phase with
  | cancelled => decide
  | paused => decide

theorem not_active_of_released (h : status.Released) : ¬ status.Active := by
  cases status <;> revert h <;> decide

theorem kept_release (h : Kept outcome steps plan) {phase : Phase}
    (hcareful : (Event.release phase).Careful outcome plan) :
    Kept outcome steps (releaseStaleIngestLock phase plan) := by
  have hreleased := released_status phase
  refine ⟨h.stepIds, h.recorded, ?_, fun _ hnot => absurd hreleased hnot⟩
  refine iff_of_false (not_active_of_released hreleased) ?_
  rintro ⟨job, hjob, hactive⟩
  exact hcareful job hjob hactive

/-- One careful event keeps the invariant. -/
theorem kept_apply
    (h : Kept outcome steps plan) {event : Event} (hcareful : event.Careful outcome plan) :
    Kept outcome steps (event.apply outcome plan) := by
  cases event with
  | stepDone stepId => exact kept_stepDone h
  | sweep fetch => exact kept_sweep h hcareful
  | release phase => exact kept_release h hcareful

/-- One careful event leaves a cancelled or paused run cancelled or paused. -/
theorem released_apply
    (h : plan.status.Released) {event : Event} (hcareful : event.Careful outcome plan) :
    (event.apply outcome plan).status.Released := by
  cases event with
  | stepDone stepId =>
    show (closeIndexingPlanJob _ _ plan).status.Released
    rw [closeIndexingPlanJob, if_pos]
    · exact h
    · rintro ⟨job, hjob, hstep⟩
      exact hcareful h job hjob hstep
  | sweep fetch =>
    show (reconcileIndexingPlanRun _ plan).status.Released
    rw [reconcileIndexingPlanRun, if_pos (not_active_of_released h)]
    exact h
  | release phase => exact released_status phase

/-! ### Reading -/

/-- A run of which no job is active, each with a status, is not reported. -/
theorem not_reported (hstatus : ∀ job ∈ plan.queuedJobs, job.status ≠ none)
    (hterminal : ∀ job ∈ plan.queuedJobs, ¬ job.Active) {metadata : Metadata}
    (hplan : metadata.indexingPlanRun = some plan) (ingest : IngestStatus) :
    ¬ planHasActiveJob metadata.indexingPlanRun ∧
      evidenceHasActiveIndexing metadata ingest ≠ some .indexingPlan := by
  have hjob : ∀ job ∈ plan.queuedJobs, ¬ activeInPlan plan job := by
    intro job hjob hactive
    obtain ⟨status, hsome⟩ := Option.ne_none_iff_exists'.1 (hstatus job hjob)
    rw [activeInPlan, hsome] at hactive
    exact hterminal job hjob ((active_of_status hsome).2 hactive)
  constructor
  · rintro ⟨run, hrun, -, job, hmem, hactive⟩
    obtain rfl := Option.some.inj (hplan.symm.trans hrun)
    exact hjob job hmem hactive
  · rw [evidenceHasActiveIndexing]
    split
    · split
      · exact fun h => by cases h
      · split
        · exact fun h => by cases h
        · exact fun h => by cases h
    · rw [if_neg]
      · -- the checks that follow are about the steps' own statuses
        intro h
        obtain ⟨check, hcheck, hstep⟩ := Option.map_eq_some_iff.1 h
        have hmem := List.mem_of_find?_eq_some hcheck
        simp only [List.mem_cons, List.not_mem_nil, or_false] at hmem
        rcases hmem with rfl | rfl | rfl | rfl <;> cases hstep
      · rintro ⟨run, hrun, -, job, hmem, hactive, -⟩
        obtain rfl := Option.some.inj (hplan.symm.trans hrun)
        exact hjob job hmem hactive

theorem Kept.closesOnce (h : Kept outcome steps plan) : ClosesOnce outcome steps plan := by
  refine ⟨h.activity, h.final, fun hterminal metadata hplan ingest => ?_⟩
  refine not_reported (fun job hjob hnone => ?_) hterminal hplan ingest
  obtain ⟨status, hstatus, -⟩ := h.recorded job hjob
  rw [hnone] at hstatus
  cases hstatus

/-! ### Whole runs -/

theorem kept_after (h : Kept outcome steps plan) {events : List Event}
    (hcareful : CarefulRun outcome plan events) : Kept outcome steps (after outcome plan events) := by
  induction events generalizing plan with
  | nil => exact h
  | cons event events ih => exact ih (kept_apply h hcareful.1) hcareful.2

theorem released_after (h : plan.status.Released)
    {events : List Event} (hcareful : CarefulRun outcome plan events) :
    (after outcome plan events).status.Released := by
  induction events generalizing plan with
  | nil => exact h
  | cons event events ih => exact ih (released_apply h hcareful.1) hcareful.2

theorem carefulRun_append {first rest : List Event} : CarefulRun outcome plan (first ++ rest) ↔
      CarefulRun outcome plan first ∧ CarefulRun outcome (after outcome plan first) rest := by
  induction first generalizing plan with
  | nil => exact ⟨fun h => ⟨trivial, h⟩, And.right⟩
  | cons event first ih =>
    rw [List.cons_append, CarefulRun, CarefulRun, ih, and_assoc]
    rfl

/-- **An indexing plan run closes once and for good**, in every run of careful
events: each state it goes through is one of `ClosesOnce`, and once cancelled or
paused it stays so. -/
theorem closes_once (outcome : Text → Outcome) (runId : Text) (jobs : List (Text × Text))
    (first rest : List Event)
    (hcareful : CarefulRun outcome (createIndexingPlanRun runId jobs) (first ++ rest)) :
    ClosesOnce outcome (jobs.map Prod.fst)
        (after outcome (createIndexingPlanRun runId jobs) first) ∧
      ((after outcome (createIndexingPlanRun runId jobs) first).status.Released →
        (after outcome (createIndexingPlanRun runId jobs) (first ++ rest)).status.Released) := by
  obtain ⟨hfirst, hrest⟩ := carefulRun_append.1 hcareful
  refine ⟨(kept_after (kept_create outcome runId jobs) hfirst).closesOnce, fun hreleased => ?_⟩
  rw [after, List.foldl_append]
  exact released_after hreleased hrest

/-! ### A late step -/

def srum : Text := "srum".toList
def mftFull : Text := "mft_full".toList

/-- Every step reports `completed`, but `srum` reports `failed`. -/
def srumFails (stepId : Text) : Outcome :=
  if stepId = srum then ⟨.failed, by decide⟩ else ⟨.completed, by decide⟩

/-- A plan of one step. -/
def oneStep (stepId : Text) : PlanRun := createIndexingPlanRun ['r'] [(stepId, ['j'])]

/-- A paused run is completed by a late step; while it is paused its job is still
queued; and a failure that RQ has seen finish ends a run without errors. -/
theorem late_step : ((after srumFails (oneStep mftFull) [.release .paused]).status.Released ∧
      (after srumFails (oneStep mftFull) [.release .paused, .stepDone mftFull]).status =
        .completed) ∧
    ¬ ClosesOnce srumFails [mftFull] (after srumFails (oneStep mftFull) [.release .paused]) ∧
    ¬ ClosesOnce srumFails [srum]
      (after srumFails (oneStep srum) [.sweep fun _ => some .finished]) := by
  refine ⟨by decide, fun h => ?_, fun h => ?_⟩
  · exact absurd h.activity (by decide)
  · exact absurd (h.final (by decide) (by decide)) (by decide)

/-- A run that the watchdog and a late report close together, then cancelled. -/
theorem closed_by_both : ClosesOnce srumFails [srum, mftFull]
      (after srumFails (createIndexingPlanRun ['r'] [(srum, ['j']), (mftFull, ['k'])])
        [.sweep fun jobId => if jobId = ['j'] then some .failed else some .started,
          .stepDone mftFull, .stepDone srum]) ∧
    ((after srumFails (createIndexingPlanRun ['r'] [(srum, ['j']), (mftFull, ['k'])])
        [.sweep fun jobId => if jobId = ['j'] then some .failed else some .started,
          .stepDone mftFull, .stepDone srum]).status.Released →
      (after srumFails (createIndexingPlanRun ['r'] [(srum, ['j']), (mftFull, ['k'])])
        ([.sweep fun jobId => if jobId = ['j'] then some .failed else some .started,
          .stepDone mftFull, .stepDone srum] ++ [.release .cancelled])).status.Released) := by
  refine closes_once srumFails ['r'] [(srum, ['j']), (mftFull, ['k'])] _ [.release .cancelled]
    ⟨fun _ job hjob _ terminal hterminal => ?_, fun h => ?_, fun h => ?_, ?_, trivial⟩
  · rcases List.mem_cons.1 hjob with rfl | hjob
    · obtain rfl := Option.some.inj hterminal
      decide
    · obtain rfl := List.mem_singleton.1 hjob
      cases hterminal
  · exact absurd h (by decide)
  · exact absurd h (by decide)
  · show ∀ job ∈ _, ¬ QueuedJob.Active job
    decide

end Kairon.Plan

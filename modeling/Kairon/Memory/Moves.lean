/-
Kairon/Memory/Moves.lean

What one event can do to the row of an experimental run.

`Move w event` lists the rows that an event may leave, each with the check of the
source that let it through.  Most moves carry a check of the status; `cancel_run`,
`finalise_run` and the second commit of `finalize_canary` carry none, and `Cancels`
says in which states an event reaches the first of them.  `step_move` is the
only place where the endpoints and the jobs are taken apart; whatever holds of the
status over a run is read off from the moves.
-/
import Kairon.Memory.Experimental

namespace Kairon.Experimental

variable {env : Env} {run run' : MemoryExperimentalRun}

/-- A canary job that has not reported yet. -/
def Job.isCanary : Job → Bool
  | .canaryPlugins => true
  | .canarySettle _ => true
  | _ => false

/-! ### What a lifecycle function commits -/

theorem recordAcknowledgement_ok {ack : Acknowledgement}
    (h : recordAcknowledgement env ack run = .ok run') :
    run.status = .acknowledgementRequired ∧ ∃ actor, run' =
      { run with acknowledgementActor := some actor, acknowledgementAt := some env.now } := by
  rw [recordAcknowledgement] at h
  split_ifs at h with henabled hstatus
  split at h
  · cases h
  · split at h
    · cases h
    · next actor hpayload =>
        exact ⟨not_not.1 hstatus, actor, (Except.ok.inj h).symm⟩

theorem advanceToCanaryQueue_ok (h : advanceToCanaryQueue env run = .ok run') :
    run.acknowledgementAt.isSome ∧ run.status ∈ [.acknowledgementRequired, .canaryQueued] ∧
      run' = { run with
        status := .canaryQueued
        canaryStatus := .pending
        startedAt := run.startedAt <|> some env.now } := by
  rw [advanceToCanaryQueue] at h
  split_ifs at h with hack hstatus
  exact ⟨Option.isSome_iff_ne_none.2 hack, hstatus, (Except.ok.inj h).symm⟩

theorem markCanaryRunning_ok (h : markCanaryRunning env run = .ok run') :
    run.status = .canaryQueued ∧ run' = { run with
      status := .canaryRunning
      canaryStatus := .running
      canaryStartedAt := some env.now } := by
  rw [markCanaryRunning] at h
  split_ifs at h with hstatus
  exact ⟨not_not.1 hstatus, (Except.ok.inj h).symm⟩

theorem finalizeCanary_ok {verdict : Verdict} (h : finalizeCanary env verdict run = .ok run') :
    run.status ∈ [.canaryRunning, .canaryQueued] ∧ run' = persistCanaryResult env verdict run := by
  rw [finalizeCanary] at h
  split_ifs at h with hstatus
  exact ⟨hstatus, (Except.ok.inj h).symm⟩

variable {actor reason : String}

theorem recordCanaryOverride_ok (h : recordCanaryOverride env actor reason run = .ok run') :
    run.status ∈ [.canaryDegraded, .canaryInconclusive] ∧ run' = { run with
      canaryOverrideAt := some env.now
      canaryOverrideActor := some actor
      canaryOverrideReason := some reason
      canaryOverrideRequired := false
      status := if run.canaryStatus = .degraded then .canaryDegraded
        else .canaryInconclusive } := by
  by_cases hstatus : run.status ∈ [.canaryDegraded, .canaryInconclusive]
  · rw [recordCanaryOverride, if_neg (not_not.2 hstatus)] at h
    exact ⟨hstatus, (Except.ok.inj h).symm⟩
  · rw [recordCanaryOverride, if_pos hstatus] at h
    cases h

theorem requestFullRun_ok (h : requestFullRun run = .ok run') :
    (run.status = .canaryPassed ∨ run.status = .canaryDegraded ∧ run.canaryOverrideAt.isSome) ∧
      run' = { run with status := .fullRunQueued } := by
  rw [requestFullRun] at h
  split_ifs at h with hstatus hinconclusive hoverride
  refine ⟨?_, (Except.ok.inj h).symm⟩
  simp only [List.mem_cons, List.not_mem_nil, or_false] at hstatus
  rcases hstatus with hpassed | hdegraded | h
  · exact .inl hpassed
  · exact .inr ⟨hdegraded, Option.isSome_iff_ne_none.2 fun hnone => hoverride ⟨hdegraded, hnone⟩⟩
  · exact absurd h hinconclusive

theorem queueExperimentalFullRun_ok (h : queueExperimentalFullRun run = .ok run') :
    (run.status = .canaryPassed ∨ run.status = .canaryDegraded ∧ run.canaryOverrideAt.isSome) ∧
      run' = recordProfileProgress run.toProfileCounts
        { profilesQueued := (queuedProfiles run).length } { run with status := .fullRunQueued } := by
  rw [queueExperimentalFullRun] at h
  split_ifs at h with hnone
  rcases hrequest : requestFullRun run with error | requested
  · rw [hrequest] at h
    cases h
  · obtain ⟨hstatus, rfl⟩ := requestFullRun_ok hrequest
    rw [hrequest] at h
    exact ⟨hstatus, (Except.ok.inj h).symm⟩

theorem markFullRunRunning_ok (h : markFullRunRunning run = .ok run') :
    run.status = .fullRunQueued ∧ run' = { run with status := .fullRunRunning } := by
  rw [markFullRunRunning] at h
  split_ifs at h with hstatus
  exact ⟨not_not.1 hstatus, (Except.ok.inj h).symm⟩

theorem deleteRun_ok (h : deleteRun env actor reason run = .ok run') :
    run.status ∈ [.cancelled, .canaryFailed, .canaryInconclusive, .completedUntrusted,
        .partialUntrusted, .failedUntrusted] ∧
      run' = { run with
        status := .deleted
        deletedAt := some env.now
        deletedBy := some actor
        deletionReason := some reason
        completedAt := run.completedAt <|> some env.now } := by
  rw [deleteRun] at h
  split_ifs at h with hstatus
  exact ⟨hstatus, (Except.ok.inj h).symm⟩

/-- `_reconcile_run_terminal_state` finalises an open run, or does nothing. -/
theorem reconcileRunTerminalState_cases (env : Env) (run : MemoryExperimentalRun) :
    reconcileRunTerminalState env run = run ∨ run.status ∈ [.fullRunRunning, .fullRunQueued] ∧
        ∃ outcome, reconcileRunTerminalState env run = finaliseRun env outcome run := by
  rw [reconcileRunTerminalState]
  split_ifs with hstatus
  · exact .inl rfl
  · exact .inr ⟨hstatus, _, rfl⟩
  · exact .inr ⟨hstatus, _, rfl⟩
  · exact .inr ⟨hstatus, _, rfl⟩
  · exact .inl rfl

/-! ### Events that cancel -/

/-- A canary job that cancels the run as it is delivered: the feature is off, or the run
has neither a canary outcome nor been deleted, and its candidate is not available or it
is not waiting for its canary. -/
def CanaryCancels (env : Env) (candidate : Except String Unit) (run : MemoryExperimentalRun) :
    Prop :=
  env.enabled = false ∨
    run.status ∉ [.canaryPassed, .canaryDegraded, .canaryInconclusive, .canaryFailed] ∧
      run.deletedAt = none ∧ (candidate ≠ .ok () ∨ run.status ≠ .canaryQueued)

/-- A canary job that cancels the run as its plugins end: the run is not in its canary. -/
def Job.Cancels (run : MemoryExperimentalRun) (job : Job) : Prop :=
  job = .canaryPlugins ∧ run.status ∉ [.canaryRunning, .canaryQueued]

/-- The events after which the run is cancelled. -/
def Cancels (w : World) (event : Event) : Prop :=
  match event.action with
  | .call call => call.admitted event.env ∧ ∃ actor reason, call = .cancel actor reason
  | .deliverCanary candidate => CanaryCancels event.env candidate w.run
  | .deliverProfile _ _ => False
  | .goOn place _ => ∃ job, w.jobs[place]? = some job ∧ job.Cancels w.run

/-- A profile job that starts its plugins as it is delivered: the run has not been
deleted, the feature is on, the canary allows the profile, it was requested, and its
candidate is available.  The status of the run is not among it. -/
def ProfileStarts (env : Env) (profile : Option Profile) (candidate : Except String Unit)
    (run : MemoryExperimentalRun) : Prop :=
  run.deletedAt = none ∧ env.enabled ∧ (∃ name, profile = some name ∧
    name ∈ allowedProfilesForCanaryOutcome run.canaryStatus ∧ name ∈ run.requestedProfiles) ∧
      candidate = .ok ()

/-! ### The moves -/

/-- The rows that an event may leave. -/
inductive Move (w : World) (event : Event) : MemoryExperimentalRun → Prop
  | stay : Move w event w.run
  | acknowledge (actor : String) (hstatus : w.run.status = .acknowledgementRequired) :
      Move w event { w.run with
        acknowledgementActor := some actor, acknowledgementAt := some event.env.now }
  | startCanary (hack : w.run.acknowledgementAt.isSome)
      (hstatus : w.run.status ∈ [.acknowledgementRequired, .canaryQueued]) :
      Move w event { w.run with
        status := .canaryQueued
        canaryStatus := .pending
        startedAt := w.run.startedAt <|> some event.env.now }
  | markCanary (hstatus : w.run.status = .canaryQueued) :
      Move w event { w.run with
        status := .canaryRunning
        canaryStatus := .running
        canaryStartedAt := some event.env.now }
  | persist (place : ℕ) (results : PluginResults) (haction : event.action = .goOn place results)
      (hjob : w.jobs[place]? = some .canaryPlugins)
      (hstatus : w.run.status ∈ [.canaryRunning, .canaryQueued]) :
      Move w event (persistCanaryResult event.env results.verdict w.run)
  | settle (verdict : Verdict) (place : ℕ) (results : PluginResults)
      (haction : event.action = .goOn place results)
      (hjob : w.jobs[place]? = some (.canarySettle verdict)) :
      Move w event (settleCanary event.env verdict w.run)
  | override (actor reason : String)
      (hstatus : w.run.status ∈ [.canaryDegraded, .canaryInconclusive]) :
      Move w event { w.run with
        canaryOverrideAt := some event.env.now
        canaryOverrideActor := some actor
        canaryOverrideReason := some reason
        canaryOverrideRequired := false
        status := if w.run.canaryStatus = .degraded then .canaryDegraded
          else .canaryInconclusive }
  | queue (hstatus : w.run.status = .canaryPassed ∨
        w.run.status = .canaryDegraded ∧ w.run.canaryOverrideAt.isSome) :
      Move w event (recordProfileProgress w.run.toProfileCounts
        { profilesQueued := (queuedProfiles w.run).length }
        { w.run with status := .fullRunQueued })
  | markRunning (hstatus : w.run.status = .fullRunQueued) :
      Move w event { w.run with status := .fullRunRunning }
  | count (loaded increment : ProfileCounts) :
      Move w event (recordProfileProgress loaded increment w.run)
  | reconcile (outcome : RunOutcome)
      (hstatus : w.run.status ∈ [.fullRunRunning, .fullRunQueued]) :
      Move w event (finaliseRun event.env outcome w.run)
  | finalize (outcome : RunOutcome) (hcall : event.action = .call (.finalize outcome))
      (henabled : event.env.enabled) :
      Move w event (finaliseRun event.env outcome w.run)
  | cancel (actor reason : String) (h : Cancels w event) :
      Move w event (cancelRun event.env actor reason w.run)
  | delete (actor reason : String)
      (hstatus : w.run.status ∈ [.cancelled, .canaryFailed, .canaryInconclusive,
        .completedUntrusted, .partialUntrusted, .failedUntrusted]) :
      Move w event { w.run with
        status := .deleted
        deletedAt := some event.env.now
        deletedBy := some actor
        deletionReason := some reason
        completedAt := w.run.completedAt <|> some event.env.now }

section

variable {w : World} {event : Event}

theorem apply_move {call : Call} (haction : event.action = .call call)
    (hadmitted : call.admitted event.env) (h : call.apply event.env w.run = .ok run') :
    Move w event run' := by
  cases call with
  | acknowledge ack =>
    obtain ⟨hstatus, actor, rfl⟩ := recordAcknowledgement_ok h
    exact .acknowledge actor hstatus
  | startCanary =>
    obtain ⟨hack, hstatus, rfl⟩ := advanceToCanaryQueue_ok h
    exact .startCanary hack hstatus
  | canaryOverride actor reason =>
    obtain ⟨hstatus, rfl⟩ := recordCanaryOverride_ok h
    exact .override actor reason hstatus
  | continueRun =>
    obtain ⟨hstatus, rfl⟩ := queueExperimentalFullRun_ok h
    exact .queue hstatus
  | cancel actor reason =>
    obtain rfl := Except.ok.inj h
    refine .cancel actor reason ?_
    rw [Cancels, haction]
    exact ⟨hadmitted, actor, reason, rfl⟩
  | finalize outcome =>
    obtain rfl := Except.ok.inj h
    exact .finalize outcome haction hadmitted
  | delete actor reason =>
    obtain ⟨hstatus, rfl⟩ := deleteRun_ok h
    exact .delete actor reason hstatus

/-- A canary job that is delivered cancels the run, leaves it alone, or starts its
canary. -/
theorem runExperimentalCanary_cases (env : Env) (run : MemoryExperimentalRun)
    (candidate : Except String Unit) :
    (CanaryCancels env candidate run ∧ ∃ reason, runExperimentalCanary env candidate run =
        (cancelRun env "system" reason run, .done)) ∨
      runExperimentalCanary env candidate run = (run, .done) ∨
      ∃ marked, markCanaryRunning env run = .ok marked ∧
        runExperimentalCanary env candidate run = (marked, .canaryPlugins) := by
  unfold runExperimentalCanary
  split_ifs with henabled houtcome hdeleted
  · exact .inr (.inl rfl)
  · exact .inr (.inl rfl)
  · have hopen : run.deletedAt = none := by simpa using hdeleted
    rcases candidate with reason | ⟨⟩
    · exact .inl ⟨.inr ⟨houtcome, hopen, .inl nofun⟩, reason, rfl⟩
    · rcases hmark : markCanaryRunning env run with error | marked
      · refine .inl ⟨.inr ⟨houtcome, hopen, .inr fun hqueued => ?_⟩, "canary_failed", rfl⟩
        rw [markCanaryRunning, if_neg (not_not.2 hqueued)] at hmark
        cases hmark
      · exact .inr (.inr ⟨marked, rfl, rfl⟩)
  · exact .inl ⟨.inl (Bool.eq_false_iff.2 henabled), _, rfl⟩

/-- A profile job that is delivered starts its plugins, goes on to count a failure, or
does nothing; the row it may touch is one that waits for its full run. -/
theorem runExperimentalProfile_cases (env : Env) (run : MemoryExperimentalRun)
    (profile : Option Profile) (candidate : Except String Unit) :
    runExperimentalProfile profile candidate env run = (run, .done) ∨
      runExperimentalProfile profile candidate env run = (run, .record run.toProfileCounts true) ∨
      ProfileStarts env profile candidate run ∧
        ∃ row, runExperimentalProfile profile candidate env run = (row, .plugins run.status) ∧
          (row = run ∨ markFullRunRunning run = .ok row) := by
  unfold runExperimentalProfile
  split_ifs with hdeleted henabled
  · exact .inl rfl
  · rcases profile with - | profile
    · exact .inl rfl
    · dsimp only
      split_ifs with hallowed
      · exact .inl rfl
      · rcases candidate with reason | ⟨⟩
        · exact .inr (.inl rfl)
        · rw [not_or, not_not, not_not] at hallowed
          have hstarts : ProfileStarts env (some profile) (.ok ()) run :=
            ⟨by simpa using hdeleted, henabled, ⟨profile, rfl, hallowed⟩, rfl⟩
          rcases hmark : markFullRunRunning run with error | marked
          · exact .inr (.inr ⟨hstarts, run, rfl, .inl rfl⟩)
          · exact .inr (.inr ⟨hstarts, marked, rfl, .inr rfl⟩)
  · exact .inl rfl

theorem next_move {place : ℕ} {results : PluginResults} {job : Job}
    (haction : event.action = .goOn place results) (hjob : w.jobs[place]? = some job) :
    Move w event (job.next event.env results w.run).1 := by
  cases job with
  | canaryPlugins =>
    rw [Job.next]
    rcases hfinalize : finalizeCanary event.env results.verdict w.run with error | persisted
    · refine .cancel _ _ ?_
      rw [Cancels, haction]
      refine ⟨_, hjob, rfl, fun hstatus => ?_⟩
      rw [finalizeCanary, if_neg (not_not.2 hstatus)] at hfinalize
      cases hfinalize
    · obtain ⟨hstatus, rfl⟩ := finalizeCanary_ok hfinalize
      exact .persist place results haction hjob hstatus
  | canarySettle verdict => exact .settle verdict place results haction hjob
  | plugins started => exact .stay
  | index started loaded documents hadFailure => exact .stay
  | record loaded failed => exact .count _ _
  | reconcile =>
    show Move w event (reconcileRunTerminalState event.env w.run)
    rcases reconcileRunTerminalState_cases event.env w.run with hsame | ⟨hstatus, outcome, hrow⟩
    · rw [hsame]
      exact .stay
    · rw [hrow]
      exact .reconcile outcome hstatus
  | done => exact .stay

/-- **What an event does to the row is one of the moves.** -/
theorem step_move (w : World) (event : Event) : Move w event (step w event).run := by
  rw [step]
  rcases haction : event.action with call | candidate | ⟨profile, candidate⟩ | ⟨place, results⟩
  · dsimp only
    split_ifs with hadmitted
    · rcases happly : call.apply event.env w.run with error | row
      · exact .stay
      · exact apply_move haction hadmitted happly
    · exact .stay
  · show Move w event (runExperimentalCanary event.env candidate w.run).1
    rcases runExperimentalCanary_cases event.env w.run candidate with
      ⟨hcancels, reason, heq⟩ | heq | ⟨marked, hmark, heq⟩
    · rw [heq]
      refine .cancel _ _ ?_
      rw [Cancels, haction]
      exact hcancels
    · rw [heq]
      exact .stay
    · obtain ⟨hstatus, rfl⟩ := markCanaryRunning_ok hmark
      rw [heq]
      exact .markCanary hstatus
  · show Move w event (runExperimentalProfile profile candidate event.env w.run).1
    rcases runExperimentalProfile_cases event.env w.run profile candidate with
      heq | heq | ⟨-, row, heq, rfl | hmark⟩
    · rw [heq]
      exact .stay
    · rw [heq]
      exact .stay
    · rw [heq]
      exact .stay
    · obtain ⟨hstatus, rfl⟩ := markFullRunRunning_ok hmark
      rw [heq]
      exact .markRunning hstatus
  · dsimp only
    rcases hjob : w.jobs[place]? with - | job
    · exact .stay
    · exact next_move haction hjob

/-! ### The jobs -/

/-- The jobs that an event may leave: those that there were, one more, or one of them
further on. -/
inductive JobMove (w : World) (event : Event) : List Job → Prop
  | same (call : Call) (haction : event.action = .call call) : JobMove w event w.jobs
  | start (job : Job) (hgoOn : ∀ place results, event.action ≠ .goOn place results)
      (hcanary : job = .canaryPlugins → markCanaryRunning event.env w.run = .ok (step w event).run)
      (hprofile : ∀ started, job = .plugins started → started = w.run.status ∧
        ∃ profile candidate, event.action = .deliverProfile profile candidate ∧
          ProfileStarts event.env profile candidate w.run)
      (hfresh : ∀ verdict started loaded documents hadFailure,
        job ≠ .canarySettle verdict ∧ job ≠ .index started loaded documents hadFailure) :
      JobMove w event (w.jobs ++ [job])
  | goOn (place : ℕ) (results : PluginResults) (job : Job)
      (haction : event.action = .goOn place results) (hjob : w.jobs[place]? = some job)
      (hrun : (step w event).run = (job.next event.env results w.run).1)
      (hindexed : (step w event).indexed = w.indexed ++ job.indexes w.run) :
      JobMove w event (w.jobs.set place (job.next event.env results w.run).2)
  | idle (place : ℕ) (results : PluginResults) (haction : event.action = .goOn place results)
      (hjob : w.jobs[place]? = none) : JobMove w event w.jobs

/-- **What an event does to the jobs is one of these.** -/
theorem step_jobs (w : World) (event : Event) : JobMove w event (step w event).jobs := by
  rcases haction : event.action with call | candidate | ⟨profile, candidate⟩ | ⟨place, results⟩
  · have hjobs : (step w event).jobs = w.jobs := by
      rw [step, haction]
      dsimp only
      split_ifs
      · split
        · rfl
        · rfl
      · rfl
    rw [hjobs]
    exact .same call haction
  · have hgoOn : ∀ place results, event.action ≠ .goOn place results := by
      rw [haction]
      exact nofun
    have hrun : (step w event).run = (runExperimentalCanary event.env candidate w.run).1 := by
      rw [step, haction]
    have hjobs : (step w event).jobs =
        w.jobs ++ [(runExperimentalCanary event.env candidate w.run).2] := by
      rw [step, haction]
    rw [hjobs]
    rcases runExperimentalCanary_cases event.env w.run candidate with
      ⟨-, reason, heq⟩ | heq | ⟨marked, hmark, heq⟩
    · rw [heq]
      exact .start _ hgoOn nofun nofun fun _ _ _ _ _ => ⟨nofun, nofun⟩
    · rw [heq]
      exact .start _ hgoOn nofun nofun fun _ _ _ _ _ => ⟨nofun, nofun⟩
    · rw [heq] at hrun ⊢
      refine .start _ hgoOn (fun _ => ?_) nofun fun _ _ _ _ _ => ⟨nofun, nofun⟩
      rw [hrun]
      exact hmark
  · have hgoOn : ∀ place results, event.action ≠ .goOn place results := by
      rw [haction]
      exact nofun
    have hjobs : (step w event).jobs =
        w.jobs ++ [(runExperimentalProfile profile candidate event.env w.run).2] := by
      rw [step, haction]
    rw [hjobs]
    rcases runExperimentalProfile_cases event.env w.run profile candidate with
      heq | heq | ⟨hstarts, row, heq, -⟩
    · rw [heq]
      exact .start _ hgoOn nofun nofun fun _ _ _ _ _ => ⟨nofun, nofun⟩
    · rw [heq]
      exact .start _ hgoOn nofun nofun fun _ _ _ _ _ => ⟨nofun, nofun⟩
    · rw [heq]
      refine .start _ hgoOn nofun (fun started hstarted => ?_) fun _ _ _ _ _ => ⟨nofun, nofun⟩
      exact ⟨(Job.plugins.inj hstarted).symm, profile, candidate, haction, hstarts⟩
  · rcases hjob : w.jobs[place]? with - | job
    · have hstep : step w event = w := by
        rw [step, haction]
        simp only [hjob]
      rw [hstep]
      exact .idle place results haction hjob
    · have hstep : step w event =
          { run := (job.next event.env results w.run).1
            jobs := w.jobs.set place (job.next event.env results w.run).2
            indexed := w.indexed ++ job.indexes w.run } := by
        rw [step, haction]
        simp only [hjob]
      have hmove := JobMove.goOn place results job haction hjob (by rw [hstep]) (by rw [hstep])
      rwa [hstep]

/-- What is indexed was there, or comes from the job that goes on. -/
theorem mem_step_indexed {entry : Indexing} (h : entry ∈ (step w event).indexed) :
    entry ∈ w.indexed ∨ ∃ job ∈ w.jobs, entry ∈ job.indexes w.run := by
  rw [step] at h
  split at h
  · split_ifs at h
    · split at h
      · exact .inl h
      · exact .inl h
    · exact .inl h
  · exact .inl h
  · exact .inl h
  · split at h
    · exact .inl h
    · next job hjob =>
        exact (List.mem_append.1 h).imp_right fun hentry =>
          ⟨job, List.mem_of_getElem? hjob, hentry⟩

end

end Kairon.Experimental

/-
Kairon/Memory/Ended.lean

Whether a finished experimental run stays finished.

`cancel_run` and `finalise_run` write the status without looking at it.  The checks
that are missing there are the condition `Orderly`: who cancels or finalises looks at
the status first, no canary job comes to a run that is past its canary unless one of
the returns of `run_experimental_canary` catches it, and a canary job that is at work
when the run ends is not left to report.  `finished_of_orderly` says that nothing
else is needed.
-/
import Kairon.Lib.Trace
import Kairon.Memory.Moves

namespace Kairon.Experimental

/-! ### Finished runs -/

/-- The statuses after which a run can only be deleted. -/
def finishedStatuses : List RunStatus :=
  [.cancelled, .canaryFailed, .completedUntrusted, .partialUntrusted, .failedUntrusted]

/-- What becomes of a status that is to stay. -/
def RunStatus.HoldsTo (before after : RunStatus) : Prop :=
  (before = .deleted → after = .deleted) ∧
    (before ∈ finishedStatuses → after = before ∨ after = .deleted)

/-- The run has left its canary behind, or will never come to it. -/
def RunStatus.PastCanary (status : RunStatus) : Prop :=
  status ∉ [.candidateUnavailable, .acknowledgementRequired, .canaryQueued, .canaryRunning]

namespace RunStatus

variable {first second third : RunStatus}

theorem HoldsTo.refl (status : RunStatus) : status.HoldsTo status := ⟨id, fun _ => .inl rfl⟩

theorem HoldsTo.trans (h : first.HoldsTo second) (h' : second.HoldsTo third) :
    first.HoldsTo third := by
  refine ⟨fun hdeleted => h'.1 (h.1 hdeleted), fun hfinished => ?_⟩
  rcases h.2 hfinished with rfl | hdeleted
  · exact h'.2 hfinished
  · exact .inr (h'.1 hdeleted)

/-- Nothing is asked of a status that is neither deleted nor finished. -/
theorem HoldsTo.of_open (h : first ∉ .deleted :: finishedStatuses) : first.HoldsTo second :=
  ⟨fun hdeleted => absurd (hdeleted ▸ List.mem_cons_self) h,
    fun hfinished => absurd (.tail _ hfinished) h⟩

theorem HoldsTo.deleted (h : first ∈ finishedStatuses ∨ first ∉ .deleted :: finishedStatuses) :
    first.HoldsTo .deleted := by
  rcases h with hfinished | hopen
  · exact ⟨fun _ => rfl, fun _ => .inr rfl⟩
  · exact .of_open hopen

/-- A status of which only others than `second` are to stay may become `second`. -/
theorem HoldsTo.of_mem (h : first ∈ .deleted :: finishedStatuses → first = second) :
    first.HoldsTo second := by
  by_cases hmem : first ∈ .deleted :: finishedStatuses
  · rw [h hmem]
    exact .refl _
  · exact .of_open hmem

end RunStatus

/-! ### Events that leave finished runs alone -/

/-- The checks that the source leaves out. -/
def Orderly (w : World) (event : Event) : Prop :=
  match event.action with
  | .call (.cancel _ _) => event.env.enabled ∧ event.env.inScope →
      w.run.status ∈ .deleted :: finishedStatuses → w.run.status = .cancelled
  | .call (.finalize outcome) => event.env.enabled →
      w.run.status ∈ .deleted :: finishedStatuses → w.run.status = outcome.status
  | .call _ => True
  | .deliverCanary _ => w.run.status.PastCanary → event.env.enabled ∧
      (w.run.status ∈ [.canaryPassed, .canaryDegraded, .canaryInconclusive, .canaryFailed] ∨
        w.run.deletedAt.isSome)
  | .deliverProfile _ _ => True
  | .goOn place _ =>
    (w.jobs[place]? = some .canaryPlugins →
      w.run.status ∈ .deleted :: finishedStatuses → w.run.status = .cancelled) ∧
    ∀ verdict, w.jobs[place]? = some (.canarySettle verdict) →
      w.run.status ∉ .deleted :: finishedStatuses

section

variable {w : World} {event : Event}

/-- An orderly event cancels no finished run but a cancelled one. -/
theorem cancels_orderly (h : Orderly w event) (hcancels : Cancels w event)
    (hmem : w.run.status ∈ .deleted :: finishedStatuses) : w.run.status = .cancelled := by
  rw [Orderly] at h
  rw [Cancels] at hcancels
  rcases haction : event.action with call | candidate | ⟨profile, candidate⟩ | ⟨place, results⟩
  · rw [haction] at h hcancels
    obtain ⟨hadmitted, actor, reason, rfl⟩ := hcancels
    exact h (by simpa [Call.admitted] using hadmitted) hmem
  · rw [haction] at h hcancels
    -- a run that is finished is past its canary
    have hpast : w.run.status.PastCanary := by
      intro hearly
      revert hmem hearly
      generalize w.run.status = status
      cases status <;> simp [finishedStatuses]
    obtain ⟨henabled, hkept⟩ := h hpast
    rcases hcancels with hoff | ⟨houtcome, hopen, -⟩
    · rw [henabled] at hoff
      cases hoff
    · rcases hkept with hmem' | hdeleted
      · exact absurd hmem' houtcome
      · rw [hopen] at hdeleted
        cases hdeleted
  · rw [haction] at hcancels
    exact hcancels.elim
  · rw [haction] at h hcancels
    obtain ⟨job, hjob, rfl, -⟩ := hcancels
    exact h.1 hjob hmem

/-- **An orderly event leaves a finished run as it is, or deletes it.** -/
theorem holdsTo_step (h : Orderly w event) : w.run.status.HoldsTo (step w event).run.status := by
  have hmove := step_move w event
  generalize (step w event).run = row at hmove ⊢
  -- a check of the status that only lets open runs through
  have hopen : ∀ {statuses : List RunStatus} {after : RunStatus}, w.run.status ∈ statuses →
      (∀ status ∈ statuses, status ∉ .deleted :: finishedStatuses) → w.run.status.HoldsTo after :=
    fun hmem hall => .of_open (hall _ hmem)
  cases hmove with
  | stay => exact .refl _
  | acknowledge actor hstatus => exact .refl _
  | startCanary hack hstatus => exact hopen hstatus (by decide)
  | markCanary hstatus => exact hopen (List.mem_singleton.2 hstatus) (by decide)
  | persist place results haction hjob hstatus => exact hopen hstatus (by decide)
  | settle verdict place results haction hjob =>
    rw [Orderly, haction] at h
    exact .of_open (h.2 verdict hjob)
  | override actor reason hstatus => exact hopen hstatus (by decide)
  | queue hstatus =>
    refine hopen (List.mem_pair.2 (hstatus.imp_right And.left)) (by decide)
  | markRunning hstatus => exact hopen (List.mem_singleton.2 hstatus) (by decide)
  | count loaded increment => exact .refl _
  | reconcile outcome hstatus => exact hopen hstatus (by decide)
  | finalize outcome hcall henabled =>
    rw [Orderly, hcall] at h
    exact .of_mem (h henabled)
  | cancel actor reason hcancels => exact .of_mem (cancels_orderly h hcancels)
  | delete actor reason hstatus =>
    refine .deleted ?_
    revert hstatus
    generalize w.run.status = status
    cases status <;> simp [finishedStatuses]

/-- A canary job that comes late does nothing. -/
theorem lateCanary_step {candidate : Except String Unit} (h : Orderly w event)
    (haction : event.action = .deliverCanary candidate) (hpast : w.run.status.PastCanary) :
    (step w event).run = w.run := by
  have hkept := h
  rw [Orderly, haction] at hkept
  obtain ⟨henabled, hcaught⟩ := hkept hpast
  rw [step, haction]
  show (runExperimentalCanary event.env candidate w.run).1 = w.run
  unfold runExperimentalCanary
  rw [if_neg (not_not.2 henabled)]
  by_cases houtcome : w.run.status ∈
      [.canaryPassed, .canaryDegraded, .canaryInconclusive, .canaryFailed]
  · rw [if_pos houtcome]
  · rw [if_neg houtcome, if_pos (hcaught.resolve_left houtcome)]

end

/-! ### Runs of the system -/

/-- A finished run is only deleted from then on, and a deleted one stays deleted. -/
def StaysFinished (w : World) (events : List Event) : Prop :=
  Trace.Keeps step (fun before after => before.run.status.HoldsTo after.run.status) w events

/-- A canary job that is delivered to a run past its canary changes nothing. -/
def LateCanariesIdle (w : World) (events : List Event) : Prop :=
  Trace.Meets step (fun w event => ∀ candidate, event.action = .deliverCanary candidate →
    w.run.status.PastCanary → (step w event).run = w.run) w events

/-- In a run whose events are all orderly, whatever their order and however often a
job is delivered, finished runs stay finished and late canary jobs do nothing. -/
theorem finished_of_orderly (requestedProfiles : List Profile) (events : List Event)
    (h : Trace.Meets step Orderly (created requestedProfiles) events) :
    StaysFinished (created requestedProfiles) events ∧
      LateCanariesIdle (created requestedProfiles) events := by
  constructor
  · refine Trace.keeps_of_step (fun w => .refl _) (fun _ _ _ hfirst hsecond => hfirst.trans hsecond)
      (fun w event horderly => ?_) h
    exact holdsTo_step horderly
  · exact h.mono fun w event horderly _ haction hpast => lateCanary_step horderly haction hpast

/-! ### A deleted run that comes back -/

/-- The analyst cancels and deletes a run while its canary is at work; then the canary's
plugins end. -/
def cancelledCanary : List Event :=
  [.enabled 1 (.call (.acknowledge ⟨.ok (), .ok "server"⟩)), .enabled 2 (.call .startCanary),
    .enabled 3 (.deliverCanary (.ok ())),
    .enabled 4 (.call (.cancel "analyst" "wrong symbols")),
    .enabled 5 (.call (.delete "analyst" "wrong symbols")),
    .enabled 6 (.goOn 0 {})]

/-- The canary job finds the deleted run out of its canary and cancels it. -/
theorem deleted_run_cancelled :
    ¬ ∀ requestedProfiles events, StaysFinished (created requestedProfiles) events ∧
      LateCanariesIdle (created requestedProfiles) events := by
  intro h
  have hkeeps := (h [] cancelledCanary).1 (cancelledCanary.take 5) (cancelledCanary.drop 5) [] rfl
  exact absurd (hkeeps.1 (by decide)) (by decide)

/-- The same run, where the canary's plugins end before the run is cancelled. -/
def patientCanary : List Event :=
  [.enabled 1 (.call (.acknowledge ⟨.ok (), .ok "server"⟩)), .enabled 2 (.call .startCanary),
    .enabled 3 (.deliverCanary (.ok ())),
    .enabled 4 (.goOn 0 { verdict := .degraded }),
    .enabled 5 (.goOn 0 {}),
    .enabled 6 (.deliverCanary (.ok ())),
    .enabled 7 (.call (.cancel "analyst" "degraded")),
    .enabled 8 (.call (.delete "analyst" "degraded"))]

theorem patientCanary_finished :
    StaysFinished (created []) patientCanary ∧ LateCanariesIdle (created []) patientCanary := by
  refine finished_of_orderly [] patientCanary ?_
  rw [patientCanary]
  simp only [Trace.meets_cons]
  refine ⟨trivial, trivial, fun hpast => absurd (by decide) hpast, ?_, ?_, ?_, ?_, trivial,
    Trace.meets_nil⟩
  · exact ⟨fun _ hmem => absurd hmem (by decide), fun verdict hjob => by cases hjob⟩
  · exact ⟨fun hjob => (by cases hjob), fun verdict _ => by decide⟩
  · exact fun _ => ⟨rfl, .inl (by decide)⟩
  · exact fun _ hmem => absurd hmem (by decide)

end Kairon.Experimental

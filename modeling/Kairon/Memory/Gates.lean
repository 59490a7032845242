/-
Kairon/Memory/Gates.lean

Whether an experimental run can get past its acknowledgement and its canary.

`GateInv` ties the status to what has been recorded: a run in its canary has been
acknowledged, an outcome in the status is the outcome in the row, and a run that went
on has both.  The status is written after the outcome, in a commit of its own, so the
invariant also speaks of the canary job between the two; that there is only one such
job follows from `mark_canary_running`, which takes the run out of the states in which
a canary may start (`canaries`).

`WorkInv` follows the profile jobs: one that started in its turn indexes in its turn
unless the run is cancelled in between.

`Guarded` are the checks that the source leaves out.
-/
import Kairon.Lib.Trace
import Kairon.Memory.Moves

namespace Kairon.Experimental

/-! ### The gates -/

/-- The statuses of a full run that is queued, at work or over. -/
def fullStatuses : List RunStatus :=
  [.fullRunQueued, .fullRunRunning, .completedUntrusted, .partialUntrusted, .failedUntrusted]

/-- The statuses from the start of the canary to its outcome. -/
def canaryStatuses : List RunStatus :=
  [.canaryQueued, .canaryRunning, .canaryPassed, .canaryDegraded, .canaryInconclusive,
    .canaryFailed]

/-- The statuses in which a canary may start. -/
def earlyStatuses : List RunStatus := [.acknowledgementRequired, .canaryQueued]

/-- The acknowledgement is recorded, and the canary has passed, or was degraded and an
override is recorded. -/
def MemoryExperimentalRun.Gated (run : MemoryExperimentalRun) : Prop :=
  run.acknowledgementAt.isSome ∧
    (run.canaryStatus = .passed ∨ run.canaryStatus = .degraded ∧ run.canaryOverrideAt.isSome)

instance (run : MemoryExperimentalRun) : Decidable run.Gated :=
  inferInstanceAs (Decidable (_ ∧ (_ ∨ _ ∧ _)))

/-- The status with which a profile job started that has not indexed its documents. -/
def Job.working : Job → Option RunStatus
  | .plugins started => some started
  | .index started _ _ _ => some started
  | _ => none

/-- An analysis goes on, or has ended, only behind its gates; documents come from jobs
that started in their turn, and not into a cancelled run. -/
structure World.Safe (w : World) : Prop where
  gated : w.run.status ∈ fullStatuses → w.run.Gated
  indexed : ∀ entry ∈ w.indexed,
    entry.started ∈ [.fullRunQueued, .fullRunRunning] ∧ entry.status ≠ .cancelled

/-- The checks that the source leaves out: `finalize` looks at the gates, a profile job
that starts its plugins looks at the status, and the run is not cancelled while a
profile job is at work. -/
structure Guarded (w : World) (event : Event) : Prop where
  finalize : ∀ outcome, event.action = .call (.finalize outcome) → event.env.enabled → w.run.Gated
  start : ∀ profile candidate, event.action = .deliverProfile profile candidate →
    ProfileStarts event.env profile candidate w.run →
      w.run.status ∈ [.fullRunQueued, .fullRunRunning]
  cancel : Cancels w event → ∀ job ∈ w.jobs, job.working = none

/-! ### One canary job -/

theorem eq_of_countP_le_one {α : Type} {p : α → Bool} {l : List α} (h : l.countP p ≤ 1)
    {i j : ℕ} {a b : α} (ha : l[i]? = some a) (hb : l[j]? = some b) (hpa : p a = true)
    (hpb : p b = true) : i = j := by
  induction l generalizing i j with
  | nil => cases ha
  | cons c l ih =>
    have hpos : ∀ {k : ℕ} {d : α}, l[k]? = some d → p d = true → 0 < l.countP p :=
      fun hk hd => List.countP_pos_iff.2 ⟨_, List.mem_of_getElem? hk, hd⟩
    rw [List.countP_cons] at h
    rcases i with - | i <;> rcases j with - | j
    · rfl
    · obtain rfl := Option.some.inj ha
      have := hpos hb hpb
      rw [if_pos hpa] at h
      omega
    · obtain rfl := Option.some.inj hb
      have := hpos ha hpa
      rw [if_pos hpb] at h
      omega
    · exact congrArg (· + 1) (ih (by omega) ha hb)

/-- A run that is not waiting for its canary does not come to wait for it. -/
theorem early_of_step {w : World} {event : Event}
    (h : (step w event).run.status ∈ earlyStatuses) : w.run.status ∈ earlyStatuses := by
  have hmove := step_move w event
  generalize (step w event).run = row at hmove h
  cases hmove with
  | stay => exact h
  | acknowledge actor hstatus => exact h
  | startCanary hack hstatus => exact hstatus
  | persist place results haction hjob hstatus => rwa [persistCanaryResult_status] at h
  | settle verdict place results haction hjob => cases verdict <;> simp [earlyStatuses, Verdict.status] at h
  | override actor reason hstatus =>
    dsimp only at h
    split_ifs at h <;> simp [earlyStatuses] at h
  | count loaded increment => exact h
  | reconcile outcome hstatus => cases outcome <;> simp [earlyStatuses, RunOutcome.status] at h
  | finalize outcome hcall henabled =>
    cases outcome <;> simp [earlyStatuses, RunOutcome.status] at h
  | _ => simp [earlyStatuses] at h

/-- What the canary has found is only rewritten where it is persisted, and before a
canary has started. -/
theorem canaryStatus_of_step (w : World) (event : Event) :
    (step w event).run.canaryStatus = w.run.canaryStatus ∨ w.run.status ∈ earlyStatuses ∨
      ∃ place results, event.action = .goOn place results ∧ w.jobs[place]? = some .canaryPlugins ∧
          (step w event).run = persistCanaryResult event.env results.verdict w.run := by
  have hmove := step_move w event
  generalize (step w event).run = row at hmove ⊢
  cases hmove with
  | startCanary hack hstatus => exact .inr (.inl hstatus)
  | markCanary hstatus => exact .inr (.inl (by rw [hstatus]; decide))
  | persist place results haction hjob hstatus =>
    exact .inr (.inr ⟨place, results, haction, hjob, rfl⟩)
  | _ => exact .inl rfl

/-- At most one canary job is at work, and none as long as a canary may still start. -/
def OneCanary (w : World) : Prop :=
  w.jobs.countP Job.isCanary + (if w.run.status ∈ earlyStatuses then 1 else 0) ≤ 1

section

variable {w : World} {event : Event}

variable {run : MemoryExperimentalRun}

variable {results : PluginResults}

theorem next_isCanary {env : Env}
    {job : Job} (h : (job.next env results run).2.isCanary = true) : job.isCanary = true := by
  cases job with
  | canaryPlugins => rfl
  | canarySettle verdict => rfl
  | _ => cases h

theorem oneCanary_step (h : OneCanary w) : OneCanary (step w event) := by
  have hearly : (if (step w event).run.status ∈ earlyStatuses then 1 else 0) ≤
      (if w.run.status ∈ earlyStatuses then 1 else 0) := by
    split_ifs with hafter hbefore
    · exact le_rfl
    · exact absurd (early_of_step hafter) hbefore
    · exact Nat.zero_le _
    · exact le_rfl
  have hjobs := step_jobs w event
  rw [OneCanary] at h ⊢
  generalize (step w event).jobs = jobs at hjobs
  cases hjobs with
  | same call haction => omega
  | idle place results haction hjob => omega
  | start job hgoOn hcanary hprofile hfresh =>
    rw [List.countP_append, List.countP_singleton]
    by_cases hjob : job.isCanary = true
    · -- the canary starts, and none can start any more
      have hplugins : job = .canaryPlugins := by
        cases job with
        | canaryPlugins => rfl
        | canarySettle verdict => exact absurd rfl (hfresh verdict .deleted {} 0 false).1
        | _ => cases hjob
      obtain ⟨hstatus, hrun⟩ := markCanaryRunning_ok (hcanary hplugins)
      rw [if_pos hjob, hrun, if_neg (by simp [earlyStatuses])]
      rw [if_pos (by rw [hstatus]; decide)] at h
      omega
    · rw [if_neg hjob]
      omega
  | goOn place results job haction hjob hrun hindexed =>
    obtain ⟨hlt, hget⟩ := List.getElem?_eq_some_iff.1 hjob
    rw [List.countP_set hlt, hget]
    by_cases hnext : (job.next event.env results w.run).2.isCanary = true
    · rw [if_pos hnext, if_pos (next_isCanary hnext)]
      have hpos : 0 < w.jobs.countP Job.isCanary :=
        List.countP_pos_iff.2 ⟨job, List.mem_of_getElem? hjob, next_isCanary hnext⟩
      omega
    · rw [if_neg hnext]
      omega

/-! ### The invariant of the gates -/

/-- What the row says of the way to its status. -/
structure RowInv (run : MemoryExperimentalRun) : Prop where
  acknowledged : run.status ∈ canaryStatuses → run.acknowledgementAt.isSome
  passed : run.status = .canaryPassed → run.canaryStatus = .passed
  degraded : run.status = .canaryDegraded → run.canaryStatus = .degraded
  gated : run.status ∈ fullStatuses → run.Gated

structure GateInv (w : World) : Prop extends RowInv w.run where
  canaries : OneCanary w
  waiting : ∀ job ∈ w.jobs, job.isCanary = true → w.run.acknowledgementAt.isSome
  settles : ∀ verdict, .canarySettle verdict ∈ w.jobs → w.run.canaryStatus = verdict.canaryStatus

namespace RowInv

variable {run : MemoryExperimentalRun}

/-- Nothing is asked of a run that is neither in its canary nor past it. -/
theorem of_other (h : run.status ∉ canaryStatuses ++ fullStatuses) : RowInv run where
  acknowledged hmem := absurd (List.mem_append_left _ hmem) h
  passed heq := absurd (by rw [heq]; decide) h
  degraded heq := absurd (by rw [heq]; decide) h
  gated hmem := absurd (List.mem_append_right _ hmem) h

theorem of_full (h : run.status ∈ fullStatuses) (hgated : run.Gated) : RowInv run where
  acknowledged _ := hgated.1
  passed heq := absurd h (by rw [heq]; decide)
  degraded heq := absurd h (by rw [heq]; decide)
  gated _ := hgated

theorem of_canary (h : run.status ∈ canaryStatuses) (hack : run.acknowledgementAt.isSome)
    (hpassed : run.status = .canaryPassed → run.canaryStatus = .passed)
    (hdegraded : run.status = .canaryDegraded → run.canaryStatus = .degraded) : RowInv run where
  acknowledged _ := hack
  passed := hpassed
  degraded := hdegraded
  gated hfull := by
    revert h hfull
    generalize run.status = status
    cases status <;> simp [canaryStatuses, fullStatuses]

end RowInv

/-- Where a canary job is at work, none can start. -/
theorem GateInv.not_early (h : GateInv w) {job : Job} (hjob : job ∈ w.jobs)
    (hcanary : job.isCanary = true) : w.run.status ∉ earlyStatuses := by
  intro hearly
  have hone := h.canaries
  rw [OneCanary, if_pos hearly] at hone
  have hpos : 0 < w.jobs.countP Job.isCanary := List.countP_pos_iff.2 ⟨job, hjob, hcanary⟩
  omega

/-- A recorded acknowledgement stays. -/
theorem acknowledged_step (h : w.run.acknowledgementAt.isSome) :
    (step w event).run.acknowledgementAt.isSome := by
  have hmove := step_move w event
  generalize (step w event).run = row at hmove ⊢
  cases hmove with
  | acknowledge actor hstatus => rfl
  | persist place results haction hjob hstatus =>
    rwa [persistCanaryResult_acknowledgementAt]
  | _ => exact h

/-- A canary job that is at work after an event was at work before, or starts with it. -/
theorem waiting_step (h : GateInv w) {job : Job} (hjob : job ∈ (step w event).jobs)
    (hcanary : job.isCanary = true) : (step w event).run.acknowledgementAt.isSome := by
  refine acknowledged_step ?_
  have hjobs := step_jobs w event
  generalize (step w event).jobs = jobs at hjobs hjob
  cases hjobs with
  | same call haction | idle place results haction hnone => exact h.waiting job hjob hcanary
  | start fresh hgoOn hstart hprofile hfresh =>
    rcases List.mem_append.1 hjob with hold | hnew
    · exact h.waiting job hold hcanary
    · obtain rfl := List.mem_singleton.1 hnew
      have hplugins : job = .canaryPlugins := by
        cases job with
        | canaryPlugins => rfl
        | canarySettle verdict => exact absurd rfl (hfresh verdict .deleted {} 0 false).1
        | _ => cases hcanary
      obtain ⟨hstatus, -⟩ := markCanaryRunning_ok (hstart hplugins)
      exact h.acknowledged (by rw [hstatus]; decide)
  | goOn place results moved haction hmoved hrun hindexed =>
    rcases List.mem_or_eq_of_mem_set hjob with hold | rfl
    · exact h.waiting job hold hcanary
    · exact h.waiting moved (List.mem_of_getElem? hmoved) (next_isCanary hcanary)

/-- The outcome of the canary that is about to be written is the one in the row. -/
theorem settles_step (h : GateInv w) {verdict : Verdict}
    (hjob : .canarySettle verdict ∈ (step w event).jobs) :
    (step w event).run.canaryStatus = verdict.canaryStatus := by
  -- a job that was there before: the row still says what it found
  have hold : ∀ k, w.jobs[k]? = some (.canarySettle verdict) →
      (∀ place results, event.action = .goOn place results → place ≠ k) →
        (step w event).run.canaryStatus = verdict.canaryStatus := by
    intro k hk hother
    have hmem : Job.canarySettle verdict ∈ w.jobs := List.mem_of_getElem? hk
    rcases canaryStatus_of_step w event with hsame | hearly | ⟨place, results, haction, hplugins, -⟩
    · rw [hsame]
      exact h.settles verdict hmem
    · exact absurd hearly (h.not_early hmem rfl)
    · have hone : w.jobs.countP Job.isCanary ≤ 1 :=
        (Nat.le_add_right _ _).trans h.canaries
      exact absurd (eq_of_countP_le_one hone hplugins hk rfl rfl) (hother place results haction)
  have hjobs := step_jobs w event
  generalize hafter : (step w event).jobs = jobs at hjobs hjob
  cases hjobs with
  | same call haction =>
    obtain ⟨k, hk⟩ := List.mem_iff_getElem?.1 hjob
    exact hold k hk fun place results hgoOn => by rw [haction] at hgoOn; cases hgoOn
  | idle place results haction hnone =>
    obtain ⟨k, hk⟩ := List.mem_iff_getElem?.1 hjob
    refine hold k hk fun place' results' hgoOn hplace => ?_
    rw [haction] at hgoOn
    obtain ⟨rfl, -⟩ := Action.goOn.inj hgoOn
    rw [hplace, hk] at hnone
    cases hnone
  | start fresh hgoOn hstart hprofile hfresh =>
    rcases List.mem_append.1 hjob with hmem | hnew
    · obtain ⟨k, hk⟩ := List.mem_iff_getElem?.1 hmem
      exact hold k hk fun place results haction => absurd haction (hgoOn place results)
    · exact absurd (List.mem_singleton.1 hnew).symm (hfresh verdict .deleted {} 0 false).1
  | goOn place results moved haction hmoved hrun hindexed =>
    obtain ⟨k, hk⟩ := List.mem_iff_getElem?.1 hjob
    by_cases hplace : place = k
    · subst hplace
      obtain ⟨hlt, -⟩ := List.getElem?_eq_some_iff.1 hmoved
      rw [List.getElem?_set_self hlt] at hk
      have hnext := Option.some.inj hk
      -- only the job whose plugins have ended comes to its report
      cases moved with
      | canaryPlugins =>
        rw [Job.next] at hnext hrun
        rcases hfinalize : finalizeCanary event.env results.verdict w.run with
          error | persisted
        · rw [hfinalize] at hnext
          cases hnext
        · rw [hfinalize] at hnext hrun
          obtain ⟨-, rfl⟩ := finalizeCanary_ok hfinalize
          rw [hrun, ← Job.canarySettle.inj hnext]
          exact persistCanaryResult_canaryStatus _ _ _
      | _ => cases hnext
    · rw [List.getElem?_set_ne hplace] at hk
      refine hold k hk fun place' results' hgoOn => ?_
      rw [haction] at hgoOn
      obtain ⟨rfl, -⟩ := Action.goOn.inj hgoOn
      exact hplace

/-- The status that an event leaves is backed by what is in the row. -/
theorem rowInv_step (h : GateInv w) (hfinalize : ∀ outcome,
      event.action = .call (.finalize outcome) → event.env.enabled → w.run.Gated) :
    RowInv (step w event).run := by
  have hmove := step_move w event
  generalize (step w event).run = row at hmove ⊢
  cases hmove with
  | stay => exact h.toRowInv
  | acknowledge actor hstatus => exact .of_other (by rw [hstatus]; decide)
  | startCanary hack hstatus => exact .of_canary (by simp [canaryStatuses]) hack nofun nofun
  | markCanary hstatus =>
    have hack := h.acknowledged (by rw [hstatus]; decide)
    exact .of_canary (by simp [canaryStatuses]) hack nofun nofun
  | persist place results haction hjob hstatus =>
    have hopen : ∀ status, status ∉ [RunStatus.canaryRunning, .canaryQueued] →
        w.run.status ≠ status := fun status hnot heq => hnot (heq ▸ hstatus)
    refine .of_canary ?_ ?_ ?_ ?_
    · rw [persistCanaryResult_status]
      rcases List.mem_pair.1 hstatus with heq | heq <;> rw [heq] <;> decide
    · rw [persistCanaryResult_acknowledgementAt]
      exact h.waiting _ (List.mem_of_getElem? hjob) rfl
    · rw [persistCanaryResult_status]
      exact fun heq => absurd heq (hopen _ (by decide))
    · rw [persistCanaryResult_status]
      exact fun heq => absurd heq (hopen _ (by decide))
  | settle verdict place results haction hjob =>
    have hmem : Job.canarySettle verdict ∈ w.jobs := List.mem_of_getElem? hjob
    have hsettles := h.settles verdict hmem
    refine .of_canary ?_ (h.waiting _ hmem rfl) (fun hpassed => ?_) fun hdegraded => ?_
    · rw [settleCanary_status]
      cases verdict <;> decide
    · rw [settleCanary_canaryStatus, hsettles]
      cases verdict with
      | passed => rfl
      | _ => cases hpassed
    · rw [settleCanary_canaryStatus, hsettles]
      cases verdict with
      | degraded => rfl
      | _ => cases hdegraded
  | override actor reason hstatus =>
    have hack : w.run.acknowledgementAt.isSome := by
      refine h.acknowledged ?_
      rcases List.mem_pair.1 hstatus with heq | heq <;> rw [heq] <;> decide
    by_cases hdegraded : w.run.canaryStatus = .degraded
    · refine .of_canary ?_ hack (fun hpassed => ?_) fun _ => hdegraded
      · rw [if_pos hdegraded]
        simp [canaryStatuses]
      · rw [if_pos hdegraded] at hpassed
        cases hpassed
    · refine .of_canary ?_ hack (fun hpassed => ?_) fun hback => ?_
      · rw [if_neg hdegraded]
        simp [canaryStatuses]
      · rw [if_neg hdegraded] at hpassed
        cases hpassed
      · rw [if_neg hdegraded] at hback
        cases hback
  | queue hstatus =>
    refine .of_full (by simp [fullStatuses]) ?_
    rcases hstatus with hpassed | ⟨hdegraded, hoverride⟩
    · exact ⟨h.acknowledged (by rw [hpassed]; decide), .inl (h.passed hpassed)⟩
    · exact ⟨h.acknowledged (by rw [hdegraded]; decide), .inr ⟨h.degraded hdegraded, hoverride⟩⟩
  | markRunning hstatus =>
    exact .of_full (by simp [fullStatuses]) (h.gated (by rw [hstatus]; decide))
  | count loaded increment =>
    exact ⟨h.acknowledged, h.passed, h.degraded, h.gated⟩
  | reconcile outcome hstatus =>
    refine .of_full ?_ (h.gated ?_)
    · cases outcome <;> simp [fullStatuses, RunOutcome.status]
    · rcases List.mem_pair.1 hstatus with heq | heq <;> rw [heq] <;> decide
  | finalize outcome hcall henabled =>
    refine .of_full ?_ (hfinalize outcome hcall henabled)
    cases outcome <;> simp [fullStatuses, RunOutcome.status]
  | cancel actor reason hcancels => exact .of_other (by simp [canaryStatuses, fullStatuses])
  | delete actor reason hstatus => exact .of_other (by simp [canaryStatuses, fullStatuses])

/-- **The gates hold after an event if `finalize` looks at them.** -/
theorem gateInv_step (h : GateInv w) (hfinalize : ∀ outcome,
      event.action = .call (.finalize outcome) → event.env.enabled → w.run.Gated) :
    GateInv (step w event) := by
  have hwaiting := fun job => @waiting_step w event h job
  have hsettles := fun verdict => @settles_step w event h verdict
  exact ⟨rowInv_step h hfinalize, oneCanary_step h.canaries, hwaiting, hsettles⟩

/-! ### The profile jobs -/

/-- The profile jobs at work have started in their turn, and their run is not cancelled. -/
structure WorkInv (w : World) : Prop where
  working : ∀ job ∈ w.jobs, ∀ started, job.working = some started →
    started ∈ [.fullRunQueued, .fullRunRunning] ∧ w.run.status ≠ .cancelled
  indexed : ∀ entry ∈ w.indexed,
    entry.started ∈ [.fullRunQueued, .fullRunRunning] ∧ entry.status ≠ .cancelled

/-- No other event leaves the run cancelled. -/
theorem cancelled_of_step (h : (step w event).run.status = .cancelled) :
    w.run.status = .cancelled ∨ Cancels w event := by
  have hmove := step_move w event
  generalize (step w event).run = row at hmove h
  cases hmove with
  | stay => exact .inl h
  | acknowledge actor hstatus => exact .inl h
  | persist place results haction hjob hstatus =>
    rw [persistCanaryResult_status] at h
    exact .inl h
  | settle verdict place results haction hjob => cases verdict <;> cases h
  | override actor reason hstatus =>
    dsimp only at h
    split_ifs at h
  | count loaded increment => exact .inl h
  | reconcile outcome hstatus | finalize outcome hcall henabled => cases outcome <;> cases h
  | cancel actor reason hcancels => exact .inr hcancels
  | _ => cases h

theorem next_working {env : Env}
    {job : Job} {started : RunStatus} (h : (job.next env results run).2.working = some started) :
    job.working = some started := by
  cases job with
  | canaryPlugins =>
    rw [Job.next] at h
    split at h <;> cases h
  | plugins before => exact h
  | _ => cases h

/-- A job indexes under the status it started with, and for the run as it is. -/
theorem mem_indexes {job : Job} {entry : Indexing} (h : entry ∈ job.indexes run) :
    job.working = some entry.started ∧ entry.status = run.status := by
  cases job with
  | index started loaded documents hadFailure =>
    rw [Job.indexes] at h
    split_ifs at h
    · cases h
    · obtain rfl := List.mem_singleton.1 h
      exact ⟨rfl, rfl⟩
  | _ => cases h

/-- **Profile jobs start and index in their turn if their start is guarded and nothing
cancels the run while they are at work.** -/
theorem workInv_step (h : WorkInv w) (hguarded : Guarded w event) : WorkInv (step w event) := by
  -- a job that was at work before the event is still let through
  have hold : ∀ job ∈ w.jobs, ∀ started, job.working = some started →
      started ∈ [.fullRunQueued, .fullRunRunning] ∧ (step w event).run.status ≠ .cancelled := by
    intro job hjob started hworking
    obtain ⟨hstarted, hrun⟩ := h.working job hjob started hworking
    refine ⟨hstarted, fun hcancelled => ?_⟩
    rcases cancelled_of_step hcancelled with hbefore | hcancels
    · exact hrun hbefore
    · rw [hguarded.cancel hcancels job hjob] at hworking
      cases hworking
  refine ⟨fun job hjob started hworking => ?_, fun entry hentry => ?_⟩
  · have hjobs := step_jobs w event
    generalize hafter : (step w event).jobs = jobs at hjobs hjob
    cases hjobs with
    | same call haction | idle place results haction hnone => exact hold job hjob started hworking
    | start fresh hgoOn hstart hprofile hfresh =>
      rcases List.mem_append.1 hjob with hmem | hnew
      · exact hold job hmem started hworking
      · obtain rfl := List.mem_singleton.1 hnew
        cases job with
        | plugins before =>
          obtain rfl := Option.some.inj hworking
          obtain ⟨rfl, profile, candidate, haction, hstarts⟩ := hprofile before rfl
          have hturn := hguarded.start profile candidate haction hstarts
          refine ⟨hturn, fun hcancelled => ?_⟩
          rcases cancelled_of_step hcancelled with hbefore | hcancels
          · rw [hbefore] at hturn
            exact absurd hturn (by decide)
          · rw [Cancels, haction] at hcancels
            exact hcancels.elim
        | index before loaded documents hadFailure =>
          exact absurd rfl (hfresh .passed before loaded documents hadFailure).2
        | _ => cases hworking
    | goOn place results moved haction hmoved hrun hindexed =>
      rcases List.mem_or_eq_of_mem_set hjob with hmem | rfl
      · exact hold job hmem started hworking
      · exact hold moved (List.mem_of_getElem? hmoved) started (next_working hworking)
  · rcases mem_step_indexed hentry with hbefore | ⟨job, hjob, hnew⟩
    · exact h.indexed entry hbefore
    · obtain ⟨hworking, hstatus⟩ := mem_indexes hnew
      rw [hstatus]
      exact h.working job hjob entry.started hworking

end

/-! ### Runs of the system -/

theorem gateInv_created (requestedProfiles : List Profile) :
    GateInv (created requestedProfiles) where
  toRowInv := .of_other (by simp [created, createRun, canaryStatuses, fullStatuses])
  canaries := Nat.le_refl 1
  waiting := nofun
  settles := nofun

theorem workInv_created (requestedProfiles : List Profile) :
    WorkInv (created requestedProfiles) := ⟨nofun, nofun⟩

/-- In a run whose events are all guarded, whatever their order and however often a job
is delivered, no state shows an analysis that got past its gates. -/
theorem safe_of_guarded (requestedProfiles : List Profile) (events : List Event)
    (h : Trace.Meets step Guarded (created requestedProfiles) events) :
    Trace.Always step World.Safe (created requestedProfiles) events := by
  refine (Trace.always_of_step (P := fun w => GateInv w ∧ WorkInv w) (fun w event hw hguarded => ?_)
    ⟨gateInv_created requestedProfiles, workInv_created requestedProfiles⟩ h).mono
      fun w hw => ⟨hw.1.gated, hw.2.indexed⟩
  exact ⟨gateInv_step hw.1 hguarded.finalize, workInv_step hw.2 hguarded⟩

/-! ### A run behind its gates, and one that never met them -/

/-- From the acknowledgement to the canary's outcome and on to the full run. -/
def passedCanary : List Event :=
  [.enabled 1 (.call (.acknowledge ⟨.ok (), .ok "server"⟩)), .enabled 2 (.call .startCanary),
    .enabled 3 (.deliverCanary (.ok ())),
    .enabled 4 (.goOn 0 { verdict := .passed }),
    .enabled 5 (.goOn 0 {}),
    .enabled 6 (.call .continueRun)]

/-- A profile is delivered to the queued run and indexes two documents. -/
def indexedProfile : List Event :=
  [.enabled 7 (.deliverProfile (some .metadata) (.ok ())), .enabled 8 (.goOn 1 { documents := 2 }),
    .enabled 9 (.goOn 1 {})]

theorem indexedProfile_safe : Trace.Always step World.Safe (created [.metadata])
    (passedCanary ++ indexedProfile) := by
  refine safe_of_guarded [.metadata] (passedCanary ++ indexedProfile) ?_
  rw [passedCanary, indexedProfile]
  simp only [List.cons_append, List.nil_append, Trace.meets_cons]
  refine ⟨⟨nofun, nofun, fun _ => by decide⟩, ⟨nofun, nofun, fun _ => by decide⟩,
    ⟨nofun, nofun, fun _ => by decide⟩, ⟨nofun, nofun, fun _ => by decide⟩,
    ⟨nofun, nofun, fun _ => by decide⟩, ⟨nofun, nofun, fun _ => by decide⟩,
    ⟨nofun, fun _ _ _ _ => by decide, fun hcancels => hcancels.elim⟩, ⟨nofun, nofun, ?_⟩,
    ⟨nofun, nofun, ?_⟩, Trace.meets_nil⟩
  · rintro ⟨job, hjob, rfl, -⟩
    cases hjob
  · rintro ⟨job, hjob, rfl, -⟩
    cases hjob

/-- The same run, cancelled before the worker comes to its profile. -/
example : (Trace.run step (created [.metadata])
    (passedCanary ++ .enabled 6 (.call (.cancel "analyst" "wrong host")) ::
      indexedProfile)).indexed = [⟨.cancelled, .cancelled, 2⟩] := by decide

/-- A run that has only been created is reported as completed. -/
theorem finalized_unacknowledged : ¬ ∀ requestedProfiles events,
      Trace.Always step World.Safe (created requestedProfiles) events := by
  intro h
  have hsafe := h [] [.enabled 1 (.call (.finalize .completedUntrusted))]
    [.enabled 1 (.call (.finalize .completedUntrusted))] [] rfl
  exact absurd (hsafe.gated (by decide)).1 (by decide)

end Kairon.Experimental

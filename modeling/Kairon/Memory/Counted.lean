/-
Kairon/Memory/Counted.lean

Whether the profiles of a full run are all counted.

A profile job adds one to the totals that it loaded before it indexed its documents
and writes the total that has changed.  Each of the two totals is a counter in the
sense of `Kairon.Lib.Tally`: `tallyOf` reads it off the world, and an event of a
profile job reads it, writes it or leaves it (`tallyOf_step`).  So the totals are right
exactly if each job finds the total that it has loaded (`FreshCounts`), and only then
is the run closed: the job that comes last to `_reconcile_run_terminal_state` has to
see all of them (`Going`).
-/
import Kairon.Lib.Tally
import Kairon.Memory.Moves

namespace Kairon.Experimental

/-! ### The two totals -/

/-- The total in which a profile is counted. -/
def ProfileCounts.total (counts : ProfileCounts) (failed : Bool) : ℕ :=
  if failed then counts.profilesFailed else counts.profilesCompleted

/-- The counts to which a job that ends in that way is going to add. -/
def Job.loaded (failed : Bool) : Job → Option ProfileCounts
  | .index _ loaded documents hadFailure =>
    if (hadFailure && documents == 0) = failed then some loaded else none
  | .record loaded ended => if ended = failed then some loaded else none
  | _ => none

/-- A profile job that has not been counted. -/
def Job.isPending : Job → Bool
  | .plugins _ => true
  | .index .. => true
  | .record .. => true
  | _ => false

/-- The job counts a profile that ended in that way as it goes on. -/
def Job.counts (failed : Bool) : Job → Bool
  | .record _ ended => ended == failed
  | _ => false

/-- The event counts a profile that ended in that way. -/
def Counts (failed : Bool) (w : World) (event : Event) : Bool :=
  match event.action with
  | .goOn place _ => w.jobs[place]?.any (Job.counts failed)
  | _ => false

/-- How many profiles end in that way in a run. -/
def ended (failed : Bool) : World → List Event → ℕ
  | _, [] => 0
  | w, event :: events =>
    (if Counts failed w event then 1 else 0) + ended failed (step w event) events

/-- A job that is counted finds the total that it has loaded. -/
def FreshCount (failed : Bool) (w : World) (event : Event) : Prop :=
  ∀ place results loaded, event.action = .goOn place results →
    w.jobs[place]? = some (.record loaded failed) → loaded.total failed = w.run.total failed

/-! ### The events of profile jobs -/

/-- The profile that is delivered. -/
def Event.delivered (event : Event) : Option Profile :=
  match event.action with
  | .deliverProfile profile _ => profile
  | _ => none

/-- A delivery of a profile, or a job that goes on, while the feature is on. -/
def Event.OfProfiles (event : Event) : Prop :=
  event.env.enabled ∧ ((∃ profile candidate, event.action = .deliverProfile (some profile) candidate) ∨
    ∃ place results, event.action = .goOn place results)

section

variable {w : World} {event : Event} {failed : Bool}

variable {results : PluginResults}

theorem step_goOn {place : ℕ} {job : Job}
    (haction : event.action = .goOn place results) (hjob : w.jobs[place]? = some job) :
    step w event =
      { run := (job.next event.env results w.run).1
        jobs := w.jobs.set place (job.next event.env results w.run).2
        indexed := w.indexed ++ job.indexes w.run } := by
  rw [step, haction]
  simp only [hjob]

theorem step_idle {place : ℕ}
    (haction : event.action = .goOn place results) (hjob : w.jobs[place]? = none) :
    step w event = w := by
  rw [step, haction]
  simp only [hjob]

theorem counts_goOn {place : ℕ} {job : Job}
    (haction : event.action = .goOn place results) (hjob : w.jobs[place]? = some job) :
    Counts failed w event = job.counts failed := by
  rw [Counts, haction]
  simp only [hjob, Option.any_some]

theorem counts_idle {place : ℕ}
    (haction : event.action = .goOn place results) (hjob : w.jobs[place]? = none) :
    Counts failed w event = false := by
  rw [Counts, haction]
  simp only [hjob, Option.any_none]

/-- What the profile jobs of a run leave as it is. -/
structure SameSetup (run run' : MemoryExperimentalRun) : Prop where
  deletedAt : run'.deletedAt = run.deletedAt
  canaryStatus : run'.canaryStatus = run.canaryStatus
  requestedProfiles : run'.requestedProfiles = run.requestedProfiles
  profilesQueued : run'.profilesQueued = run.profilesQueued
  profilesCancelled : run'.profilesCancelled = run.profilesCancelled

theorem SameSetup.refl (run : MemoryExperimentalRun) : SameSetup run run := ⟨rfl, rfl, rfl, rfl, rfl⟩

theorem SameSetup.queuedProfiles {run run' : MemoryExperimentalRun} (h : SameSetup run run') :
    queuedProfiles run' = queuedProfiles run := by
  rw [Experimental.queuedProfiles, Experimental.queuedProfiles, h.canaryStatus, h.requestedProfiles]

theorem finaliseRun_setup (env : Env) (outcome : RunOutcome) (run : MemoryExperimentalRun) :
    SameSetup run (finaliseRun env outcome run) := ⟨rfl, rfl, rfl, rfl, rfl⟩

theorem reconcile_setup (env : Env) (run : MemoryExperimentalRun) :
    SameSetup run (reconcileRunTerminalState env run) := by
  rcases reconcileRunTerminalState_cases env run with hsame | ⟨-, outcome, hrow⟩
  · rw [hsame]
    exact .refl run
  · rw [hrow]
    exact finaliseRun_setup env outcome run

theorem reconcile_total (env : Env) (run : MemoryExperimentalRun) (failed : Bool) :
    (reconcileRunTerminalState env run).total failed = run.total failed := by
  rcases reconcileRunTerminalState_cases env run with hsame | ⟨-, outcome, hrow⟩
  · rw [hsame]
  · rw [hrow]
    rfl

/-- What `record_profile_progress` writes of a profile. -/
def increment (ended : Bool) : ProfileCounts :=
  if ended then { profilesFailed := 1 } else { profilesCompleted := 1 }

theorem record_setup (loaded : ProfileCounts) (ended : Bool) (run : MemoryExperimentalRun) :
    SameSetup run (recordProfileProgress loaded (increment ended) run) := by
  cases ended <;> exact ⟨rfl, rfl, rfl, rfl, rfl⟩

theorem record_total_self (loaded : ProfileCounts) (ended : Bool) (run : MemoryExperimentalRun) :
    (recordProfileProgress loaded (increment ended) run).total ended = loaded.total ended + 1 := by
  cases ended <;> rfl

theorem record_total_of_ne (loaded : ProfileCounts) {ended failed : Bool} (h : ended ≠ failed)
    (run : MemoryExperimentalRun) :
    (recordProfileProgress loaded (increment ended) run).total failed = run.total failed := by
  cases ended <;> cases failed <;> first | rfl | exact absurd rfl h

/-- A profile that is delivered moves the run to its full run, at most. -/
theorem start_run (env : Env) (profile : Option Profile) (candidate : Except String Unit)
    (run : MemoryExperimentalRun) :
    (runExperimentalProfile profile candidate env run).1 = run ∨
      run.status = .fullRunQueued ∧ (runExperimentalProfile profile candidate env run).1 =
        { run with status := .fullRunRunning } := by
  rcases runExperimentalProfile_cases env run profile candidate with
    heq | heq | ⟨-, row, heq, rfl | hmark⟩
  · exact .inl (congrArg Prod.fst heq)
  · exact .inl (congrArg Prod.fst heq)
  · exact .inl (congrArg Prod.fst heq)
  · obtain ⟨hstatus, rfl⟩ := markFullRunRunning_ok hmark
    exact .inr ⟨hstatus, congrArg Prod.fst heq⟩

variable {profile : Option Profile} {candidate : Except String Unit}

theorem step_deliver (haction : event.action = .deliverProfile profile candidate) :
    step w event = { w with
      run := (runExperimentalProfile profile candidate event.env w.run).1
      jobs := w.jobs ++ [(runExperimentalProfile profile candidate event.env w.run).2] } := by
  rw [step, haction]

/-! ### Each total is a tally -/

/-- What each job has loaded of a total that it is going to write. -/
def heldOf (failed : Bool) (jobs : List Job) (place : ℕ) : Option ℕ :=
  ((jobs[place]?).bind (Job.loaded failed)).map fun counts => counts.total failed

def tallyOf (failed : Bool) (w : World) (written : ℕ) : Tally ℕ :=
  ⟨w.run.total failed, heldOf failed w.jobs, written⟩

/-- What an event does to a total. -/
def act (failed : Bool) (w : World) (event : Event) : List (Tally.Act ℕ) :=
  match event.action with
  | .deliverProfile profile candidate =>
    match (runExperimentalProfile profile candidate event.env w.run).2 with
    | .record _ ended => if ended = failed then [.read w.jobs.length] else []
    | _ => []
  | .goOn place results => match w.jobs[place]? with
    | some (.plugins _) =>
      if (results.hadFailure && results.documents == 0) = failed then [.read place] else []
    | some (.record _ ended) => if ended = failed then [.write place] else []
    | _ => []
  | _ => []

def acts (failed : Bool) : World → List Event → List (Tally.Act ℕ)
  | _, [] => []
  | w, event :: events => act failed w event ++ acts failed (step w event) events

variable {jobs : List Job}

theorem heldOf_set {place : ℕ} (hlt : place < jobs.length) (job : Job) :
    heldOf failed (jobs.set place job) = Function.update (heldOf failed jobs) place
      ((job.loaded failed).map fun counts => counts.total failed) := by
  funext i
  by_cases hi : i = place
  · rw [hi, Function.update_self, heldOf, List.getElem?_set_self hlt]
    rfl
  · rw [Function.update_of_ne hi, heldOf, List.getElem?_set_ne (Ne.symm hi), heldOf]

theorem heldOf_append (jobs : List Job) (job : Job) :
    heldOf failed (jobs ++ [job]) = Function.update (heldOf failed jobs) jobs.length
      ((job.loaded failed).map fun counts => counts.total failed) := by
  funext i
  by_cases hi : i = jobs.length
  · rw [hi, Function.update_self, heldOf, List.getElem?_concat_length]
    rfl
  · rw [Function.update_of_ne hi, heldOf, heldOf]
    rcases Nat.lt_or_gt_of_ne hi with hlt | hgt
    · rw [List.getElem?_append_left hlt]
    · rw [List.getElem?_eq_none (by simp; omega), List.getElem?_eq_none (by omega)]

theorem heldOf_length (failed : Bool) (jobs : List Job) : heldOf failed jobs jobs.length = none := by
  rw [heldOf, List.getElem?_eq_none le_rfl]
  rfl

theorem heldOf_get {place : ℕ} {job : Job} (h : jobs[place]? = some job) :
    heldOf failed jobs place = (job.loaded failed).map fun counts => counts.total failed := by
  rw [heldOf, h]
  rfl

/-- Replacing a job by one that holds the same changes nothing of what is held. -/
theorem heldOf_set_same {place : ℕ} {job job' : Job}
    (h : jobs[place]? = some job) (hloaded : job'.loaded failed = job.loaded failed) :
    heldOf failed (jobs.set place job') = heldOf failed jobs := by
  obtain ⟨hlt, -⟩ := List.getElem?_eq_some_iff.1 h
  rw [heldOf_set hlt, hloaded, ← heldOf_get h, Function.update_eq_self]

/-- A job that holds nothing is started without a trace. -/
theorem heldOf_append_none {job : Job} (h : job.loaded failed = none) :
    heldOf failed (jobs ++ [job]) = heldOf failed jobs := by
  rw [heldOf_append, h, Option.map_none, ← heldOf_length failed jobs, Function.update_eq_self]

/-- A profile that is delivered reads the total of failures if it cannot start. -/
theorem tallyOf_deliver (written : ℕ) (haction : event.action = .deliverProfile profile candidate) :
    Trace.run Tally.step (tallyOf failed w written) (act failed w event) =
      tallyOf failed (step w event) written := by
  have hrow : (runExperimentalProfile profile candidate event.env w.run).1.total failed =
      w.run.total failed := by
    rcases start_run event.env profile candidate w.run with heq | ⟨-, heq⟩ <;> rw [heq]
  rw [step_deliver haction, act, haction]
  dsimp only
  rw [tallyOf, tallyOf, hrow]
  rcases runExperimentalProfile_cases event.env w.run profile candidate with
    heq | heq | ⟨-, row, heq, -⟩
  · rw [heq, heldOf_append_none rfl]
    rfl
  · rw [heq]
    dsimp only
    split_ifs with hfailed
    · subst hfailed
      rw [heldOf_append]
      rfl
    · have hloaded : (Job.record w.run.toProfileCounts true).loaded failed = none :=
        if_neg hfailed
      rw [heldOf_append_none hloaded]
      rfl
  · rw [heq, heldOf_append_none rfl]
    rfl

/-- A job that goes on reads its total before it indexes and writes it afterwards. -/
theorem tallyOf_goOn {place : ℕ} (written : ℕ) (haction : event.action = .goOn place results) :
    Trace.run Tally.step (tallyOf failed w written) (act failed w event) =
      tallyOf failed (step w event) (written + if Counts failed w event then 1 else 0) := by
  rcases hjob : w.jobs[place]? with - | job
  · rw [step_idle haction hjob, counts_idle haction hjob, act, haction]
    simp only [hjob]
    rfl
  · have hlt : place < w.jobs.length := (List.getElem?_eq_some_iff.1 hjob).1
    -- a job that neither reads nor writes a total
    have hquiet : act failed w event = [] → Counts failed w event = false →
        (job.next event.env results w.run).1.total failed = w.run.total failed →
        (job.next event.env results w.run).2.loaded failed = job.loaded failed →
          Trace.run Tally.step (tallyOf failed w written) (act failed w event) =
            tallyOf failed (step w event)
              (written + if Counts failed w event then 1 else 0) := by
      intro hact hcounts htotal hloaded
      rw [step_goOn haction hjob, hact, hcounts, tallyOf, tallyOf, htotal,
        heldOf_set_same hjob hloaded]
      rfl
    cases job with
    | canaryPlugins =>
      refine hquiet (by rw [act, haction]; simp only [hjob])
        (counts_goOn haction hjob) ?_ ?_
      · rw [Job.next]
        rcases hfinalize : finalizeCanary event.env results.verdict w.run with
          error | persisted
        · rfl
        · obtain ⟨-, rfl⟩ := finalizeCanary_ok hfinalize
          rw [persistCanaryResult]
          split_ifs <;> rfl
      · rw [Job.next]
        split <;> rfl
    | canarySettle verdict =>
      exact hquiet (by rw [act, haction]; simp only [hjob])
        (counts_goOn haction hjob) rfl rfl
    | plugins started =>
      have hcounts : Counts failed w event = false := counts_goOn haction hjob
      have hnext : Job.next event.env results w.run (.plugins started) =
        (w.run, .index started w.run.toProfileCounts results.documents results.hadFailure) := rfl
      rw [step_goOn haction hjob, hcounts, if_neg Bool.false_ne_true, act, haction]
      simp only [hjob]
      rw [tallyOf, tallyOf, hnext]
      by_cases hfailed : (results.hadFailure && results.documents == 0) = failed
      · rw [if_pos hfailed, heldOf_set hlt, Job.loaded, if_pos hfailed]
        rfl
      · have hloaded : (Job.index started w.run.toProfileCounts results.documents
            results.hadFailure).loaded failed = none := if_neg hfailed
        rw [if_neg hfailed, heldOf_set_same hjob hloaded]
        rfl
    | index started loaded documents hadFailure =>
      exact hquiet (by rw [act, haction]; simp only [hjob])
        (counts_goOn haction hjob) rfl rfl
    | record loaded ended =>
      have hnext : Job.next event.env results w.run (.record loaded ended) =
        (recordProfileProgress loaded (increment ended) w.run, .reconcile) := rfl
      have hcounts : Counts failed w event = (ended == failed) := counts_goOn haction hjob
      rw [step_goOn haction hjob, hcounts, hnext, act, haction]
      simp only [hjob]
      rw [tallyOf, tallyOf]
      by_cases hended : ended = failed
      · subst hended
        have hheld : heldOf ended w.jobs place = some (loaded.total ended) := by
          rw [heldOf_get hjob, Job.loaded, if_pos rfl]
          rfl
        rw [if_pos rfl, if_pos (beq_self_eq_true ended), Trace.run_cons, Trace.run_nil,
          Tally.write_eq hheld, record_total_self, heldOf_set hlt]
        rfl
      · have hloaded : Job.reconcile.loaded failed = (Job.record loaded ended).loaded failed :=
          (if_neg hended).symm
        rw [if_neg hended, if_neg (fun h => hended (beq_iff_eq.1 h)), Trace.run_nil,
          record_total_of_ne loaded hended, heldOf_set_same hjob hloaded]
        rfl
    | reconcile =>
      exact hquiet (by rw [act, haction]; simp only [hjob])
        (counts_goOn haction hjob) (reconcile_total _ _ _) rfl
    | done =>
      exact hquiet (by rw [act, haction]; simp only [hjob])
        (counts_goOn haction hjob) rfl rfl

/-- **An event of a profile job does to a total what its acts do to the tally.** -/
theorem tallyOf_step (h : event.OfProfiles) (written : ℕ) :
    Trace.run Tally.step (tallyOf failed w written) (act failed w event) =
      tallyOf failed (step w event) (written + if Counts failed w event then 1 else 0) := by
  obtain ⟨-, ⟨profile, candidate, haction⟩ | ⟨place, results, haction⟩⟩ := h
  · have hcounts : Counts failed w event = false := by rw [Counts, haction]
    rw [hcounts]
    exact tallyOf_deliver written haction
  · exact tallyOf_goOn written haction

variable {events : List Event}

theorem tallyOf_run (failed : Bool) (w : World)
    (h : ∀ event ∈ events, event.OfProfiles) (written : ℕ) :
    Trace.run Tally.step (tallyOf failed w written) (acts failed w events) =
      tallyOf failed (Trace.run step w events) (written + ended failed w events) := by
  induction events generalizing w written with
  | nil => rfl
  | cons event events ih =>
    obtain ⟨hfirst, hrest⟩ := List.forall_mem_cons.1 h
    rw [acts, Trace.run_append, tallyOf_step hfirst, ih _ hrest, Trace.run_cons, ended, add_assoc]

/-- The acts of an event lose nothing exactly if the count is fresh. -/
theorem fresh_act (h : event.OfProfiles) (written : ℕ) :
    Trace.Meets Tally.step Tally.Fresh (tallyOf failed w written) (act failed w event) ↔
      FreshCount failed w event := by
  obtain ⟨-, ⟨profile, candidate, haction⟩ | ⟨place, results, haction⟩⟩ := h
  · refine iff_of_true ?_ fun place results loaded hgoOn => by rw [haction] at hgoOn; cases hgoOn
    have hreads : ∀ a ∈ act failed w event, a = .read w.jobs.length := by
      rw [act, haction]
      dsimp only
      split
      · split_ifs
        · exact fun a ha => List.mem_singleton.1 ha
        · exact nofun
      · exact nofun
    intro before a after heq
    rw [hreads a (by rw [heq]; simp)]
    trivial
  · -- only a job that is to be counted writes
    rcases hjob : w.jobs[place]? with - | job
    · refine iff_of_true ?_ fun place' results' loaded hgoOn hrecord => ?_
      · rw [act, haction]
        simp only [hjob]
        exact Trace.meets_nil
      · rw [haction] at hgoOn
        obtain ⟨rfl, -⟩ := Action.goOn.inj hgoOn
        rw [hjob] at hrecord
        cases hrecord
    · by_cases hrecord : ∃ loaded, job = .record loaded failed
      · obtain ⟨loaded, rfl⟩ := hrecord
        have hheld : heldOf failed w.jobs place = some (loaded.total failed) := by
          rw [heldOf_get hjob, Job.loaded, if_pos rfl]
          rfl
        rw [act, haction]
        simp only [hjob]
        rw [if_true, Trace.meets_cons, and_iff_left Trace.meets_nil]
        refine ⟨fun hfresh place' results' loaded' hgoOn hrecord => ?_, fun hfresh value hvalue => ?_⟩
        · rw [haction] at hgoOn
          obtain ⟨rfl, -⟩ := Action.goOn.inj hgoOn
          obtain ⟨rfl, -⟩ := Job.record.inj (Option.some.inj (hjob.symm.trans hrecord))
          exact hfresh _ hheld
        · obtain rfl := Option.some.inj (hheld.symm.trans hvalue)
          exact hfresh place results loaded haction hjob
      · refine iff_of_true ?_ fun place' results' loaded hgoOn hcounted => ?_
        · rw [act, haction]
          simp only [hjob]
          cases job with
          | plugins started =>
            dsimp only
            split_ifs
            · exact Trace.meets_cons.2 ⟨trivial, Trace.meets_nil⟩
            · exact Trace.meets_nil
          | record loaded ended =>
            have hne : ended ≠ failed := fun heq => hrecord ⟨loaded, by rw [heq]⟩
            dsimp only
            rw [if_neg hne]
            exact Trace.meets_nil
          | _ => exact Trace.meets_nil
        · rw [haction] at hgoOn
          obtain ⟨rfl, -⟩ := Action.goOn.inj hgoOn
          exact absurd ⟨loaded, Option.some.inj (hjob.symm.trans hcounted)⟩ hrecord

theorem fresh_acts (h : ∀ event ∈ events, event.OfProfiles) (written : ℕ) :
    Trace.Meets Tally.step Tally.Fresh (tallyOf failed w written) (acts failed w events) ↔
      Trace.Meets step (FreshCount failed) w events := by
  induction events generalizing w written with
  | nil => exact iff_of_true Trace.meets_nil Trace.meets_nil
  | cons event events ih =>
    obtain ⟨hfirst, hrest⟩ := List.forall_mem_cons.1 h
    rw [acts, Trace.meets_append, fresh_act hfirst, tallyOf_step hfirst, ih hrest, Trace.meets_cons]

/-- **A total counts every profile that ends in its way exactly if each count is
fresh**; and it never counts more. -/
theorem total_eq_ended_iff (failed : Bool) (h : ∀ event ∈ events, event.OfProfiles)
    (hidle : ∀ job ∈ w.jobs, job = .done) (hzero : w.run.total failed = 0) :
    (Trace.run step w events).run.total failed ≤ ended failed w events ∧
      ((Trace.run step w events).run.total failed = ended failed w events ↔
        Trace.Meets step (FreshCount failed) w events) := by
  have hnone : ∀ place, heldOf failed w.jobs place = none := by
    intro place
    rcases hjob : w.jobs[place]? with - | job
    · rw [heldOf, hjob]
      rfl
    · rw [heldOf_get hjob, hidle job (List.mem_of_getElem? hjob)]
      rfl
  have hbounded : (tallyOf failed w 0).Bounded := by
    refine ⟨hzero.le, fun place value hvalue => ?_, fun place value hvalue => ?_⟩ <;>
      exact absurd ((hnone place).symm.trans hvalue) nofun
  have hrun := tallyOf_run failed w h 0
  have hvalue : (Trace.run step w events).run.total failed =
      (Trace.run Tally.step (tallyOf failed w 0) (acts failed w events)).value := by rw [hrun]; rfl
  have hwritten : ended failed w events =
      (Trace.run Tally.step (tallyOf failed w 0) (acts failed w events)).written := by
    rw [hrun, tallyOf, Nat.zero_add]
  rw [hvalue, hwritten]
  exact ⟨(Tally.bounded_run hbounded _).value,
    (Tally.value_eq_written_iff hbounded hzero _).trans (fresh_acts h 0)⟩

/-! ### Every profile is counted once -/

/-- How many profile jobs have not been counted. -/
def World.pending (w : World) : ℕ := w.jobs.countP Job.isPending

/-- The jobs of a full run: none is a canary, and the run can start its profiles. -/
structure Ready (profiles : List Profile) (w : World) : Prop where
  noCanary : ∀ job ∈ w.jobs, job.isCanary = false
  live : w.run.deletedAt = none
  queued : queuedProfiles w.run = profiles

/-- A job that is no canary leaves the row prepared, and is none further on. -/
theorem next_ready (env : Env) (results : PluginResults) (run : MemoryExperimentalRun) {job : Job}
    (h : job.isCanary = false) :
    SameSetup run (job.next env results run).1 ∧ (job.next env results run).2.isCanary = false := by
  cases job with
  | canaryPlugins => cases h
  | canarySettle verdict => cases h
  | record loaded ended => exact ⟨record_setup loaded ended run, rfl⟩
  | reconcile => exact ⟨reconcile_setup env run, rfl⟩
  | _ => exact ⟨.refl run, rfl⟩

variable {run : MemoryExperimentalRun}

theorem mem_queuedProfiles {profile : Profile} : profile ∈ queuedProfiles run ↔
      profile ∈ allowedProfilesForCanaryOutcome run.canaryStatus ∧
        profile ∈ run.requestedProfiles := by
  rw [queuedProfiles, List.mem_filter, decide_eq_true_eq]

/-- A queued profile that is delivered has a job to count it. -/
theorem start_pending {env : Env} {profile : Profile} (hlive : run.deletedAt = none)
    (henabled : env.enabled) (hqueued : profile ∈ queuedProfiles run) :
    (runExperimentalProfile (some profile) candidate env run).2.isPending = true ∧
      (runExperimentalProfile (some profile) candidate env run).2.isCanary = false := by
  obtain ⟨hallowed, hrequested⟩ := mem_queuedProfiles.1 hqueued
  unfold runExperimentalProfile
  rw [if_neg (by rw [hlive]; simp), if_neg (not_not.2 henabled)]
  dsimp only
  rw [if_neg (by rw [not_or, not_not, not_not]; exact ⟨hallowed, hrequested⟩)]
  rcases candidate with reason | ⟨⟩
  · exact ⟨rfl, rfl⟩
  · dsimp only
    split <;> exact ⟨rfl, rfl⟩

theorem start_setup (env : Env) (profile : Option Profile) (candidate : Except String Unit)
    (run : MemoryExperimentalRun) :
    SameSetup run (runExperimentalProfile profile candidate env run).1 := by
  rcases start_run env profile candidate run with heq | ⟨-, heq⟩ <;> rw [heq]
  · exact .refl run
  · exact ⟨rfl, rfl, rfl, rfl, rfl⟩

/-- The event is one of the jobs of a run that queued these profiles. -/
def Event.Due (profiles : List Profile) (event : Event) : Prop :=
  event.OfProfiles ∧ ∀ profile, event.delivered = some profile → profile ∈ profiles

variable {profiles : List Profile}

theorem ready_step (h : Ready profiles w) (hdue : event.Due profiles) :
    Ready profiles (step w event) ∧ SameSetup w.run (step w event).run := by
  obtain ⟨⟨henabled, ⟨profile, candidate, haction⟩ | ⟨place, results, haction⟩⟩, hmem⟩ := hdue
  · have hqueued : profile ∈ queuedProfiles w.run := by
      rw [h.queued]
      exact hmem profile (by rw [Event.delivered, haction])
    have hsetup := start_setup event.env (some profile) candidate w.run
    rw [step_deliver haction]
    refine ⟨⟨fun job hjob => ?_, hsetup.deletedAt.trans h.live,
      hsetup.queuedProfiles.trans h.queued⟩, hsetup⟩
    rcases List.mem_append.1 hjob with hold | hnew
    · exact h.noCanary job hold
    · rw [List.mem_singleton.1 hnew]
      exact (start_pending h.live henabled hqueued).2
  · rcases hjob : w.jobs[place]? with - | job
    · rw [step_idle haction hjob]
      exact ⟨h, .refl w.run⟩
    · obtain ⟨hsetup, hnext⟩ := next_ready event.env results w.run
        (h.noCanary job (List.mem_of_getElem? hjob))
      rw [step_goOn haction hjob]
      refine ⟨⟨fun other hother => ?_, hsetup.deletedAt.trans h.live,
        hsetup.queuedProfiles.trans h.queued⟩, hsetup⟩
      rcases List.mem_or_eq_of_mem_set hother with hold | rfl
      · exact h.noCanary other hold
      · exact hnext

/-- One for an event that delivers a profile. -/
def Event.deliveries (event : Event) : ℕ := if event.delivered.isSome then 1 else 0

/-- **Each profile is pending from its delivery until it is counted, in one way or the
other.** -/
theorem pending_step (h : Ready profiles w) (hdue : event.Due profiles) :
    (step w event).pending + ((if Counts false w event then 1 else 0) +
      if Counts true w event then 1 else 0) = w.pending + event.deliveries := by
  obtain ⟨⟨henabled, ⟨profile, candidate, haction⟩ | ⟨place, results, haction⟩⟩, hmem⟩ := hdue
  · have hqueued : profile ∈ queuedProfiles w.run := by
      rw [h.queued]
      exact hmem profile (by rw [Event.delivered, haction])
    have hcounts : ∀ failed, Counts failed w event = false := by
      intro failed
      rw [Counts, haction]
    have hdelivered : event.deliveries = 1 := by
      rw [Event.deliveries, Event.delivered, haction]
      rfl
    rw [hcounts, hcounts, hdelivered, step_deliver haction, World.pending, World.pending,
      List.countP_append, List.countP_singleton,
      if_pos (start_pending h.live henabled hqueued).1]
    rfl
  · have hdelivered : event.deliveries = 0 := by
      rw [Event.deliveries, Event.delivered, haction]
      rfl
    rcases hjob : w.jobs[place]? with - | job
    · rw [counts_idle haction hjob, counts_idle haction hjob, hdelivered, step_idle haction hjob]
      rfl
    · obtain ⟨hlt, hget⟩ := List.getElem?_eq_some_iff.1 hjob
      rw [counts_goOn haction hjob, counts_goOn haction hjob, hdelivered,
        step_goOn haction hjob, World.pending, World.pending, List.countP_set hlt, hget]
      have hpos : job.isPending = true → 0 < w.jobs.countP Job.isPending := fun hpending =>
        List.countP_pos_iff.2 ⟨job, List.mem_of_getElem? hjob, hpending⟩
      cases job with
      | canaryPlugins => exact absurd (h.noCanary _ (List.mem_of_getElem? hjob)) nofun
      | record loaded ended =>
        have := hpos rfl
        cases ended <;> simp [Job.next, Job.isPending, Job.counts] <;> omega
      | plugins started | index started loaded documents hadFailure =>
        have := hpos rfl
        simp [Job.next, Job.isPending, Job.counts]
        omega
      | _ => simp [Job.next, Job.isPending, Job.counts]

/-- How many profiles have been delivered. -/
def deliveries (events : List Event) : ℕ := (events.map Event.deliveries).sum

theorem pending_run (h : Ready profiles w) (hdue : ∀ event ∈ events, event.Due profiles) :
    (Trace.run step w events).pending + (ended false w events + ended true w events) =
      w.pending + deliveries events := by
  induction events generalizing w with
  | nil => rfl
  | cons event events ih =>
    obtain ⟨hfirst, hrest⟩ := List.forall_mem_cons.1 hdue
    have hstep := pending_step h hfirst
    have htail := ih (ready_step h hfirst).1 hrest
    rw [deliveries] at htail
    rw [Trace.run_cons, ended, ended, deliveries, List.map_cons, List.sum_cons]
    omega

/-! ### The terminal status -/

/-- The status that the outcomes of the profiles dictate. -/
def dictated (completed failed : ℕ) : RunStatus :=
  if completed = 0 then .failedUntrusted
  else if failed > 0 then .partialUntrusted
  else .completedUntrusted

/-- A full run of `n` profiles of which some have been counted: the row has counted them,
and it is closed, or still open; if all are counted, some job comes to close it. -/
structure Going (n : ℕ) (w : World) (c f : ℕ) : Prop where
  completed : w.run.profilesCompleted = c
  failed : w.run.profilesFailed = f
  cancelled : w.run.profilesCancelled = 0
  queued : w.run.profilesQueued = n
  status : (w.run.status ∈ [.fullRunRunning, .fullRunQueued] ∧ (c + f = n → .reconcile ∈ w.jobs)) ∨
    (c + f = n ∧ w.run.status = dictated c f)

/-- `_reconcile_run_terminal_state` closes an open run of which all profiles are counted,
as their outcomes dictate. -/
theorem reconcile_status {env : Env} (hopen : run.status ∈ [.fullRunRunning, .fullRunQueued])
    (hcancelled : run.profilesCancelled = 0) :
    (reconcileRunTerminalState env run).status =
      if run.profilesCompleted + run.profilesFailed < run.profilesQueued then run.status
      else dictated run.profilesCompleted run.profilesFailed := by
  rw [reconcileRunTerminalState, if_neg (not_not.2 hopen), hcancelled, Nat.add_zero, dictated]
  split_ifs <;> first | rfl | omega

theorem reconcile_closed {env : Env} (h : run.status ∉ [.fullRunRunning, .fullRunQueued]) :
    reconcileRunTerminalState env run = run := by
  rw [reconcileRunTerminalState, if_pos h]

theorem dictated_closed (completed failed : ℕ) :
    dictated completed failed ∉ [.fullRunRunning, .fullRunQueued] := by
  rw [dictated]
  split_ifs <;> decide

/-- A run that is not counted out is open. -/
theorem Going.open {n c f : ℕ} (h : Going n w c f) (hlt : c + f < n) :
    w.run.status ∈ [.fullRunRunning, .fullRunQueued] := by
  rcases h.status with ⟨hopen, -⟩ | ⟨hall, -⟩
  · exact hopen
  · exact absurd hall hlt.ne

theorem mem_set_of_ne {α : Type} {l : List α} {i : ℕ} {a b c : α} (ha : a ∈ l)
    (hb : l[i]? = some b) (hne : b ≠ a) : a ∈ l.set i c := by
  obtain ⟨k, hk⟩ := List.mem_iff_getElem?.1 ha
  have hik : i ≠ k := by
    rintro rfl
    exact hne (Option.some.inj (hb.symm.trans hk))
  exact List.mem_iff_getElem?.2 ⟨k, by rw [List.getElem?_set_ne hik, hk]⟩

/-- A job that does not touch the row, and does not close it, leaves the run going. -/
theorem Going.of_same {n c f : ℕ} {w' : World} (h : Going n w c f) (hrun : w'.run = w.run)
    (hjobs : .reconcile ∈ w.jobs → .reconcile ∈ w'.jobs) : Going n w' c f := by
  obtain ⟨hcompleted, hfailed, hcancelled, hqueued, hstatus⟩ := h
  rw [← hrun] at hcompleted hfailed hcancelled hqueued hstatus
  refine ⟨hcompleted, hfailed, hcancelled, hqueued, ?_⟩
  exact hstatus.imp_left fun hopen => ⟨hopen.1, fun hall => hjobs (hopen.2 hall)⟩

theorem going_deliver {n c f : ℕ}
    (h : Going n w c f) (haction : event.action = .deliverProfile profile candidate)
    (hlt : c + f < n) : Going n (step w event) c f := by
  have hopen := h.open hlt
  rw [step_deliver haction]
  obtain ⟨hcompleted, hfailed, hcancelled, hqueued, -⟩ := h
  rcases start_run event.env profile candidate w.run with heq | ⟨-, heq⟩ <;> rw [heq]
  · exact ⟨hcompleted, hfailed, hcancelled, hqueued, .inl ⟨hopen, fun hall => absurd hall hlt.ne⟩⟩
  · refine ⟨hcompleted, hfailed, hcancelled, hqueued, .inl ⟨?_, fun hall => absurd hall hlt.ne⟩⟩
    exact .head _

/-- A fresh count adds one to the total. -/
theorem going_record {n c f : ℕ} {place : ℕ} {loaded : ProfileCounts}
    {failed : Bool} (h : Going n w c f) (haction : event.action = .goOn place results)
    (hjob : w.jobs[place]? = some (.record loaded failed)) (hlt : c + f < n)
    (hfresh : FreshCount failed w event) :
    Going n (step w event) (c + if failed = false then 1 else 0)
      (f + if failed = true then 1 else 0) := by
  have hopen := h.open hlt
  have htotal := hfresh place results loaded haction hjob
  have hmem : Job.reconcile ∈ w.jobs.set place .reconcile := by
    obtain ⟨hplace, -⟩ := List.getElem?_eq_some_iff.1 hjob
    exact List.mem_set hplace _
  rw [step_goOn haction hjob]
  obtain ⟨hcompleted, hfailed, hcancelled, hqueued, -⟩ := h
  cases failed with
  | false =>
    refine ⟨?_, hfailed, hcancelled, hqueued, .inl ⟨hopen, fun _ => hmem⟩⟩
    show loaded.profilesCompleted + 1 = c + 1
    rw [← hcompleted]
    exact congrArg (· + 1) htotal
  | true =>
    refine ⟨hcompleted, ?_, hcancelled, hqueued, .inl ⟨hopen, fun _ => hmem⟩⟩
    show loaded.profilesFailed + 1 = f + 1
    rw [← hfailed]
    exact congrArg (· + 1) htotal

theorem going_reconcile {n c f : ℕ} {place : ℕ} (h : Going n w c f)
    (haction : event.action = .goOn place results)
    (hjob : w.jobs[place]? = some .reconcile) (hle : c + f ≤ n) : Going n (step w event) c f := by
  rw [step_goOn haction hjob]
  have hsetup := reconcile_setup event.env w.run
  have htotals := fun failed => reconcile_total event.env w.run failed
  refine ⟨(htotals false).trans h.completed, (htotals true).trans h.failed,
    hsetup.profilesCancelled.trans h.cancelled, hsetup.profilesQueued.trans h.queued, ?_⟩
  show (reconcileRunTerminalState event.env w.run).status ∈ _ ∧ _ ∨
    _ ∧ (reconcileRunTerminalState event.env w.run).status = _
  rcases h.status with ⟨hopen, -⟩ | ⟨hall, hclosed⟩
  · rw [reconcile_status hopen h.cancelled, h.completed, h.failed, h.queued]
    by_cases hlt : c + f < n
    · rw [if_pos hlt]
      exact .inl ⟨hopen, fun hall => absurd hall hlt.ne⟩
    · rw [if_neg hlt]
      exact .inr ⟨by omega, rfl⟩
  · rw [reconcile_closed (hclosed ▸ dictated_closed c f)]
    exact .inr ⟨hall, hclosed⟩

/-- **The run goes on as long as every count is fresh.** -/
theorem going_step {n c f : ℕ} (hready : Ready profiles w) (hdue : event.Due profiles)
    (h : Going n w c f) (hbound : c + f + w.pending + event.deliveries ≤ n)
    (hfresh : ∀ failed, FreshCount failed w event) :
    Going n (step w event) (c + if Counts false w event then 1 else 0)
      (f + if Counts true w event then 1 else 0) := by
  obtain ⟨⟨henabled, ⟨profile, candidate, haction⟩ | ⟨place, results, haction⟩⟩, hmem⟩ := hdue
  · have hcounts : ∀ failed, Counts failed w event = false := by
      intro failed
      rw [Counts, haction]
    have hdelivered : event.deliveries = 1 := by
      rw [Event.deliveries, Event.delivered, haction]
      rfl
    have hgoing := going_deliver h haction (by omega)
    rw [hcounts, hcounts]
    exact hgoing
  · rcases hjob : w.jobs[place]? with - | job
    · rw [counts_idle haction hjob, counts_idle haction hjob, step_idle haction hjob]
      exact h
    · rw [counts_goOn haction hjob, counts_goOn haction hjob]
      -- a job that neither counts nor closes
      have hother : (job.next event.env results w.run).1 = w.run → job ≠ .reconcile →
          Going n (step w event) c f := by
        intro hrun hne
        rw [step_goOn haction hjob]
        exact h.of_same hrun fun hrec => mem_set_of_ne hrec hjob hne
      cases job with
      | canaryPlugins => exact absurd (hready.noCanary _ (List.mem_of_getElem? hjob)) nofun
      | canarySettle verdict => exact absurd (hready.noCanary _ (List.mem_of_getElem? hjob)) nofun
      | record loaded failed =>
        have hpos : 0 < w.pending :=
          List.countP_pos_iff.2 ⟨_, List.mem_of_getElem? hjob, rfl⟩
        have hgoing := going_record h haction hjob (by omega) (hfresh failed)
        cases failed <;> exact hgoing
      | reconcile =>
        have hgoing := going_reconcile h haction hjob (by omega)
        exact hgoing
      | _ => exact hother rfl nofun

theorem going_run {n c f : ℕ} (hready : Ready profiles w)
    (hdue : ∀ event ∈ events, event.Due profiles) (h : Going n w c f)
    (hbound : c + f + w.pending + deliveries events ≤ n)
    (hfresh : ∀ failed, Trace.Meets step (FreshCount failed) w events) :
    Going n (Trace.run step w events) (c + ended false w events) (f + ended true w events) := by
  induction events generalizing w c f with
  | nil => exact h
  | cons event events ih =>
    obtain ⟨hfirst, hrest⟩ := List.forall_mem_cons.1 hdue
    have hmeets := fun failed => Trace.meets_cons.1 (hfresh failed)
    have hpending := pending_step hready hfirst
    rw [deliveries, List.map_cons, List.sum_cons, ← deliveries] at hbound
    have hgoing := going_step hready hfirst h (by omega) fun failed => (hmeets failed).1
    have htail := ih (ready_step hready hfirst).1 hrest hgoing (by omega)
      fun failed => (hmeets failed).2
    rw [Trace.run_cons, ended, ended, ← add_assoc, ← add_assoc]
    exact htail

end

/-! ### Full runs -/

/-- A full run has just been queued: nothing has been counted, and none of its jobs has
been delivered. -/
structure Queued (w : World) : Prop where
  queued : ∃ before, before.toProfileCounts = {} ∧ before.deletedAt = none ∧
    queueExperimentalFullRun before = .ok w.run
  idle : ∀ job ∈ w.jobs, job = .done

/-- The events are an interleaving of the jobs of the run: each of the profiles that it
queued is delivered once, and all jobs come to their end. -/
structure Interleaving (w : World) (events : List Event) : Prop where
  profiles : ∀ event ∈ events, event.OfProfiles
  once : (events.filterMap Event.delivered).Perm (queuedProfiles w.run)
  finished : ∀ job ∈ (Trace.run step w events).jobs, job = .done

/-- All profiles are counted, and the run is closed as their outcomes dictate. -/
def AllCounted (w : World) (events : List Event) : Prop :=
  (Trace.run step w events).run.profilesCompleted + (Trace.run step w events).run.profilesFailed
      = (queuedProfiles w.run).length ∧
    (Trace.run step w events).run.status = dictated (ended false w events) (ended true w events)

/-- Each job that counts its profile finds the total that it has loaded. -/
def FreshCounts (w : World) (events : List Event) : Prop :=
  Trace.Meets step (fun w event => ∀ failed, FreshCount failed w event) w events

section

variable {w : World} {events : List Event}

theorem Queued.counts (h : Queued w) : w.run.profilesCompleted = 0 ∧ w.run.profilesFailed = 0 ∧
    w.run.profilesCancelled = 0 ∧ w.run.profilesQueued = (queuedProfiles w.run).length ∧
      queuedProfiles w.run ≠ [] ∧ w.run.status = .fullRunQueued ∧ w.run.deletedAt = none := by
  obtain ⟨⟨before, hzero, hlive, hqueue⟩, -⟩ := h
  have hsome : queuedProfiles before ≠ [] := by
    intro hnone
    rw [queueExperimentalFullRun, if_pos hnone] at hqueue
    cases hqueue
  obtain ⟨-, hrun⟩ := queueExperimentalFullRun_ok hqueue
  have hcompleted : before.profilesCompleted = 0 := congrArg ProfileCounts.profilesCompleted hzero
  have hfailed : before.profilesFailed = 0 := congrArg ProfileCounts.profilesFailed hzero
  have hcancelled : before.profilesCancelled = 0 := congrArg ProfileCounts.profilesCancelled hzero
  have hqueued : before.profilesQueued = 0 := congrArg ProfileCounts.profilesQueued hzero
  have hsame : queuedProfiles w.run = queuedProfiles before := by rw [hrun]; rfl
  have hlength : (queuedProfiles before).length ≠ 0 := fun hnil =>
    hsome (List.length_eq_zero_iff.1 hnil)
  rw [hsame, hrun]
  refine ⟨hcompleted, hfailed, hcancelled, ?_, hsome, rfl, hlive⟩
  show (if (queuedProfiles before).length = 0 then before.profilesQueued
    else before.profilesQueued + (queuedProfiles before).length) = _
  rw [if_neg hlength, hqueued, Nat.zero_add]

theorem Queued.ready (h : Queued w) : Ready (queuedProfiles w.run) w :=
  ⟨fun job hjob => by rw [h.idle job hjob]; rfl, h.counts.2.2.2.2.2.2, rfl⟩

theorem pending_of_idle (h : ∀ job ∈ w.jobs, job = .done) : w.pending = 0 := by
  rw [World.pending, List.countP_eq_zero]
  intro job hjob
  rw [h job hjob]
  exact nofun

theorem deliveries_eq (events : List Event) :
    deliveries events = (events.filterMap Event.delivered).length := by
  induction events with
  | nil => rfl
  | cons event events ih =>
    rw [deliveries, List.map_cons, List.sum_cons, ← deliveries, ih, List.filterMap_cons,
      Event.deliveries]
    rcases event.delivered with - | profile
    · exact Nat.zero_add _
    · exact Nat.add_comm 1 _

/-- Each profile of the run ends in one way. -/
theorem ended_add (hqueued : Queued w) (h : Interleaving w events) :
    ended false w events + ended true w events = (queuedProfiles w.run).length := by
  have hdue : ∀ event ∈ events, event.Due (queuedProfiles w.run) := fun event hevent =>
    ⟨h.profiles event hevent, fun profile hprofile =>
      h.once.mem_iff.1 (List.mem_filterMap.2 ⟨event, hevent, hprofile⟩)⟩
  have hrun := pending_run hqueued.ready hdue
  rw [pending_of_idle h.finished, pending_of_idle hqueued.idle, deliveries_eq, h.once.length_eq] at hrun
  omega

/-- In whatever order the jobs of a full run interleave, its profiles are all counted and
it is closed as they dictate exactly if each job that counts its profile finds the total
that it has loaded. -/
theorem allCounted_iff (hqueued : Queued w) (h : Interleaving w events) :
    AllCounted w events ↔ FreshCounts w events := by
  obtain ⟨hcompleted, hfailed, hcancelled, hn, hsome, hstatus, -⟩ := hqueued.counts
  have hsum := ended_add hqueued h
  obtain ⟨hcle, hciff⟩ := total_eq_ended_iff false h.profiles hqueued.idle hcompleted
  obtain ⟨hfle, hfiff⟩ := total_eq_ended_iff true h.profiles hqueued.idle hfailed
  constructor
  · rintro ⟨hall, -⟩ before event after heq failed
    have hboth : (Trace.run step w events).run.total false = ended false w events ∧
        (Trace.run step w events).run.total true = ended true w events := by
      have hall' : (Trace.run step w events).run.total false
          + (Trace.run step w events).run.total true = (queuedProfiles w.run).length := hall
      omega
    cases failed with
    | false => exact hciff.1 hboth.1 before event after heq
    | true => exact hfiff.1 hboth.2 before event after heq
  · intro hfresh
    have hmeets : ∀ failed, Trace.Meets step (FreshCount failed) w events := fun failed =>
      hfresh.mono fun _ _ hall => hall failed
    have hdue : ∀ event ∈ events, event.Due (queuedProfiles w.run) := fun event hevent =>
      ⟨h.profiles event hevent, fun profile hprofile =>
        h.once.mem_iff.1 (List.mem_filterMap.2 ⟨event, hevent, hprofile⟩)⟩
    have hstart : Going (queuedProfiles w.run).length w 0 0 := by
      refine ⟨hcompleted, hfailed, hcancelled, hn, .inl ⟨by rw [hstatus]; decide, fun hnone => ?_⟩⟩
      exact absurd (List.length_eq_zero_iff.1 hnone.symm) hsome
    have hgoing := going_run hqueued.ready hdue hstart (by
      rw [pending_of_idle hqueued.idle, deliveries_eq, h.once.length_eq]; omega) hmeets
    rw [Nat.zero_add, Nat.zero_add] at hgoing
    refine ⟨by rw [hgoing.completed, hgoing.failed, hsum], ?_⟩
    rcases hgoing.status with ⟨-, hrec⟩ | ⟨-, hclosed⟩
    · have hdone := h.finished _ (hrec hsum)
      cases hdone
    · exact hclosed

end

/-! ### Two profiles that end together -/

/-- A degraded canary with its override: the two profiles that it allows. -/
def overridden : MemoryExperimentalRun :=
  { createRun [] with
    status := .canaryDegraded
    acknowledgementAt := some 1
    canaryStatus := .degraded
    canaryOverrideAt := some 2 }

def twoProfiles : World :=
  { run := { overridden with status := .fullRunQueued, profilesQueued := 2 } }

theorem twoProfiles_queued : Queued twoProfiles := ⟨⟨overridden, rfl, rfl, rfl⟩, nofun⟩

/-- Both jobs load the row before either of them writes it. -/
def together : List Event :=
  [.enabled 1 (.deliverProfile (some .metadata) (.ok ())),
    .enabled 2 (.deliverProfile (some .modules) (.ok ())),
    .enabled 3 (.goOn 0 { documents := 5 }),
    .enabled 4 (.goOn 1 { documents := 7 }),
    .enabled 5 (.goOn 0 {}), .enabled 6 (.goOn 0 {}), .enabled 7 (.goOn 0 {}),
    .enabled 8 (.goOn 1 {}), .enabled 9 (.goOn 1 {}), .enabled 10 (.goOn 1 {})]

/-- The second job loads the row when the first has written it. -/
def inTurn : List Event :=
  [.enabled 1 (.deliverProfile (some .metadata) (.ok ())),
    .enabled 2 (.deliverProfile (some .modules) (.ok ())),
    .enabled 3 (.goOn 0 { documents := 5 }), .enabled 5 (.goOn 0 {}), .enabled 6 (.goOn 0 {}),
    .enabled 7 (.goOn 1 { documents := 7 }), .enabled 8 (.goOn 0 {}),
    .enabled 9 (.goOn 1 {}), .enabled 10 (.goOn 1 {}), .enabled 11 (.goOn 1 {})]

/-- The decision whether an event is of a profile job. -/
def Event.isOfProfiles (event : Event) : Bool :=
  event.env.enabled && match event.action with
    | .deliverProfile profile _ => profile.isSome
    | .goOn .. => true
    | _ => false

theorem ofProfiles_of_all {events : List Event} (h : events.all Event.isOfProfiles = true) :
    ∀ event ∈ events, event.OfProfiles := by
  intro event hevent
  have hall := List.all_eq_true.1 h event hevent
  obtain ⟨env, action⟩ := event
  rw [Event.isOfProfiles, Bool.and_eq_true] at hall
  refine ⟨hall.1, ?_⟩
  cases action with
  | deliverProfile profile candidate =>
    obtain ⟨name, rfl⟩ := Option.isSome_iff_exists.1 hall.2
    exact .inl ⟨name, candidate, rfl⟩
  | goOn place results => exact .inr ⟨place, results, rfl⟩
  | _ => cases hall.2

theorem together_interleaving : Interleaving twoProfiles together :=
  ⟨ofProfiles_of_all (by decide), by decide, by decide⟩

theorem inTurn_interleaving : Interleaving twoProfiles inTurn :=
  ⟨ofProfiles_of_all (by decide), by decide, by decide⟩

/-- The jobs end together: one of them is not counted, and the run stays open. -/
theorem together_lost : ¬ ∀ w events, Queued w → Interleaving w events → AllCounted w events := by
  intro h
  have hcounted := h twoProfiles together twoProfiles_queued together_interleaving
  exact absurd hcounted.1 (by decide)

/-- The jobs count in turn: both are counted, so each has found what it had loaded. -/
theorem inTurn_fresh : FreshCounts twoProfiles inTurn :=
  (allCounted_iff twoProfiles_queued inTurn_interleaving).1 ⟨by decide, by decide⟩

end Kairon.Experimental

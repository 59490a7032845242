/-
Kairon/Memory/Finished.lean

Whether a finished batch stays finished.

No function but `advance_batch` touches a finished batch, and `advance_batch`
looks at the profiles of the batch, not at its status.  `Reopens` is the kind of
callback that its guards let through to a finished batch: the run of a profile
that has not been taken into account, where the batch has no current profile or
this one.  `finished_unless_reopened` says that a run of the system without such
a callback leaves every finished batch alone, and that under a clock that goes
forward no other run does.
-/
import Mathlib.Data.List.Pairwise
import Kairon.Memory.Batch

namespace Kairon.Memory

/-! ### What a commit stores -/

variable {batch : MemoryAnalysisBatch}

variable {db db' : Database}

theorem commit_batch {id name : String} (h : db.commit id batch = some db') :
    db'.batch name = if id = name then some batch else db.batch name := by
  rw [Database.commit] at h
  split at h
  · obtain rfl := Option.some.inj h
    exact Dict.get_set id name batch db.batches
  · cases h

theorem commit_batch_of_ne {id name : String}
    (h : db.commit id batch = some db') (hne : id ≠ name) : db'.batch name = db.batch name := by
  rw [commit_batch h, if_neg hne]

theorem batch_congr (h : db'.batches = db.batches) (id : String) : db'.batch id = db.batch id := by
  rw [Database.batch, h, Database.batch]

section

variable (env : Env)

theorem enqueueProfile_batches (batchId : String) (batch : MemoryAnalysisBatch)
    (profile : Profile) (position : ℕ) (db : Database) :
    (enqueueProfile env batchId batch profile position db).1.batches = db.batches := by
  rw [enqueueProfile]
  split
  · rfl
  · split
    · rfl
    · rfl

theorem enqueueProfiles_batches (batchId : String) (batch : MemoryAnalysisBatch)
    (entries : List (Profile × ℕ)) (db : Database) :
    (enqueueProfiles env batchId batch entries db).1.batches = db.batches := by
  induction entries generalizing db with
  | nil => rfl
  | cons entry entries ih =>
    obtain ⟨profile, position⟩ := entry
    have hfirst := enqueueProfile_batches env batchId batch profile position db
    rw [enqueueProfiles]
    rcases henqueue : enqueueProfile env batchId batch profile position db with ⟨db', _ | id⟩
    · rw [henqueue] at hfirst
      exact hfirst
    · rw [henqueue] at hfirst
      exact (ih db').trans hfirst

theorem enqueueProfiles_batch {env : Env} {batchId : String} {batch : MemoryAnalysisBatch}
    {entries : List (Profile × ℕ)} {db added : Database} {result : Except String (List String)}
    (h : enqueueProfiles env batchId batch entries db = (added, result)) (id : String) :
    added.batch id = db.batch id := by
  have hbatches := enqueueProfiles_batches env batchId batch entries db
  rw [h] at hbatches
  exact batch_congr hbatches id

theorem enqueueBatch_batch (batch : MemoryAnalysisBatch) (db : Database) (id : String) :
    (enqueueBatch env batch db).2.1.batch id = db.batch id := by
  rw [enqueueBatch]
  split
  · rfl
  · dsimp only
    split
    · next added ids hrun => exact enqueueProfiles_batch hrun id
    · next added text hrun => exact enqueueProfiles_batch hrun id

end

/-! ### What leaves a finished batch alone -/

section

variable {env : Env} {db : Database} {id : String} {batch : MemoryAnalysisBatch}

/-- A stored batch stays as it is when another is created. -/
theorem createRunAllBatch_batch (request : BatchRequest) (hbatch : db.batch id = some batch) :
    (createRunAllBatch env request db).1.batch id = some batch := by
  rw [createRunAllBatch]
  split
  · exact hbatch
  · next new hadmitted =>
      by_cases hknown : (db.batch env.batchId).isSome
      · rw [if_pos hknown]
        exact hbatch
      · rw [if_neg hknown]
        -- the id of the new batch is not that of a stored one
        have hne : env.batchId ≠ id := by
          rintro rfl
          exact hknown (by rw [hbatch]; rfl)
        rcases hcommit : (enqueueBatch env new db).2.1.commit env.batchId
          (enqueueBatch env new db).1 with - | committed
        · simp only [hcommit]
          exact hbatch
        · simp only [hcommit]
          rw [commit_batch_of_ne hcommit hne, enqueueBatch_batch]
          exact hbatch

theorem cancelBatch_finished (batchId : String) (hbatch : db.batch id = some batch)
    (hfinished : batch.isActive = false) :
    ((cancelBatch batchId db).getD db).batch id = some batch := by
  rw [cancelBatch]
  split
  · exact hbatch
  · next other hother =>
      by_cases hactive : other.isActive
      · rw [if_pos hactive]
        -- an active batch is not the finished one
        have hne : batchId ≠ id := by
          rintro rfl
          obtain rfl := Option.some.inj (hother.symm.trans hbatch)
          rw [hactive] at hfinished
          cases hfinished
        rcases hcommit : db.commit batchId _ with - | db'
        · exact hbatch
        · show db'.batch id = some batch
          rw [commit_batch_of_ne hcommit hne]
          exact hbatch
      · rw [if_neg hactive]
        exact hbatch

variable {summary : Summary}

/-- The result of a commit to another batch, in a reconciliation. -/
theorem orError_batch {outcome : Option (Database × Summary)} (hbatch : db.batch id = some batch)
    (h : ∀ result, outcome = some result → result.1.batch id = some batch) :
    (summary.orError db outcome).1.batch id = some batch := by
  rcases outcome with - | result
  · exact hbatch
  · exact h result rfl

variable {batchId : String} {other : MemoryAnalysisBatch}

theorem commit_other {α : Type}
    {added : Database} {f : Database → Database × α} {result : Database × α}
    (hbatch : added.batch id = some batch) (hne : batchId ≠ id) (hf : ∀ db, (f db).1 = db)
    (h : (added.commit batchId other).map f = some result) :
    result.1.batch id = some batch := by
  obtain ⟨db', hcommit, rfl⟩ := Option.map_eq_some_iff.1 h
  rw [hf, commit_batch_of_ne hcommit hne]
  exact hbatch

theorem reconcileQueued_other (hbatch : db.batch id = some batch) (hne : batchId ≠ id) :
    (reconcileQueued env batchId other db summary).1.batch id = some batch := by
  rw [reconcileQueued]
  split
  · exact orError_batch hbatch fun result => commit_other hbatch hne fun _ => rfl
  · dsimp only
    split
    · next added text hrun =>
        have hadded := (enqueueProfiles_batch hrun id).trans hbatch
        exact orError_batch hbatch fun result => commit_other hadded hne fun _ => rfl
    · next added ids hrun =>
        have hadded := (enqueueProfiles_batch hrun id).trans hbatch
        exact orError_batch hbatch fun result => commit_other hadded hne fun _ => rfl

/-- Advancing a run changes no batch but that of the run. -/
theorem advanceBatch_other {runId : String} {run : MemoryScanRun} {db' : Database}
    (hne : run.batchId ≠ some id) (h : advanceBatch env runId run db = some db') :
    db'.batch id = db.batch id := by
  rw [advanceBatch] at h
  split at h
  · rw [Option.some.inj h]
  · next batchId hid =>
      split at h
      · rw [Option.some.inj h]
      · split at h
        · rw [Option.some.inj h]
        · refine commit_batch_of_ne h ?_
          rintro rfl
          exact hne hid

theorem mem_of_newest {α : Type} {createdAt : α → ℤ} {rows : List α} {row : α}
    (h : newest createdAt rows = some row) : row ∈ rows := by
  induction rows generalizing row with
  | nil => cases h
  | cons first rows ih =>
    rw [newest] at h
    split at h
    · rw [Option.some.inj h]
      exact .head _
    · next other hother =>
        split at h
        · exact .tail _ (ih (hother.trans h))
        · rw [Option.some.inj h]
          exact .head _

theorem currentRun_batchId {profile : Profile} {entry : String × MemoryScanRun}
    (h : currentRun batchId profile db = some entry) : entry.2.batchId = some batchId := by
  have hmem := mem_of_newest h
  have hfilter := (List.mem_filter.1 hmem).2
  rw [Bool.and_eq_true] at hfilter
  exact of_decide_eq_true hfilter.1

theorem reconcileRunning_other (hbatch : db.batch id = some batch) (hne : batchId ≠ id) :
    (reconcileRunning env batchId other db summary).1.batch id = some batch := by
  rw [reconcileRunning]
  split
  · split
    · exact orError_batch hbatch fun result => commit_other hbatch hne fun _ => rfl
    · exact hbatch
  · split
    · exact hbatch
    · next runId run hrun =>
        split
        · exact hbatch
        · refine orError_batch hbatch fun result hresult => ?_
          obtain ⟨db', hdb', rfl⟩ := Option.map_eq_some_iff.1 hresult
          obtain ⟨advanced, hadvance, hset⟩ := Option.bind_eq_some_iff.1 hdb'
          have hrunId : run.batchId ≠ some id := by
            rw [currentRun_batchId hrun]
            exact fun heq => hne (Option.some.inj heq)
          have hadvanced : advanced.batch id = some batch :=
            (advanceBatch_other hrunId hadvance).trans hbatch
          rw [setReconciledAt] at hset
          split at hset
          · rw [← Option.some.inj hset]
            exact hadvanced
          · rw [commit_batch_of_ne hset hne]
            exact hadvanced

theorem reconcileOneBatch_finished (batchId : String)
    (hbatch : db.batch id = some batch) (hfinished : batch.isActive = false) :
    (reconcileOneBatch env (db, summary) batchId).1.batch id = some batch := by
  rw [reconcileOneBatch]
  split
  · exact hbatch
  · next other hother =>
      -- an active batch is not the finished one
      have hne : other.isActive = true → batchId ≠ id := by
        rintro hactive rfl
        obtain rfl := Option.some.inj (hother.symm.trans hbatch)
        rw [hactive] at hfinished
        cases hfinished
      split
      · next hstatus =>
          exact reconcileQueued_other hbatch
            (hne (by rw [MemoryAnalysisBatch.isActive, hstatus]; rfl))
      · next hstatus =>
          exact reconcileRunning_other hbatch
            (hne (by rw [MemoryAnalysisBatch.isActive, hstatus]; rfl))
      · exact hbatch

theorem reconcileMemoryBatches_finished (hbatch : db.batch id = some batch)
    (hfinished : batch.isActive = false) :
    (reconcileMemoryBatches env db).1.batch id = some batch := by
  rw [reconcileMemoryBatches]
  generalize (db.batches.filter fun entry => entry.2.isActive).map Prod.fst = ids
  generalize ({} : Summary) = summary
  induction ids generalizing db summary with
  | nil => exact hbatch
  | cons batchId ids ih =>
    rw [List.foldl_cons]
    have hone : (reconcileOneBatch env (db, summary) batchId).1.batch id = some batch :=
      reconcileOneBatch_finished batchId hbatch hfinished
    exact ih hone _

end

/-! ### Callbacks that reopen a batch -/

namespace MemoryAnalysisBatch

/-- What has to stay of a finished batch. -/
def outcome (batch : MemoryAnalysisBatch) : BatchStatus × Option Profile × Option ℤ :=
  (batch.status, batch.currentProfile, batch.completedAt)

/-- A run after which the batch goes on: neither is it cancelled nor has
`metadata_only` failed, and another requested profile is outstanding. -/
def GoesOn (batch : MemoryAnalysisBatch) (run : MemoryScanRun) : Prop :=
  batch.cancellationRequested = false ∧ ¬ (run.profile = .metadataOnly ∧ run.status.isFailure) ∧
    ∃ profile ∈ batch.requestedProfiles, profile ≠ run.profile ∧ profile ∉ batch.used

end MemoryAnalysisBatch

/-- A callback that a finished batch takes up: the run has ended and is not the
last one advanced, its profile has not been taken into account and is the current
one if there is one, and the index lets the batch become active if it goes on. -/
structure TakenUp (db : Database) (runId : String) (run : MemoryScanRun) (batchId : String)
    (batch : MemoryAnalysisBatch) : Prop where
  stored : db.run runId = some run
  owner : run.batchId = some batchId
  owned : db.batch batchId = some batch
  finished : batch.isActive = false
  terminal : run.status.isTerminal = true
  fresh : batch.lastAdvancedRunId ≠ some runId
  current : ∀ profile, batch.currentProfile = some profile → run.profile = profile
  unused : run.profile ∉ batch.used
  allowed : batch.GoesOn run →
    ∀ entry ∈ db.batches, entry.2.isActiveFor batch.caseId batch.evidenceId = false

/-- The event is a callback that a finished batch takes up. -/
def Reopens (db : Database) (event : Event) : Prop :=
  ∃ runId run batchId batch, event.call = .advanceBatch runId ∧ TakenUp db runId run batchId batch

section

variable {env : Env} {db : Database} {id : String} {batch : MemoryAnalysisBatch}

variable {run : MemoryScanRun}

variable {runId : String}

theorem ignores_eq_false : batch.ignores runId run = false ↔
      batch.lastAdvancedRunId ≠ some runId ∧
      (∀ profile, batch.currentProfile = some profile → run.profile = profile) ∧
      run.profile ∉ batch.used ∧ run.status.isTerminal = true := by
  rw [MemoryAnalysisBatch.ignores]
  simp [Option.any_eq_false, and_assoc]

/-- A batch goes on exactly if a next profile is left. -/
theorem record_requestedProfiles (run : MemoryScanRun) :
    (batch.record run).requestedProfiles = batch.requestedProfiles := by
  rw [MemoryAnalysisBatch.record]
  split
  · rfl
  · rfl

theorem nextProfile_record : (batch.record run).nextProfile ≠ none ↔
      ∃ profile ∈ batch.requestedProfiles, profile ≠ run.profile ∧ profile ∉ batch.used := by
  have hused : ∀ profile, profile ∈ (batch.record run).used ↔
      profile ∈ batch.used ∨ profile = run.profile := by
    intro profile
    rw [MemoryAnalysisBatch.record]
    split
    · simp [MemoryAnalysisBatch.used]
      tauto
    · simp [MemoryAnalysisBatch.used, or_assoc]
  rw [MemoryAnalysisBatch.nextProfile, record_requestedProfiles, Ne, List.find?_eq_none]
  simp only [hused]
  simp [and_comm]

theorem record_cancellationRequested (run : MemoryScanRun) :
    (batch.record run).cancellationRequested = batch.cancellationRequested := by
  rw [MemoryAnalysisBatch.record]
  split
  · rfl
  · rfl

theorem advance_evidence (batch : MemoryAnalysisBatch) (now : ℤ) (runId : String)
    (run : MemoryScanRun) :
    (batch.advance now runId run).caseId = batch.caseId ∧
      (batch.advance now runId run).evidenceId = batch.evidenceId := by
  have hrecord : (batch.record run).caseId = batch.caseId ∧
      (batch.record run).evidenceId = batch.evidenceId := by
    rw [MemoryAnalysisBatch.record]
    split
    · exact ⟨rfl, rfl⟩
    · exact ⟨rfl, rfl⟩
  rw [MemoryAnalysisBatch.advance]
  split
  · exact hrecord
  · split
    · exact hrecord
    · exact hrecord

/-- A batch that goes on is running, whatever it was. -/
theorem advance_status_of_goesOn (h : batch.GoesOn run) (now : ℤ)
    (runId : String) : (batch.advance now runId run).status = .running := by
  obtain ⟨hcancel, hmetadata, hleft⟩ := h
  have hnext := nextProfile_record.2 hleft
  rw [MemoryAnalysisBatch.advance, if_neg hmetadata]
  split
  · next hnone =>
      simp only [record_cancellationRequested, hcancel, Bool.false_eq_true, if_false] at hnone
      exact absurd hnone hnext
  · rfl

theorem close_isActive (now : ℤ) (batch : MemoryAnalysisBatch) :
    (batch.close now).isActive = false := by
  rw [MemoryAnalysisBatch.isActive, MemoryAnalysisBatch.close]
  dsimp only
  split
  · rfl
  · split
    · rfl
    · rfl

/-- A batch that does not go on is closed, now. -/
theorem advance_of_not_goesOn (h : ¬ batch.GoesOn run) (now : ℤ) (runId : String) :
    (batch.advance now runId run).isActive = false ∧
      (batch.advance now runId run).completedAt = some now := by
  rw [MemoryAnalysisBatch.advance]
  split
  · exact ⟨close_isActive now _, rfl⟩
  · next hmetadata =>
      split
      · exact ⟨close_isActive now _, rfl⟩
      · next profile hnext =>
          exfalso
          -- a next profile is only looked for when nothing stops the batch
          rw [record_cancellationRequested] at hnext
          split at hnext
          · cases hnext
          · next hcancel =>
              have hleft : (batch.record run).nextProfile ≠ none := fun hnone => by
                have : some profile = none := hnext.symm.trans hnone
                cases this
              exact h ⟨Bool.eq_false_iff.2 hcancel, hmetadata, nextProfile_record.1 hleft⟩

/-! ### The index -/

theorem commit_batches {db' : Database} (h : db.commit id batch = some db') :
    db'.batches = Dict.set id batch db.batches := by
  rw [Database.commit] at h
  split at h
  · obtain rfl := Option.some.inj h
    rfl
  · cases h

theorem isActiveFor_iff {caseId evidenceId : String} : batch.isActiveFor caseId evidenceId = true ↔
      batch.caseId = caseId ∧ batch.evidenceId = evidenceId ∧ batch.isActive = true := by
  simp [MemoryAnalysisBatch.isActiveFor, and_assoc]

instance : Std.Symm Apart where
  symm first second h := by
    rintro ⟨hsecond, hfirst⟩
    obtain ⟨hcase, hevidence, hactive⟩ := isActiveFor_iff.1 hfirst
    exact h ⟨hactive, isActiveFor_iff.2 ⟨hcase.symm, hevidence.symm, hsecond⟩⟩

/-- The index refuses a second active batch. -/
theorem commit_eq_none {entry : String × MemoryAnalysisBatch} (hentry : entry ∈ db.batches)
    (hne : entry.1 ≠ id) (hactive : batch.isActive = true)
    (hfor : entry.2.isActiveFor batch.caseId batch.evidenceId = true) :
    db.commit id batch = none := by
  rw [Database.commit, dif_neg]
  intro hone
  have hmem : entry ∈ Dict.set id batch db.batches := Dict.mem_set_of_ne hentry hne
  have hpair : (id, batch) ≠ entry := by
    rintro rfl
    exact hne rfl
  exact hone.forall Dict.mem_set hmem hpair ⟨hactive, hfor⟩

/-- A batch that is not active, or alone in being active, is committed. -/
theorem exists_commit (h : batch.isActive = true → ∀ entry ∈ db.batches, entry.1 ≠ id →
      entry.2.isActiveFor batch.caseId batch.evidenceId = false) :
    ∃ db', db.commit id batch = some db' := by
  rw [Database.commit, dif_pos]
  · exact ⟨_, rfl⟩
  · refine Dict.pairwise_set db.batchIds db.oneActive ?_
    rintro entry hentry hne ⟨hactive, hfor⟩
    rw [h hactive entry hentry hne] at hfor
    cases hfor

/-! ### One step -/

theorem advanceBatch_eq {runId batchId : String}
    (howner : run.batchId = some batchId) (howned : db.batch batchId = some batch) :
    advanceBatch env runId run db = if batch.ignores runId run then some db
      else db.commit batchId (batch.advance env.now runId run) := by
  rw [advanceBatch]
  simp only [howner, howned]

/-- A callback that is not taken up leaves a finished batch alone. -/
theorem advanceBatch_finished (hrun : db.run runId = some run) (hbatch : db.batch id = some batch)
    (hfinished : batch.isActive = false) (hnot : ¬ TakenUp db runId run id batch) :
    ((advanceBatch env runId run db).getD db).batch id = some batch := by
  by_cases howner : run.batchId = some id
  · rw [advanceBatch_eq howner hbatch]
    by_cases hignores : batch.ignores runId run = true
    · rw [if_pos hignores]
      exact hbatch
    · rw [if_neg hignores]
      obtain ⟨hfresh, hcurrent, hunused, hterminal⟩ :=
        ignores_eq_false.1 (Bool.eq_false_iff.2 hignores)
      -- the guards let the run through, so it is the index that refuses the batch
      have hrefused : ¬ (batch.GoesOn run →
          ∀ entry ∈ db.batches, entry.2.isActiveFor batch.caseId batch.evidenceId = false) :=
        fun hallowed => hnot
          ⟨hrun, howner, hbatch, hfinished, hterminal, hfresh, hcurrent, hunused, hallowed⟩
      push Not at hrefused
      obtain ⟨hgoes, entry, hentry, hfor⟩ := hrefused
      rw [ne_eq, Bool.not_eq_false] at hfor
      have hne : entry.1 ≠ id := by
        rintro rfl
        have hget : db.batch entry.1 = some entry.2 := Dict.get_of_mem db.batchIds hentry
        obtain rfl := Option.some.inj (hget.symm.trans hbatch)
        rw [(isActiveFor_iff.1 hfor).2.2] at hfinished
        cases hfinished
      have hactive : (batch.advance env.now runId run).isActive = true := by
        rw [MemoryAnalysisBatch.isActive, advance_status_of_goesOn hgoes]
        rfl
      have hevidence := advance_evidence batch env.now runId run
      rw [commit_eq_none hentry hne hactive (by rw [hevidence.1, hevidence.2]; exact hfor)]
      exact hbatch
  · rcases hadvance : advanceBatch env runId run db with - | db'
    · exact hbatch
    · show db'.batch id = some batch
      rw [advanceBatch_other howner hadvance]
      exact hbatch

/-- No event but a callback that is taken up changes a finished batch. -/
theorem step_finished {event : Event} (hbatch : db.batch id = some batch)
    (hfinished : batch.isActive = false) (hnot : ¬ Reopens db event) :
    (step db event).batch id = some batch := by
  obtain ⟨env, call⟩ := event
  cases call with
  | createRunAllBatch request => exact createRunAllBatch_batch request hbatch
  | setRunStatus runId status =>
    rw [step]
    dsimp only
    split
    · exact hbatch
    · exact hbatch
  | advanceBatch runId =>
    rw [step]
    dsimp only
    split
    · exact hbatch
    · next run hrun =>
        exact advanceBatch_finished hrun hbatch hfinished fun htaken =>
          hnot ⟨runId, run, id, batch, rfl, htaken⟩
  | cancelBatch batchId => exact cancelBatch_finished batchId hbatch hfinished
  | reconcileMemoryBatches => exact reconcileMemoryBatches_finished hbatch hfinished

/-- A callback that is taken up changes the outcome of the batch, if it comes
later than the batch was completed. -/
theorem step_reopens {event : Event}
    (hcall : event.call = .advanceBatch runId) (htaken : TakenUp db runId run id batch)
    (hclock : ∀ time, batch.completedAt = some time → time < event.env.now) :
    ∃ after, (step db event).batch id = some after ∧ after.outcome ≠ batch.outcome := by
  obtain ⟨hrun, howner, hbatch, hfinished, hterminal, hfresh, hcurrent, hunused, hallowed⟩ := htaken
  have hignores : batch.ignores runId run = false :=
    ignores_eq_false.2 ⟨hfresh, hcurrent, hunused, hterminal⟩
  have hevidence := advance_evidence batch event.env.now runId run
  obtain ⟨db', hcommit⟩ :
      ∃ db', db.commit id (batch.advance event.env.now runId run) = some db' := by
    apply exists_commit
    intro hactive entry hentry _
    rw [hevidence.1, hevidence.2]
    refine hallowed (by_contra fun hgoes => ?_) entry hentry
    rw [(advance_of_not_goesOn hgoes event.env.now runId).1] at hactive
    cases hactive
  have hstep : step db event = db' := by
    rw [step, hcall]
    simp only [hrun]
    rw [advanceBatch_eq howner hbatch, hignores, if_neg Bool.false_ne_true, hcommit]
    rfl
  refine ⟨batch.advance event.env.now runId run, ?_, ?_⟩
  · rw [hstep, commit_batch hcommit, if_pos rfl]
  · intro heq
    by_cases hgoes : batch.GoesOn run
    · have hstatus : batch.status = .running :=
        (congrArg Prod.fst heq).symm.trans (advance_status_of_goesOn hgoes event.env.now runId)
      rw [MemoryAnalysisBatch.isActive, hstatus] at hfinished
      cases hfinished
    · have htime : batch.completedAt = some event.env.now :=
        (congrArg (fun o => o.2.2) heq).symm.trans
          (advance_of_not_goesOn hgoes event.env.now runId).2
      exact lt_irrefl _ (hclock _ htime)

end

/-! ### Runs -/

/-- Once a batch is finished, its outcome stays. -/
def StaysFinished (db : Database) (events : List Event) : Prop :=
  ∀ before between after, events = before ++ between ++ after →
    ∀ id batch, (runEvents db before).batch id = some batch → batch.isActive = false →
      ∃ later, (runEvents db (before ++ between)).batch id = some later ∧
        later.outcome = batch.outcome

/-- No event of a run is a callback that a finished batch takes up. -/
def NoneReopens (db : Database) (events : List Event) : Prop :=
  ∀ before event after, events = before ++ event :: after → ¬ Reopens (runEvents db before) event

/-- Every event comes later than the times at which batches have been completed. -/
def ClockAdvances (db : Database) (events : List Event) : Prop :=
  ∀ before event after, events = before ++ event :: after →
    ∀ id batch, (runEvents db before).batch id = some batch →
      ∀ time, batch.completedAt = some time → time < event.env.now

theorem runEvents_append (db : Database) (first second : List Event) :
    runEvents db (first ++ second) = runEvents (runEvents db first) second :=
  List.foldl_append

/-- A finished batch is left alone by a run none of whose events reopens one. -/
theorem runEvents_finished {db : Database} {events : List Event} {id : String}
    (hbatch : db.batch id = some batch)
    (hfinished : batch.isActive = false) (h : NoneReopens db events) :
    (runEvents db events).batch id = some batch := by
  induction events generalizing db with
  | nil => exact hbatch
  | cons event events ih =>
    have hstep : (step db event).batch id = some batch :=
      step_finished hbatch hfinished (h [] event events rfl)
    refine ih hstep fun before next after heq => ?_
    exact h (event :: before) next after (congrArg (event :: ·) heq)

/-- A finished batch stays finished exactly in the runs in which no callback of a
profile that is not taken into account reaches it: without one it does, and with
one it does not as long as the clock goes forward. -/
theorem finished_unless_reopened (db : Database) (events : List Event) :
    (NoneReopens db events → StaysFinished db events) ∧
      (ClockAdvances db events → StaysFinished db events → NoneReopens db events) := by
  constructor
  · rintro h before between after rfl id batch hbatch hfinished
    refine ⟨batch, ?_, rfl⟩
    rw [runEvents_append]
    refine runEvents_finished hbatch hfinished fun first event last heq => ?_
    rw [← runEvents_append]
    refine h (before ++ first) event (last ++ after) ?_
    rw [heq]
    simp
  · rintro hclock hstays before event after rfl ⟨runId, run, id, batch, hcall, htaken⟩
    obtain ⟨changed, hchanged, hne⟩ := step_reopens hcall htaken
      (hclock before event after rfl id batch htaken.owned)
    obtain ⟨later, hlater, heq⟩ := hstays before [event] after (by simp) id batch htaken.owned
      htaken.finished
    rw [runEvents_append] at hlater
    obtain rfl := Option.some.inj (hlater.symm.trans hchanged)
    exact hne heq

/-! ### A batch that is reopened -/

def emptyDatabase : Database := ⟨[], [], List.nodup_nil, List.nodup_nil, List.Pairwise.nil⟩

/-- A Windows dump of which three profiles can be run. -/
def windowsDump : Evidence :=
  ⟨true, .other, false, .ok (),
    ⟨.windows, .ready, [.identification, .processes, .processesExtended]⟩⟩

/-- A system with one evidence, at a time. -/
def quietEnv (now : ℤ) : Env where
  now := now
  evidence _ := some windowsDump
  profileUnavailable _ := none
  prepare _ profile :=
    .ok ⟨if profile = .metadataOnly then "m" else if profile = .processesBasic then "p" else "x",
      "c"⟩
  enqueue id := .ok id
  batchId := "b"
  integrityError := ""

/-- Three profiles are enqueued; `metadata_only` fails, which closes the batch. -/
def metadataFails : List Event :=
  [⟨quietEnv 1, .createRunAllBatch ⟨"c", "e", "rerun_all", true⟩⟩,
    ⟨quietEnv 2, .setRunStatus "m" .failed⟩,
    ⟨quietEnv 3, .advanceBatch "m"⟩]

/-- The run of the second profile, in the queue all the time, completes. -/
def processesComplete : List Event :=
  [⟨quietEnv 4, .setRunStatus "p" .completed⟩, ⟨quietEnv 5, .advanceBatch "p"⟩]

/-- The batch that has failed is running again, with the third profile current. -/
theorem failed_batch_runs_again :
    ¬ StaysFinished emptyDatabase (metadataFails ++ processesComplete) := by
  intro h
  have hfailed : ∃ batch, (runEvents emptyDatabase metadataFails).batch "b" = some batch ∧
      batch.outcome = (.failed, none, some 3) := by
    refine ⟨_, rfl, ?_⟩
    rfl
  obtain ⟨batch, hbatch, houtcome⟩ := hfailed
  have hstatus : batch.status = .failed := congrArg Prod.fst houtcome
  obtain ⟨later, hlater, hsame⟩ := h metadataFails processesComplete [] (List.append_nil _).symm
    "b" batch hbatch (by rw [MemoryAnalysisBatch.isActive, hstatus]; rfl)
  have hrunning : ((runEvents emptyDatabase (metadataFails ++ processesComplete)).batch "b").map
      MemoryAnalysisBatch.outcome = some (.running, some .processesExtended, some 3) := by
    decide +kernel
  rw [hlater, Option.map_some, hsame, houtcome] at hrunning
  cases hrunning

end Kairon.Memory

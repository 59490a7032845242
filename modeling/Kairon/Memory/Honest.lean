/-
Kairon/Memory/Honest.lean

Whether the status of a batch tells what has become of it.

A batch that is advanced after its cancellation finds no next profile, and is
closed as if it had run to its end.  The pass that would set `cancelled` looks
for a running batch without a current profile, and there is none (`Waits`).  So
the statuses of a run of the system are honest if and only if no batch is
advanced once its cancellation was requested (`honest_iff`).
-/
import Kairon.Memory.Bookkeeping

namespace Kairon.Memory

/-! ### Honesty -/

/-- A completed batch has completed all its profiles and was not cancelled, and a
batch that was cancelled before its end is cancelled in the end. -/
structure Honest (batch : MemoryAnalysisBatch) : Prop where
  completed : batch.status = .completed →
    (∀ profile ∈ batch.requestedProfiles, profile ∈ batch.completedProfiles) ∧
      batch.cancellationRequested = false
  cancelled : batch.cancellationRequested = true → batch.isActive = false →
    batch.status = .cancelled

/-- An active batch is running, with a current profile that is outstanding. -/
structure Waits (batch : MemoryAnalysisBatch) : Prop where
  notQueued : batch.status ≠ .queued
  outstanding : batch.status = .running →
    ∃ profile ∈ batch.requestedProfiles, batch.currentProfile = some profile ∧ profile ∉ batch.used

/-- The call takes a run into account for the batch: it reports the run, or it is a
reconciliation that finds the run of the current profile ended. -/
structure Reaches (db : Database) (event : Event) (id : String) (batch : MemoryAnalysisBatch)
    (runId : String) (run : MemoryScanRun) : Prop where
  stored : db.batch id = some batch
  owner : run.batchId = some id
  taken : batch.ignores runId run = false
  call : (event.call = .advanceBatch runId ∧ db.run runId = some run) ∨
    (event.call = .reconcileMemoryBatches ∧ batch.status = .running ∧
      ∃ profile, batch.currentProfile = some profile ∧ currentRun id profile db = some (runId, run))

/-- The call advances a batch whose cancellation was requested. -/
def AdvancesCancelled (db : Database) (event : Event) : Prop :=
  ∃ id batch runId run, Reaches db event id batch runId run ∧ batch.cancellationRequested = true

/-- A batch as `create_run_all_batch` commits it. -/
structure New (batch : MemoryAnalysisBatch) : Prop where
  uncancelled : batch.cancellationRequested = false
  unused : batch.used = []
  outcome : (batch.status = .completed ∧ batch.requestedProfiles = []) ∨
    (batch.status = .running ∧ ∃ profile ∈ batch.requestedProfiles,
      batch.currentProfile = some profile) ∨
    batch.status = .failed

/-- What a call can make of the batch that is stored under an id. -/
inductive Change (db : Database) (event : Event) (id : String) : MemoryAnalysisBatch → Prop
  | kept {batch : MemoryAnalysisBatch} (stored : db.batch id = some batch) :
      Change db event id batch
  | created {batch : MemoryAnalysisBatch} (new : New batch) : Change db event id batch
  | cancelled {batch : MemoryAnalysisBatch} (stored : db.batch id = some batch)
      (active : batch.isActive = true) :
      Change db event id { batch with
        cancellationRequested := true
        cancellationReason := some "operator_requested" }
  | advanced {batch : MemoryAnalysisBatch} {runId : String} {run : MemoryScanRun}
      (reaches : Reaches db event id batch runId run) (time : Option ℤ) :
      Change db event id { batch.advance event.env.now runId run with reconciledAt := time }

/-! ### What a callback makes of a batch -/

section

variable {batch : MemoryAnalysisBatch} {run : MemoryScanRun} {runId : String}

theorem close_status (now : ℤ) (batch : MemoryAnalysisBatch) :
    (batch.close now).status ≠ .cancelled ∧
      ((batch.close now).status = .completed → batch.failedProfiles = []) := by
  rw [MemoryAnalysisBatch.close]
  dsimp only
  split
  · exact ⟨by decide, fun h => by cases h⟩
  · split
    · next hnone => exact ⟨by decide, fun _ => hnone⟩
    · exact ⟨by decide, fun h => by cases h⟩

/-- The ways in which `advance` leaves a batch. -/
theorem advance_cases (batch : MemoryAnalysisBatch) (now : ℤ) (runId : String)
    (run : MemoryScanRun) :
    ((batch.advance now runId run).status = .running ∧ batch.cancellationRequested = false ∧
      ∃ profile ∈ batch.requestedProfiles,
        (batch.advance now runId run).currentProfile = some profile ∧
          profile ∉ (batch.advance now runId run).used) ∨
    ((batch.advance now runId run).isActive = false ∧
      (batch.advance now runId run).status ≠ .cancelled ∧
      ((batch.advance now runId run).status = .completed → batch.cancellationRequested = false →
        ∀ profile ∈ batch.requestedProfiles,
          profile ∈ (batch.advance now runId run).completedProfiles)) := by
  obtain ⟨hcompleted, hfailed, hrequested, -, -⟩ := advance_lists batch now runId run
  have hused : (batch.advance now runId run).used = (batch.record run).used := by
    rw [MemoryAnalysisBatch.used, hcompleted, hfailed, MemoryAnalysisBatch.used]
  rw [hused, hcompleted]
  rw [MemoryAnalysisBatch.advance]
  split
  · -- `metadata_only` has failed
    refine .inr ⟨close_isActive now _, (close_status now _).1, fun hstatus => ?_⟩
    rw [MemoryAnalysisBatch.close] at hstatus
    cases hstatus
  · split
    · next hnone =>
        refine .inr ⟨close_isActive now _, (close_status now _).1, fun hstatus hcancel => ?_⟩
        have hfailed : (batch.record run).failedProfiles = [] := (close_status now _).2 hstatus
        simp only [record_cancellationRequested, hcancel, Bool.false_eq_true, if_false] at hnone
        have hnext : (batch.record run).nextProfile = none := hnone
        intro profile hprofile
        rw [← record_requestedProfiles run] at hprofile
        have hmem := List.find?_eq_none.1 hnext profile hprofile
        have hused : profile ∈ (batch.record run).used := by simpa using hmem
        rw [MemoryAnalysisBatch.used, hfailed, List.append_nil] at hused
        exact hused
    · next profile hsome =>
        simp only [record_cancellationRequested] at hsome
        split at hsome
        · cases hsome
        · next hcancel =>
            have hnext : (batch.record run).nextProfile = some profile := hsome
            rw [MemoryAnalysisBatch.nextProfile] at hnext
            refine .inl ⟨rfl, Bool.eq_false_iff.2 hcancel, profile, ?_, rfl, ?_⟩
            · rw [← record_requestedProfiles run]
              exact List.mem_of_find?_eq_some hnext
            · simpa using List.find?_some hnext

end

/-! ### What a call can do -/

section

variable {db : Database} {event : Event} {env : Env} {id : String}

/-- All batches of the database wait. -/
def AllWait (db : Database) : Prop := ∀ id batch, db.batch id = some batch → Waits batch

variable {request : BatchRequest}

theorem enqueueBatch_new {admitted : MemoryAnalysisBatch}
    (h : admitBatch env request db = .ok admitted) : New (enqueueBatch env admitted db).1 := by
  obtain ⟨-, mode, plan, rfl⟩ := admitBatch_ok h
  rw [enqueueBatch]
  split
  · next hnil => exact ⟨rfl, rfl, .inl ⟨rfl, hnil⟩⟩
  · next hne =>
      dsimp only
      split
      · refine ⟨rfl, rfl, .inr (.inl ⟨rfl, ?_⟩)⟩
        obtain ⟨profile, hhead⟩ := Option.ne_none_iff_exists'.1
          (mt List.head?_eq_none_iff.1 hne)
        exact ⟨profile, List.mem_of_mem_head? hhead, hhead⟩
      · exact ⟨rfl, rfl, .inr (.inr rfl)⟩

variable {after : MemoryAnalysisBatch}

theorem createRunAllBatch_change
    (h : (createRunAllBatch event.env request db).1.batch id = some after) :
    Change db event id after := by
  rw [createRunAllBatch] at h
  split at h
  · exact .kept h
  · next admitted hadmitted =>
      split at h
      · exact .kept h
      · dsimp only at h
        split at h
        · next committed hcommit =>
            rw [commit_batch hcommit] at h
            split at h
            · rw [← Option.some.inj h]
              exact .created (enqueueBatch_new hadmitted)
            · rw [enqueueBatch_batch] at h
              exact .kept h
        · exact .kept h

variable {batchId : String}

/-- A commit changes its batch at most. -/
theorem commit_change {batch : MemoryAnalysisBatch}
    (h : ((db.commit batchId batch).getD db).batch id = some after)
    (hnew : batchId = id → Change db event id batch) : Change db event id after := by
  rcases hcommit : db.commit batchId batch with - | db'
  · rw [hcommit] at h
    exact .kept h
  · rw [hcommit, Option.getD_some, commit_batch hcommit] at h
    split at h
    · next heq =>
        rw [← Option.some.inj h]
        exact hnew heq
    · exact .kept h

theorem cancelBatch_change
    (h : ((cancelBatch batchId db).getD db).batch id = some after) : Change db event id after := by
  rw [cancelBatch] at h
  split at h
  · exact .kept h
  · next batch hbatch =>
      split at h
      · next hactive =>
          refine commit_change h ?_
          rintro rfl
          exact .cancelled hbatch hactive
      · exact .kept h

variable {run : MemoryScanRun}

theorem advanceBatch_change {runId : String}
    (hcall : event.call = .advanceBatch runId) (hrun : db.run runId = some run)
    (h : ((advanceBatch event.env runId run db).getD db).batch id = some after) :
    Change db event id after := by
  rw [advanceBatch] at h
  split at h
  · exact .kept h
  · next batchId howner =>
      split at h
      · exact .kept h
      · next batch hbatch =>
          split at h
          · exact .kept h
          · next htaken =>
              refine commit_change h ?_
              rintro rfl
              exact .advanced ⟨hbatch, howner, Bool.eq_false_iff.2 htaken,
                .inl ⟨hcall, hrun⟩⟩ _

/-! ### Reconciliation -/

/-- The batch as a reconciliation leaves it, once advanced. -/
def MemoryAnalysisBatch.reconciled (batch : MemoryAnalysisBatch) (now : ℤ) (runId : String)
    (run : MemoryScanRun) : MemoryAnalysisBatch :=
  { batch.advance now runId run with reconciledAt := some now }

/-- A running batch with a run to be taken into account. -/
structure Due (db : Database) (batchId : String) (batch : MemoryAnalysisBatch) (runId : String)
    (run : MemoryScanRun) : Prop where
  stored : db.batch batchId = some batch
  taken : batch.ignores runId run = false
  running : batch.status = .running
  current : ∃ profile, batch.currentProfile = some profile ∧
    currentRun batchId profile db = some (runId, run)

variable {batch : MemoryAnalysisBatch}

variable {batchId runId : String}

theorem Due.owner (h : Due db batchId batch runId run) : run.batchId = some batchId := by
  obtain ⟨profile, -, hcurrent⟩ := h.current
  exact currentRun_batchId hcurrent

variable {db db' : Database}

theorem currentRun_congr (h : db'.runs = db.runs) (batchId : String)
    (profile : Profile) : currentRun batchId profile db' = currentRun batchId profile db := by
  rw [currentRun, h, currentRun]

theorem currentRun_profile {profile : Profile}
    {entry : String × MemoryScanRun} (h : currentRun batchId profile db = some entry) :
    entry.2.profile = profile := by
  have hfilter := (List.mem_filter.1 (mem_of_newest h)).2
  rw [Bool.and_eq_true] at hfilter
  exact of_decide_eq_true hfilter.2

/-- A batch that is closed can be committed. -/
theorem exists_commit_closed (db : Database) (id : String)
    (h : batch.isActive = false) : ∃ db', db.commit id batch = some db' := by
  refine exists_commit fun hactive => ?_
  rw [h] at hactive
  cases hactive

/-- What a reconciliation makes of a batch. -/
structure Reconciled (env : Env) (db : Database) (batchId : String)
    (after : Option MemoryAnalysisBatch) : Prop where
  cases : after = db.batch batchId ∨ ∃ batch runId run, Due db batchId batch runId run ∧
    after = some (batch.reconciled env.now runId run)
  due : ∀ batch runId run, Due db batchId batch runId run →
    (batch.advance env.now runId run).isActive = false →
    after = some (batch.reconciled env.now runId run)

/-- The pass over one batch, with what it leaves alone. -/
structure Reconciles (env : Env) (db : Database) (batchId : String) (db' : Database) : Prop where
  runs : db'.runs = db.runs
  others : ∀ id, id ≠ batchId → db'.batch id = db.batch id
  own : Reconciled env db batchId (db'.batch batchId)

theorem Reconciles.refl
    (h : ∀ batch runId run, ¬ Due db batchId batch runId run) : Reconciles env db batchId db :=
  ⟨rfl, fun _ _ => rfl, .inl rfl, fun batch runId run hdue => absurd hdue (h batch runId run)⟩

theorem Due.unique {batchId runId runId' : String} {batch batch' : MemoryAnalysisBatch}
    {run run' : MemoryScanRun} (h : Due db batchId batch runId run)
    (h' : Due db batchId batch' runId' run') : batch' = batch ∧ runId' = runId ∧ run' = run := by
  obtain rfl := Option.some.inj (h'.stored.symm.trans h.stored)
  obtain ⟨profile, hcurrent, hrun⟩ := h.current
  obtain ⟨profile', hcurrent', hrun'⟩ := h'.current
  obtain rfl := Option.some.inj (hcurrent.symm.trans hcurrent')
  have hentry := Option.some.inj (hrun'.symm.trans hrun)
  exact ⟨rfl, congrArg Prod.fst hentry, congrArg Prod.snd hentry⟩

/-- What the reconciliation of a batch with a run to be taken into account comes to. -/
theorem Due.reconciles {summary counted : Summary}
    (h : Due db batchId batch runId run) : Reconciles env db batchId (summary.orError db
      (((advanceBatch env runId run db).bind (setReconciledAt env batchId)).map
        fun db => (db, counted))).1 := by
  rw [advanceBatch_eq h.owner h.stored, if_neg (Bool.eq_false_iff.1 h.taken)]
  rcases hcommit : db.commit batchId (batch.advance env.now runId run) with - | advanced
  · refine ⟨rfl, fun _ _ => rfl, .inl rfl, fun batch' runId' run' hdue hclosed => ?_⟩
    obtain ⟨rfl, rfl, rfl⟩ := h.unique hdue
    obtain ⟨db', hdb'⟩ := exists_commit_closed db batchId hclosed
    rw [hcommit] at hdb'
    cases hdb'
  · have hstored : advanced.batch batchId = some (batch.advance env.now runId run) := by
      rw [commit_batch hcommit, if_pos rfl]
    have hset : setReconciledAt env batchId advanced =
        advanced.commit batchId (batch.reconciled env.now runId run) := by
      rw [setReconciledAt, hstored]
      rfl
    rw [Option.bind_some, hset]
    rcases hagain : advanced.commit batchId (batch.reconciled env.now runId run) with - | db'
    · refine ⟨rfl, fun _ _ => rfl, .inl rfl, fun batch' runId' run' hdue hclosed => ?_⟩
      obtain ⟨rfl, rfl, rfl⟩ := h.unique hdue
      have hclosed : (batch'.reconciled env.now runId' run').isActive = false := hclosed
      obtain ⟨db', hdb'⟩ := exists_commit_closed advanced batchId hclosed
      rw [hagain] at hdb'
      cases hdb'
    · have hown : db'.batch batchId = some (batch.reconciled env.now runId run) := by
        rw [commit_batch hagain, if_pos rfl]
      refine ⟨?_, ?_, .inr ⟨batch, runId, run, h, hown⟩, ?_⟩
      · exact (commit_runs hagain).trans (commit_runs hcommit)
      · intro id hne
        show db'.batch id = db.batch id
        rw [commit_batch_of_ne hagain hne.symm, commit_batch_of_ne hcommit hne.symm]
      · intro batch' runId' run' hdue _
        obtain ⟨rfl, rfl, rfl⟩ := h.unique hdue
        exact hown

theorem reconcileOneBatch_reconciles {summary : Summary} (batchId : String)
    (hwaits : ∀ batch, db.batch batchId = some batch → Waits batch) :
    Reconciles env db batchId (reconcileOneBatch env (db, summary) batchId).1 := by
  rw [reconcileOneBatch]
  split
  · next hnone =>
      refine .refl fun batch runId run hdue => ?_
      rw [hdue.stored] at hnone
      cases hnone
  · next batch hbatch =>
      split
      · next hqueued => exact absurd hqueued (hwaits batch hbatch).notQueued
      · next hrunning =>
          obtain ⟨profile, -, hcurrent, hnew⟩ := (hwaits batch hbatch).outstanding hrunning
          rw [reconcileRunning, hcurrent]
          dsimp only
          have hsome : ∀ batch' runId run, Due db batchId batch' runId run →
              batch' = batch ∧ currentRun batchId profile db = some (runId, run) := by
            intro batch' runId run hdue
            obtain rfl := Option.some.inj (hdue.stored.symm.trans hbatch)
            obtain ⟨profile', hprofile', hrun⟩ := hdue.current
            obtain rfl := Option.some.inj (hcurrent.symm.trans hprofile')
            exact ⟨rfl, hrun⟩
          split
          · next hnone =>
              refine .refl fun batch' runId run hdue => ?_
              rw [(hsome batch' runId run hdue).2] at hnone
              cases hnone
          · next runId run hrun =>
              split
              · next hskip =>
                  refine .refl fun batch' runId' run' hdue => ?_
                  obtain ⟨rfl, hsame⟩ := hsome batch' runId' run' hdue
                  obtain ⟨rfl, rfl⟩ := Prod.mk.inj (Option.some.inj (hsame.symm.trans hrun))
                  obtain ⟨hlast, -, -, hterminal⟩ := ignores_eq_false.1 hdue.taken
                  rw [hterminal, Bool.not_true, Bool.false_or, decide_eq_true_iff] at hskip
                  exact hlast hskip
              · next hgo =>
                  have hprofile : run.profile = profile := currentRun_profile hrun
                  rw [Bool.or_eq_true, not_or, Bool.not_eq_true, Bool.not_eq_false',
                    decide_eq_true_iff] at hgo
                  have hignores : batch.ignores runId run = false := by
                    refine ignores_eq_false.2 ⟨hgo.2, ?_, hprofile ▸ hnew, hgo.1⟩
                    intro other hother
                    rw [hcurrent] at hother
                    rw [hprofile]
                    exact Option.some.inj hother
                  exact Due.reconciles ⟨hbatch, hignores, hrunning, profile, hcurrent, hrun⟩
      · next hstatus =>
          refine .refl fun batch' runId run hdue => ?_
          obtain rfl := Option.some.inj (hdue.stored.symm.trans hbatch)
          exact hstatus hdue.running

theorem Due.congr (hruns : db'.runs = db.runs)
    (hbatch : db'.batch batchId = db.batch batchId) (h : Due db batchId batch runId run) :
    Due db' batchId batch runId run := by
  obtain ⟨profile, hcurrent, hrun⟩ := h.current
  refine ⟨hbatch.trans h.stored, h.taken, h.running, profile, hcurrent, ?_⟩
  rw [currentRun_congr hruns]
  exact hrun

theorem Reconciled.congr {after : Option MemoryAnalysisBatch} (hruns : db'.runs = db.runs)
    (hbatch : db'.batch batchId = db.batch batchId) (h : Reconciled env db' batchId after) :
    Reconciled env db batchId after := by
  constructor
  · rcases h.cases with hkept | ⟨batch, runId, run, hdue, hafter⟩
    · exact .inl (hkept.trans hbatch)
    · exact .inr ⟨batch, runId, run, hdue.congr hruns.symm hbatch.symm, hafter⟩
  · intro batch runId run hdue
    exact h.due batch runId run (hdue.congr hruns hbatch)

/-- The passes over distinct batches do not meet. -/
theorem foldl_reconciled {ids : List String} (hdistinct : ids.Nodup) {cur : Database}
    (summary : Summary) (hruns : cur.runs = db.runs)
    (hsame : ∀ id ∈ ids, cur.batch id = db.batch id) (hwaits : AllWait db) :
    (∀ id, id ∉ ids →
      (ids.foldl (reconcileOneBatch env) (cur, summary)).1.batch id = cur.batch id) ∧
    ∀ id ∈ ids, Reconciled env db id
      ((ids.foldl (reconcileOneBatch env) (cur, summary)).1.batch id) := by
  induction ids generalizing cur summary with
  | nil =>
    refine ⟨fun _ _ => rfl, fun id hid => ?_⟩
    cases hid
  | cons batchId ids ih =>
    rw [List.nodup_cons] at hdistinct
    have hfirst := hsame batchId (.head _)
    have hone : Reconciles env cur batchId (reconcileOneBatch env (cur, summary) batchId).1 :=
      reconcileOneBatch_reconciles batchId fun batch hbatch =>
        hwaits batchId batch (hfirst ▸ hbatch)
    have hlater : ∀ id ∈ ids,
        (reconcileOneBatch env (cur, summary) batchId).1.batch id = db.batch id := by
      intro id hid
      have hne : id ≠ batchId := by
        rintro rfl
        exact hdistinct.1 hid
      exact (hone.others id hne).trans (hsame id (.tail _ hid))
    obtain ⟨hframe, hown⟩ := ih hdistinct.2
      (reconcileOneBatch env (cur, summary) batchId).2 (hone.runs.trans hruns) hlater
    rw [List.foldl_cons]
    constructor
    · intro id hid
      rw [List.mem_cons, not_or] at hid
      exact (hframe id hid.2).trans (hone.others id hid.1)
    · intro id hid
      rcases List.mem_cons.1 hid with rfl | hid
      · have hkept := hframe id hdistinct.1
        rw [hkept]
        exact hone.own.congr hruns hfirst
      · exact hown id hid

theorem reconcileMemoryBatches_reconciled (hwaits : AllWait db) (id : String) :
    Reconciled env db id ((reconcileMemoryBatches env db).1.batch id) := by
  rw [reconcileMemoryBatches]
  set ids := (db.batches.filter fun entry => entry.2.isActive).map Prod.fst with hids
  have hdistinct : ids.Nodup :=
    db.batchIds.sublist (List.filter_sublist.map _)
  by_cases hid : id ∈ ids
  · exact (foldl_reconciled hdistinct {} rfl (fun _ _ => rfl) hwaits).2 id hid
  · rw [(foldl_reconciled hdistinct {} rfl (fun _ _ => rfl) hwaits).1 id hid]
    refine ⟨.inl rfl, fun batch runId run hdue => absurd ?_ hid⟩
    rw [hids, List.mem_map]
    refine ⟨(id, batch), List.mem_filter.2 ⟨Dict.mem_of_get hdue.stored, ?_⟩, rfl⟩
    rw [MemoryAnalysisBatch.isActive, hdue.running]
    rfl

/-! ### One step -/

theorem step_change (hwaits : AllWait db)
    (h : (step db event).batch id = some after) : Change db event id after := by
  rw [step] at h
  split at h
  · exact createRunAllBatch_change h
  · split at h
    · exact .kept h
    · exact .kept h
  · next runId hcall =>
      split at h
      · exact .kept h
      · next run hrun => exact advanceBatch_change hcall hrun h
  · exact cancelBatch_change h
  · next hcall =>
      have hreconciled : Reconciled event.env db id
          ((reconcileMemoryBatches event.env db).1.batch id) :=
        reconcileMemoryBatches_reconciled hwaits id
      rcases hreconciled.cases with hkept | ⟨batch, runId, run, hdue, hafter⟩
      · exact .kept (hkept ▸ h)
      · rw [h] at hafter
        rw [Option.some.inj hafter]
        exact .advanced ⟨hdue.stored, hdue.owner, hdue.taken,
          .inr ⟨hcall, hdue.running, hdue.current⟩⟩ _

/-- A batch that is advanced after its cancellation is closed, and not as
cancelled. -/
theorem step_reached {runId : String}
    (hwaits : AllWait db) (h : Reaches db event id batch runId run)
    (hcancel : batch.cancellationRequested = true) :
    ∃ after, (step db event).batch id = some after ∧ ¬ Honest after := by
  have hcases := advance_cases batch event.env.now runId run
  rw [hcancel] at hcases
  obtain ⟨hclosed, hstatus, -⟩ := hcases.resolve_left fun hgoes => by cases hgoes.2.1
  have hflag : (batch.advance event.env.now runId run).cancellationRequested = true :=
    (advance_lists batch event.env.now runId run).2.2.2.1.trans hcancel
  rcases h.call with ⟨hcall, hrun⟩ | ⟨hcall, hrunning, hcurrent⟩
  · obtain ⟨db', hcommit⟩ := exists_commit_closed db id hclosed
    refine ⟨batch.advance event.env.now runId run, ?_, ?_⟩
    · rw [step, hcall]
      simp only [hrun]
      rw [advanceBatch_eq h.owner h.stored, if_neg (Bool.eq_false_iff.1 h.taken), hcommit]
      show db'.batch id = _
      rw [commit_batch hcommit, if_pos rfl]
    · exact fun honest => hstatus (honest.cancelled hflag hclosed)
  · refine ⟨batch.reconciled event.env.now runId run, ?_, ?_⟩
    · rw [step, hcall]
      exact (reconcileMemoryBatches_reconciled hwaits id).due batch runId run
        ⟨h.stored, h.taken, hrunning, hcurrent⟩ hclosed
    · exact fun honest => hstatus (honest.cancelled hflag hclosed)

theorem Change.waits (h : Change db event id after) (hwaits : AllWait db) : Waits after := by
  cases h with
  | kept stored => exact hwaits id _ stored
  | created new =>
    rcases new.outcome with ⟨hstatus, -⟩ | ⟨hstatus, profile, hmem, hcurrent⟩ | hstatus
    · exact ⟨by rw [hstatus]; decide, by rw [hstatus]; exact fun h => by cases h⟩
    · refine ⟨by rw [hstatus]; decide, fun _ => ⟨profile, hmem, hcurrent, ?_⟩⟩
      rw [new.unused]
      exact List.not_mem_nil
    · exact ⟨by rw [hstatus]; decide, by rw [hstatus]; exact fun h => by cases h⟩
  | cancelled stored active =>
    exact ⟨(hwaits id _ stored).notQueued, (hwaits id _ stored).outstanding⟩
  | @advanced batch runId run reaches time =>
    have hrequested := (advance_lists batch event.env.now runId run).2.2.1
    rcases advance_cases batch event.env.now runId run with
      ⟨hrunning, -, profile, hmem, hcurrent, hnew⟩ | ⟨hclosed, -, -⟩
    · have hrunning : ({ batch.advance event.env.now runId run with
          reconciledAt := time } : MemoryAnalysisBatch).status = .running := hrunning
      exact ⟨by rw [hrunning]; decide, fun _ => ⟨profile, hrequested.symm ▸ hmem, hcurrent, hnew⟩⟩
    · have hclosed : (batch.advance event.env.now runId run).status.isActive = false := hclosed
      constructor
      · intro hqueued
        have hqueued : (batch.advance event.env.now runId run).status = .queued := hqueued
        rw [hqueued] at hclosed
        cases hclosed
      · intro hrunning
        have hrunning : (batch.advance event.env.now runId run).status = .running := hrunning
        rw [hrunning] at hclosed
        cases hclosed

/-- A batch that is honest, and active if its cancellation was requested. -/
structure Open (batch : MemoryAnalysisBatch) : Prop where
  completed : batch.status = .completed →
    ∀ profile ∈ batch.requestedProfiles, profile ∈ batch.completedProfiles
  active : batch.cancellationRequested = true → batch.isActive = true

theorem Open.honest (h : Open batch) : Honest batch := by
  constructor
  · intro hstatus
    refine ⟨h.completed hstatus, Bool.eq_false_iff.2 fun hcancel => ?_⟩
    have hactive := h.active hcancel
    rw [MemoryAnalysisBatch.isActive, hstatus] at hactive
    cases hactive
  · intro hcancel hclosed
    rw [h.active hcancel] at hclosed
    cases hclosed

theorem Change.stays_open (h : Change db event id after)
    (hopen : ∀ batch, db.batch id = some batch → Open batch)
    (hnone : ¬ AdvancesCancelled db event) : Open after := by
  cases h with
  | kept stored => exact hopen _ stored
  | created new =>
    constructor
    · intro hcompleted
      rcases new.outcome with ⟨-, hnil⟩ | ⟨hstatus, -⟩ | hstatus
      · rw [hnil]
        intro profile hprofile
        cases hprofile
      · rw [hstatus] at hcompleted
        cases hcompleted
      · rw [hstatus] at hcompleted
        cases hcompleted
    · intro hcancel
      rw [new.uncancelled] at hcancel
      cases hcancel
  | cancelled stored active => exact ⟨(hopen _ stored).completed, fun _ => active⟩
  | @advanced batch runId run reaches time =>
    have huncancelled : batch.cancellationRequested = false :=
      Bool.eq_false_iff.2 fun hcancel => hnone ⟨id, batch, runId, run, reaches, hcancel⟩
    obtain ⟨-, -, hrequested, hflag, -⟩ := advance_lists batch event.env.now runId run
    constructor
    · intro hcompleted
      have hcompleted : (batch.advance event.env.now runId run).status = .completed := hcompleted
      rcases advance_cases batch event.env.now runId run with ⟨hrunning, -⟩ | ⟨-, -, hall⟩
      · rw [hrunning] at hcompleted
        cases hcompleted
      · intro profile hprofile
        exact hall hcompleted huncancelled profile (hrequested ▸ hprofile)
    · intro hcancel
      have hcancel : (batch.advance event.env.now runId run).cancellationRequested = true :=
        hcancel
      rw [hflag, huncancelled] at hcancel
      cases hcancel

end

/-! ### Runs -/

/-- Every batch is honest in every state that is reached. -/
def AlwaysHonest (events : List Event) : Prop :=
  ∀ before after, events = before ++ after →
    ∀ id batch, (runEvents emptyDatabase before).batch id = some batch → Honest batch

/-- No batch is advanced after its cancellation was requested. -/
def NoneAdvancesCancelled (events : List Event) : Prop :=
  ∀ before event after, events = before ++ event :: after →
    ¬ AdvancesCancelled (runEvents emptyDatabase before) event

theorem runEvents_concat (db : Database) (events : List Event) (event : Event) :
    runEvents db (events ++ [event]) = step (runEvents db events) event := by
  rw [runEvents_append]
  rfl

theorem reachable_waits (events : List Event) : AllWait (runEvents emptyDatabase events) := by
  induction events using List.reverseRecOn with
  | nil =>
    intro id batch hbatch
    cases hbatch
  | append_singleton events event ih =>
    intro id batch hbatch
    rw [runEvents_concat] at hbatch
    exact (step_change ih hbatch).waits ih

theorem reachable_open {events : List Event} (h : NoneAdvancesCancelled events) (id : String)
    (batch : MemoryAnalysisBatch) (hbatch : (runEvents emptyDatabase events).batch id = some batch) :
    Open batch := by
  induction events using List.reverseRecOn generalizing batch with
  | nil => cases hbatch
  | append_singleton events event ih =>
    rw [runEvents_concat] at hbatch
    refine (step_change (reachable_waits events) hbatch).stays_open (fun batch hbatch => ?_)
      (h events event [] rfl)
    refine ih (fun before next after heq => ?_) batch hbatch
    refine h before next (after ++ [event]) ?_
    rw [heq]
    simp

/-- The statuses are honest in every state of a run of the system exactly when no
batch is advanced after its cancellation was requested. -/
theorem honest_iff (events : List Event) : AlwaysHonest events ↔ NoneAdvancesCancelled events := by
  constructor
  · rintro honest before event after rfl ⟨id, batch, runId, run, hreaches, hcancel⟩
    obtain ⟨changed, hchanged, hnot⟩ :=
      step_reached (reachable_waits before) hreaches hcancel
    refine hnot (honest (before ++ [event]) after (by simp) id changed ?_)
    rw [runEvents_concat]
    exact hchanged
  · rintro hnone before after rfl id batch hbatch
    refine (reachable_open (fun first event last heq => ?_) id batch hbatch).honest
    refine hnone first event (last ++ after) ?_
    rw [heq]
    simp

/-! ### A cancelled batch that completes -/

/-- Three profiles are enqueued, the batch is cancelled, and the first run completes. -/
def cancelledEarly : List Event :=
  [⟨quietEnv 1, .createRunAllBatch ⟨"c", "e", "rerun_all", true⟩⟩, ⟨quietEnv 2, .cancelBatch "b"⟩,
    ⟨quietEnv 3, .setRunStatus "m" .completed⟩,
    ⟨quietEnv 4, .advanceBatch "m"⟩]

/-- The batch is completed, though two of its three profiles are outstanding and its
cancellation was accepted. -/
theorem cancelled_batch_completes :
    ((runEvents emptyDatabase cancelledEarly).batch "b").map (fun batch =>
      (batch.status, batch.requestedProfiles, batch.completedProfiles)) =
      some (.completed, [.metadataOnly, .processesBasic, .processesExtended], [.metadataOnly]) ∧
    ¬ AlwaysHonest cancelledEarly := by
  have hend : ((runEvents emptyDatabase cancelledEarly).batch "b").map (fun batch =>
      (batch.status, batch.requestedProfiles, batch.completedProfiles)) =
      some (.completed, [.metadataOnly, .processesBasic, .processesExtended], [.metadataOnly]) := by
    decide +kernel
  refine ⟨hend, fun honest => ?_⟩
  obtain ⟨batch, hbatch, heq⟩ := Option.map_eq_some_iff.1 hend
  have hstatus : batch.status = .completed := congrArg Prod.fst heq
  have hrequested : batch.requestedProfiles =
      [.metadataOnly, .processesBasic, .processesExtended] := congrArg (fun o => o.2.1) heq
  have hcompleted : batch.completedProfiles = [.metadataOnly] := congrArg (fun o => o.2.2) heq
  have hall := ((honest cancelledEarly [] (List.append_nil _).symm "b" batch hbatch).completed
    hstatus).1 .processesBasic
  rw [hrequested, hcompleted] at hall
  exact absurd (hall (by decide)) (by decide)

end Kairon.Memory

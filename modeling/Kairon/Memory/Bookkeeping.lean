/-
Kairon/Memory/Bookkeeping.lean

The lists of a batch, once every run of it has been reported.

All runs of a batch are enqueued at once, but a report counts only if its profile
is the current one.  A batch is therefore closed with exact lists if and only if
the reports hold the requested profiles in order; the run of `metadata_only`, if
it fails, closes the batch before that, and what is reported afterwards opens it
again (`bookkeeping_exact_iff`).
-/
import Kairon.Lib.Feed
import Kairon.Memory.Finished

namespace Kairon.Memory

/-! ### Reports -/

/-- The report of a run that has ended. -/
structure Callback where
  env : Env
  runId : String

/-- The worker stores the final status of a run and reports it. -/
def deliver (final : Profile → RunStatus) (db : Database) (callback : Callback) : Database :=
  match db.run callback.runId with
  | none => db
  | some run =>
    runEvents db
      [⟨callback.env, .setRunStatus callback.runId (final run.profile)⟩,
        ⟨callback.env, .advanceBatch callback.runId⟩]

def deliverAll (final : Profile → RunStatus) (db : Database) (callbacks : List Callback) :
    Database :=
  callbacks.foldl (deliver final) db

/-- The profiles that are reported, in order. -/
def reported (db : Database) (callbacks : List Callback) : List Profile :=
  callbacks.filterMap fun callback => (db.run callback.runId).map MemoryScanRun.profile

/-- The batch is closed and its lists are right: without repetition, together the
requested profiles unless `metadata_only` has failed, each profile in the list
that the final status of its run asks for. -/
structure Exact (requested : List Profile) (final : Profile → RunStatus)
    (batch : MemoryAnalysisBatch) : Prop where
  closed : batch.isActive = false
  nodup : batch.used.Nodup
  all : (∀ profile, profile ∈ batch.used ↔ profile ∈ requested) ∨
    (batch.status = .failed ∧ .metadataOnly ∈ batch.failedProfiles)
  completed : ∀ profile ∈ batch.completedProfiles, (final profile).isSuccess = true
  failed : ∀ profile ∈ batch.failedProfiles, (final profile).isFailure = true

/-- What may be reported behind a failed `metadata_only`: nothing, or one profile and
then all the others in order. -/
def InOrderBehind (requested : List Profile) : List Profile → Prop
  | [] => True
  | first :: later => (requested.filter fun p => p ≠ .metadataOnly ∧ p ≠ first).Sublist later

/-- The reports come in an order that the batch can follow: that of the requested
profiles, unless `metadata_only` fails. -/
def InOrder (requested : List Profile) (final : Profile → RunStatus) (reports : List Profile) :
    Prop :=
  if .metadataOnly ∈ requested ∧ (final .metadataOnly).isFailure = true then
    InOrderBehind requested
      ((reports.dropWhile fun p => p ≠ .metadataOnly).filter fun p => p ≠ .metadataOnly)
  else requested.Sublist reports

/-! ### A batch that follows its list -/

/-- What `advance_batch` makes of a batch with a run. -/
def MemoryAnalysisBatch.absorb (batch : MemoryAnalysisBatch) (now : ℤ) (runId : String)
    (run : MemoryScanRun) : MemoryAnalysisBatch :=
  if batch.ignores runId run then batch else batch.advance now runId run

/-- The lists of the batch are those of the profiles in `done`, taken into account
in that order.  `profileOf` gives the profile of a run. -/
structure Records (profileOf : String → Option Profile) (final : Profile → RunStatus)
    (done : List Profile) (batch : MemoryAnalysisBatch) : Prop where
  uncancelled : batch.cancellationRequested = false
  completed : batch.completedProfiles = done.filter fun p => (final p).isSuccess
  failed : batch.failedProfiles = done.filter fun p => !(final p).isSuccess
  distinct : batch.requestedProfiles.Nodup
  nodup : done.Nodup
  subset : ∀ profile ∈ done, profile ∈ batch.requestedProfiles
  last : ∀ id, batch.lastAdvancedRunId = some id → ∃ profile ∈ done, profileOf id = some profile

/-- The batch has taken `done` into account and waits for `remaining`, in order. -/
structure Follows (profileOf : String → Option Profile) (final : Profile → RunStatus)
    (done remaining : List Profile) (batch : MemoryAnalysisBatch) : Prop extends
    Records profileOf final done batch where
  waits : remaining = batch.requestedProfiles.filter fun p => p ∉ done
  current : batch.currentProfile = remaining.head?
  running : remaining ≠ [] → batch.status = .running
  closed : remaining = [] → batch.isActive = false

section

variable {profileOf : String → Option Profile} {final : Profile → RunStatus}
  {done remaining : List Profile} {batch : MemoryAnalysisBatch} {run : MemoryScanRun}
  {runId : String} {now : ℤ}

theorem Records.mem_used (h : Records profileOf final done batch) (profile : Profile) :
    profile ∈ batch.used ↔ profile ∈ done := by
  rw [MemoryAnalysisBatch.used, h.completed, h.failed, List.mem_append, List.mem_filter,
    List.mem_filter]
  rcases (final profile).isSuccess with - | - <;> simp

theorem Records.used_nodup (h : Records profileOf final done batch) : batch.used.Nodup := by
  rw [MemoryAnalysisBatch.used, h.completed, h.failed]
  refine List.nodup_append.2 ⟨h.nodup.filter _, h.nodup.filter _, ?_⟩
  rintro p hp q hq rfl
  have hyes := (List.mem_filter.1 hp).2
  have hno := (List.mem_filter.1 hq).2
  rw [hyes] at hno
  cases hno

/-- A batch that has nothing to wait for is exact. -/
theorem Follows.exact (h : Follows profileOf final done [] batch)
    (hterminal : ∀ profile, (final profile).isTerminal = true) :
    Exact batch.requestedProfiles final batch where
  closed := h.closed rfl
  nodup := h.used_nodup
  all := by
    left
    intro profile
    rw [h.mem_used]
    constructor
    · exact h.subset profile
    · intro hrequested
      by_contra hnot
      have hmem : profile ∈ batch.requestedProfiles.filter fun p => p ∉ done :=
        List.mem_filter.2 ⟨hrequested, decide_eq_true hnot⟩
      rw [← h.waits] at hmem
      cases hmem
  completed := by
    intro profile hprofile
    rw [h.completed] at hprofile
    exact (List.mem_filter.1 hprofile).2
  failed := by
    intro profile hprofile
    rw [h.failed] at hprofile
    have hno := (List.mem_filter.1 hprofile).2
    have hor := hterminal profile
    rw [RunStatus.isTerminal, Bool.or_eq_true] at hor
    refine hor.resolve_left fun hyes => ?_
    rw [hyes] at hno
    cases hno

/-- A batch that waits is not exact. -/
theorem Follows.not_exact {requested : List Profile}
    (h : Follows profileOf final done remaining batch)
    (hwaits : remaining ≠ []) : ¬ Exact requested final batch := by
  intro hexact
  have hclosed := hexact.closed
  rw [MemoryAnalysisBatch.isActive, h.running hwaits] at hclosed
  cases hclosed

theorem Follows.exact_iff (h : Follows profileOf final done remaining batch)
    (hterminal : ∀ profile, (final profile).isTerminal = true) :
    Exact batch.requestedProfiles final batch ↔ remaining = [] := by
  constructor
  · intro hexact
    by_contra hwaits
    exact h.not_exact hwaits hexact
  · rintro rfl
    exact h.exact hterminal

/-- A report of another profile than the one waited for is passed over. -/
theorem Follows.ignores (h : Follows profileOf final done remaining batch)
    (hrequested : run.profile ∈ batch.requestedProfiles)
    (hother : remaining.head? ≠ some run.profile) : batch.ignores runId run = true := by
  rw [MemoryAnalysisBatch.ignores]
  rcases hhead : remaining.head? with - | profile
  · -- nothing is waited for, so the profile has been taken into account
    have hnil : remaining = [] := List.head?_eq_none_iff.1 hhead
    have hused : run.profile ∈ batch.used := by
      rw [h.mem_used]
      by_contra hnot
      have hmem : run.profile ∈ batch.requestedProfiles.filter fun p => p ∉ done :=
        List.mem_filter.2 ⟨hrequested, decide_eq_true hnot⟩
      rw [← h.waits, hnil] at hmem
      cases hmem
    simp [hused]
  · have hne : run.profile ≠ profile := by
      rintro rfl
      exact hother hhead
    rw [h.current, hhead]
    simp [hne]

/-- A report of the profile waited for is taken up. -/
theorem Follows.not_ignores (h : Follows profileOf final done remaining batch)
    (hprofile : profileOf runId = some run.profile)
    (hhead : remaining.head? = some run.profile) (hterminal : run.status.isTerminal = true) :
    batch.ignores runId run = false := by
  have hnot : run.profile ∉ done := by
    have hmem := List.mem_of_mem_head? hhead
    rw [h.waits] at hmem
    exact of_decide_eq_true (List.mem_filter.1 hmem).2
  refine ignores_eq_false.2 ⟨?_, ?_, ?_, hterminal⟩
  · intro hlast
    obtain ⟨profile, hdone, heq⟩ := h.last runId hlast
    obtain rfl := Option.some.inj (heq.symm.trans hprofile)
    exact hnot hdone
  · intro profile hcurrent
    rw [h.current, hhead] at hcurrent
    exact Option.some.inj hcurrent
  · rw [h.mem_used]
    exact hnot

/-! ### Taking a report into account -/

/-- What `advance` does to the lists and the flags, whichever way it goes. -/
theorem advance_lists (batch : MemoryAnalysisBatch) (now : ℤ) (runId : String)
    (run : MemoryScanRun) :
    (batch.advance now runId run).completedProfiles = (batch.record run).completedProfiles ∧
      (batch.advance now runId run).failedProfiles = (batch.record run).failedProfiles ∧
      (batch.advance now runId run).requestedProfiles = batch.requestedProfiles ∧
      (batch.advance now runId run).cancellationRequested = batch.cancellationRequested ∧
      (batch.advance now runId run).lastAdvancedRunId = some runId := by
  have hrequested : (batch.record run).requestedProfiles = batch.requestedProfiles :=
    record_requestedProfiles run
  have hcancel : (batch.record run).cancellationRequested = batch.cancellationRequested :=
    record_cancellationRequested run
  rw [MemoryAnalysisBatch.advance]
  split
  · exact ⟨rfl, rfl, hrequested, hcancel, rfl⟩
  · split
    · exact ⟨rfl, rfl, hrequested, hcancel, rfl⟩
    · exact ⟨rfl, rfl, hrequested, hcancel, rfl⟩

theorem Records.advance (h : Records profileOf final done batch)
    (hprofile : profileOf runId = some run.profile) (hstatus : run.status = final run.profile)
    (hrequested : run.profile ∈ batch.requestedProfiles) (hnew : run.profile ∉ done) (now : ℤ) :
    Records profileOf final (done ++ [run.profile]) (batch.advance now runId run) := by
  obtain ⟨hcompleted, hfailed, hsame, hcancel, hlast⟩ := advance_lists batch now runId run
  refine ⟨?_, ?_, ?_, ?_, ?_, ?_, ?_⟩
  · rw [hcancel]
    exact h.uncancelled
  · rw [hcompleted, MemoryAnalysisBatch.record, hstatus, List.filter_append]
    rcases hsuccess : (final run.profile).isSuccess with - | -
    · simp [h.completed, hsuccess]
    · simp [h.completed, hsuccess]
  · rw [hfailed, MemoryAnalysisBatch.record, hstatus, List.filter_append]
    rcases hsuccess : (final run.profile).isSuccess with - | -
    · simp [h.failed, hsuccess]
    · simp [h.failed, hsuccess]
  · rw [hsame]
    exact h.distinct
  · exact List.nodup_append.2 ⟨h.nodup, List.nodup_singleton _, by
      rintro p hp q hq rfl
      exact hnew (List.mem_singleton.1 hq ▸ hp)⟩
  · intro profile hmem
    rw [hsame]
    rcases List.mem_append.1 hmem with hmem | hmem
    · exact h.subset profile hmem
    · rw [List.mem_singleton.1 hmem]
      exact hrequested
  · intro id hid
    rw [hlast] at hid
    obtain rfl := Option.some.inj hid
    exact ⟨run.profile, List.mem_append_right _ (List.mem_singleton.2 rfl), hprofile⟩

/-- The profiles that are left once a run has been taken into account. -/
theorem nextProfile_advance (h : Records profileOf final done batch) (run : MemoryScanRun) :
    (batch.record run).nextProfile =
      (batch.requestedProfiles.filter fun p => p ∉ done ++ [run.profile]).head? := by
  have hused : ∀ profile, profile ∈ (batch.record run).used ↔ profile ∈ done ++ [run.profile] := by
    intro profile
    have hdone := h.mem_used profile
    rw [MemoryAnalysisBatch.used, List.mem_append] at hdone
    rw [MemoryAnalysisBatch.record, List.mem_append, ← hdone]
    split
    · simp only [MemoryAnalysisBatch.used, List.mem_append]
      tauto
    · simp only [MemoryAnalysisBatch.used, List.mem_append]
      tauto
  rw [MemoryAnalysisBatch.nextProfile, record_requestedProfiles, List.head?_filter]
  simp only [hused]

/-- Where `advance` leaves the batch, by the next profile. -/
theorem advance_next (hcancel : batch.cancellationRequested = false)
    (hgoes : ¬ (run.profile = .metadataOnly ∧ run.status.isFailure = true)) (now : ℤ)
    (runId : String) :
    (batch.advance now runId run).currentProfile = (batch.record run).nextProfile ∧
      ((batch.record run).nextProfile ≠ none → (batch.advance now runId run).status = .running) ∧
      ((batch.record run).nextProfile = none → (batch.advance now runId run).isActive = false) := by
  rw [MemoryAnalysisBatch.advance, if_neg hgoes]
  split
  · next hnone =>
      simp only [record_cancellationRequested, hcancel, Bool.false_eq_true, if_false] at hnone
      have hnext : (batch.record run).nextProfile = none := hnone
      rw [hnext]
      exact ⟨rfl, fun hsome => absurd rfl hsome, fun _ => close_isActive now _⟩
  · next profile hsome =>
      simp only [record_cancellationRequested, hcancel, Bool.false_eq_true, if_false] at hsome
      have hnext : (batch.record run).nextProfile = some profile := hsome
      rw [hnext]
      exact ⟨rfl, fun _ => rfl, fun hnone => by cases hnone⟩

/-- Unless it is `metadata_only` that has failed, the batch goes on with the first
profile that is left. -/
theorem Records.follows (h : Records profileOf final done batch)
    (hprofile : profileOf runId = some run.profile) (hstatus : run.status = final run.profile)
    (hrequested : run.profile ∈ batch.requestedProfiles) (hnew : run.profile ∉ done)
    (hgoes : ¬ (run.profile = .metadataOnly ∧ run.status.isFailure = true)) (now : ℤ) :
    Follows profileOf final (done ++ [run.profile])
      (batch.requestedProfiles.filter fun p => p ∉ done ++ [run.profile])
      (batch.advance now runId run) := by
  obtain ⟨-, -, hsame, -, -⟩ := advance_lists batch now runId run
  have hnext := nextProfile_advance h run
  obtain ⟨hcurrent, hrunning, hclosed⟩ := advance_next h.uncancelled hgoes now runId
  rw [hnext] at hcurrent hrunning hclosed
  refine ⟨h.advance hprofile hstatus hrequested hnew now, by rw [hsame], hcurrent, ?_, ?_⟩
  · intro hleft
    exact hrunning fun hnone => hleft (List.head?_eq_none_iff.1 hnone)
  · intro hnil
    exact hclosed (List.head?_eq_none_iff.2 hnil)

/-- A batch that follows its list takes one report: the next profile is used up, and
any other is passed over. -/
theorem Follows.absorb (h : Follows profileOf final done remaining batch)
    (hprofile : profileOf runId = some run.profile) (hstatus : run.status = final run.profile)
    (hterminal : run.status.isTerminal = true)
    (hrequested : run.profile ∈ batch.requestedProfiles)
    (hgoes : run.profile ∈ remaining →
      ¬ (run.profile = .metadataOnly ∧ run.status.isFailure = true)) (now : ℤ) :
    ∃ done', Follows profileOf final done' (feedOne remaining run.profile)
      (batch.absorb now runId run) := by
  rw [MemoryAnalysisBatch.absorb, feedOne]
  by_cases hhead : remaining.head? = some run.profile
  · rw [h.not_ignores hprofile hhead hterminal, if_pos hhead, if_neg Bool.false_ne_true]
    have hnew : run.profile ∉ done := by
      have hmem := List.mem_of_mem_head? hhead
      rw [h.waits] at hmem
      exact of_decide_eq_true (List.mem_filter.1 hmem).2
    refine ⟨done ++ [run.profile], ?_⟩
    have hfollows := h.toRecords.follows hprofile hstatus hrequested hnew
      (hgoes (List.mem_of_mem_head? hhead)) now
    have htail : remaining.tail =
        batch.requestedProfiles.filter fun p => p ∉ done ++ [run.profile] := by
      have hcons : run.profile :: remaining.tail = remaining := List.cons_head?_tail hhead
      have hdistinct : remaining.Nodup := h.waits ▸ h.distinct.filter _
      rw [← hcons, List.nodup_cons] at hdistinct
      calc remaining.tail
          = remaining.tail.filter fun p => p ≠ run.profile := by
            refine (List.filter_eq_self.2 fun p hp => ?_).symm
            exact decide_eq_true fun heq => hdistinct.1 (heq ▸ hp)
        _ = remaining.filter fun p => p ≠ run.profile := by
            conv_rhs => rw [← hcons]
            simp
        _ = batch.requestedProfiles.filter fun p => p ∉ done ++ [run.profile] := by
            rw [h.waits, List.filter_filter]
            refine List.filter_congr fun p _ => ?_
            simp [not_or, and_comm]
    rw [htail]
    exact hfollows
  · rw [h.ignores hrequested hhead, if_neg hhead, if_pos rfl]
    exact ⟨done, h⟩

theorem absorb_requestedProfiles (batch : MemoryAnalysisBatch) (now : ℤ) (runId : String)
    (run : MemoryScanRun) :
    (batch.absorb now runId run).requestedProfiles = batch.requestedProfiles := by
  rw [MemoryAnalysisBatch.absorb]
  split
  · rfl
  · exact (advance_lists batch now runId run).2.2.1

end

/-! ### The batch in the database -/

/-- The database holds the batch, no other one is active for its evidence, and the
runs that have a profile belong to it. -/
structure Tracked (db : Database) (batchId : String) (profileOf : String → Option Profile)
    (batch : MemoryAnalysisBatch) : Prop where
  stored : db.batch batchId = some batch
  alone : ∀ entry ∈ db.batches, entry.1 ≠ batchId →
    entry.2.isActiveFor batch.caseId batch.evidenceId = false
  runs : ∀ runId profile, profileOf runId = some profile →
    ∃ run, db.run runId = some run ∧ run.batchId = some batchId ∧ run.profile = profile

theorem commit_runs {db db' : Database} {id : String} {batch : MemoryAnalysisBatch}
    (h : db.commit id batch = some db') : db'.runs = db.runs := by
  rw [Database.commit] at h
  split at h
  · rw [← Option.some.inj h]
  · cases h

theorem setRun_run (db : Database) (id name : String) (run : MemoryScanRun) :
    (db.setRun id run).run name = if id = name then some run else db.run name :=
  Dict.get_set id name run db.runs

section

variable {db : Database} {batchId : String} {profileOf : String → Option Profile}
  {batch : MemoryAnalysisBatch}

variable {runId : String} {run : MemoryScanRun}

theorem Tracked.setStatus (h : Tracked db batchId profileOf batch) (hrun : db.run runId = some run)
    (status : RunStatus) :
    Tracked (db.setRun runId { run with status := status }) batchId profileOf batch := by
  refine ⟨h.stored, h.alone, ?_⟩
  intro id profile hid
  obtain ⟨stored, hstored, howner, hprofile⟩ := h.runs id profile hid
  rw [setRun_run]
  by_cases heq : runId = id
  · subst heq
    obtain rfl := Option.some.inj (hrun.symm.trans hstored)
    rw [if_pos rfl]
    exact ⟨_, rfl, howner, hprofile⟩
  · rw [if_neg heq]
    exact ⟨stored, hstored, howner, hprofile⟩

theorem Tracked.commit (h : Tracked db batchId profileOf batch) {db' : Database}
    {batch' : MemoryAnalysisBatch} (hcommit : db.commit batchId batch' = some db')
    (hcase : batch'.caseId = batch.caseId) (hevidence : batch'.evidenceId = batch.evidenceId) :
    Tracked db' batchId profileOf batch' := by
  refine ⟨?_, ?_, ?_⟩
  · rw [commit_batch hcommit, if_pos rfl]
  · intro entry hentry hne
    rw [commit_batches hcommit] at hentry
    rcases Dict.mem_of_mem_set hentry with rfl | hold
    · exact absurd rfl hne
    · rw [hcase, hevidence]
      exact h.alone entry hold hne
  · intro id profile hid
    rw [Database.run, commit_runs hcommit]
    exact h.runs id profile hid

/-- A report reaches the batch. -/
theorem Tracked.deliver (h : Tracked db batchId profileOf batch) (final : Profile → RunStatus)
    {callback : Callback} {profile : Profile}
    (hprofile : profileOf callback.runId = some profile) :
    ∃ run : MemoryScanRun, run.profile = profile ∧ run.status = final profile ∧
      Tracked (deliver final db callback) batchId profileOf
        (batch.absorb callback.env.now callback.runId run) := by
  obtain ⟨run, hrun, howner, rfl⟩ := h.runs callback.runId profile hprofile
  have hset := h.setStatus hrun (final run.profile)
  set ended : MemoryScanRun := { run with status := final run.profile } with hended
  have hread : (db.setRun callback.runId ended).run callback.runId = some ended := by
    rw [setRun_run, if_pos rfl]
  have hsteps : Memory.deliver final db callback =
      (advanceBatch callback.env callback.runId ended (db.setRun callback.runId ended)).getD
        (db.setRun callback.runId ended) := by
    rw [Memory.deliver, hrun]
    show step (step db ⟨callback.env, .setRunStatus _ _⟩) ⟨callback.env, .advanceBatch _⟩ = _
    have hfirst : step db ⟨callback.env, .setRunStatus callback.runId (final run.profile)⟩ =
        db.setRun callback.runId ended := by
      rw [step]
      simp only [hrun]
      rfl
    rw [hfirst, step]
    simp only [hread]
  refine ⟨ended, rfl, rfl, ?_⟩
  have howner' : ended.batchId = some batchId := howner
  rw [hsteps, advanceBatch_eq howner' hset.stored, MemoryAnalysisBatch.absorb]
  split
  · exact hset
  · -- no other batch is active, so the commit goes through
    have hevidence := advance_evidence batch callback.env.now callback.runId ended
    obtain ⟨db', hcommit⟩ : ∃ db', (db.setRun callback.runId ended).commit batchId
        (batch.advance callback.env.now callback.runId ended) = some db' := by
      apply exists_commit
      intro _ entry hentry hne
      rw [hevidence.1, hevidence.2]
      exact h.alone entry hentry hne
    rw [hcommit]
    exact hset.commit hcommit hevidence.1 hevidence.2

/-! ### Reports one after the other -/

/-- The profiles of the runs that are reported. -/
def profilesOf (profileOf : String → Option Profile) (callbacks : List Callback) : List Profile :=
  callbacks.filterMap fun callback => profileOf callback.runId

variable {callbacks : List Callback}

theorem profilesOf_cons {callback : Callback} {profile : Profile}
    (h : profileOf callback.runId = some profile) :
    profilesOf profileOf (callback :: callbacks) = profile :: profilesOf profileOf callbacks := by
  simp [profilesOf, h]

variable {final : Profile → RunStatus}

/-- A batch that follows its list uses it up by the reports. -/
theorem Follows.deliverAll {done remaining : List Profile}
    (htracked : Tracked db batchId profileOf batch)
    (hfollows : Follows profileOf final done remaining batch)
    (hterminal : ∀ profile, (final profile).isTerminal = true)
    (hgoes : ∀ profile ∈ remaining, ¬ (profile = .metadataOnly ∧ (final profile).isFailure = true))
    (hown : ∀ callback ∈ callbacks, ∃ profile ∈ batch.requestedProfiles,
      profileOf callback.runId = some profile) :
    ∃ after done', (deliverAll final db callbacks).batch batchId = some after ∧
      after.requestedProfiles = batch.requestedProfiles ∧
      Follows profileOf final done' (feed remaining (profilesOf profileOf callbacks)) after := by
  induction callbacks generalizing db batch done remaining with
  | nil => exact ⟨batch, done, htracked.stored, rfl, hfollows⟩
  | cons callback callbacks ih =>
    obtain ⟨profile, hrequested, hprofile⟩ := hown callback (.head _)
    obtain ⟨run, rfl, hstatus, hnext⟩ := htracked.deliver final hprofile
    have hsame := absorb_requestedProfiles batch callback.env.now callback.runId run
    obtain ⟨done', hstep⟩ := hfollows.absorb hprofile hstatus
      (by rw [hstatus]; exact hterminal _) hrequested
      (fun hmem => by rw [hstatus]; exact hgoes _ hmem) callback.env.now
    have hfewer : ∀ p ∈ feedOne remaining run.profile, p ∈ remaining := by
      intro p hp
      rw [feedOne] at hp
      split at hp
      · exact List.mem_of_mem_tail hp
      · exact hp
    obtain ⟨after, done'', hafter, hrest, hend⟩ := ih hnext hstep
      (fun p hp => hgoes p (hfewer p hp)) (fun c hc => by
        rw [hsame]
        exact hown c (.tail _ hc))
    refine ⟨after, done'', hafter, hrest.trans hsame, ?_⟩
    rw [profilesOf_cons hprofile]
    exact hend

/-- A batch that `metadata_only` has closed, with nothing else taken into account. -/
structure Stopped (profileOf : String → Option Profile) (final : Profile → RunStatus)
    (batch : MemoryAnalysisBatch) : Prop extends
    Records profileOf final [.metadataOnly] batch where
  status : batch.status = .failed
  idle : batch.currentProfile = none

theorem Stopped.exact {requested : List Profile}
    (h : Stopped profileOf final batch) (hfails : (final .metadataOnly).isFailure = true)
    (hsuccess : (final .metadataOnly).isSuccess = false) : Exact requested final batch := by
  have hcompleted : batch.completedProfiles = [] := by rw [h.completed]; simp [hsuccess]
  have hfailed : batch.failedProfiles = [.metadataOnly] := by rw [h.failed]; simp [hsuccess]
  refine ⟨?_, h.used_nodup, .inr ⟨h.status, ?_⟩, ?_, ?_⟩
  · rw [MemoryAnalysisBatch.isActive, h.status]
    rfl
  · rw [hfailed]
    exact List.mem_singleton.2 rfl
  · rw [hcompleted]
    intro profile hprofile
    cases hprofile
  · rw [hfailed]
    intro profile hprofile
    rw [List.mem_singleton.1 hprofile]
    exact hfails

variable {remaining : List Profile}

/-- The report of a failed `metadata_only` stops a batch that waits for it. -/
theorem Follows.stop (h : Follows profileOf final [] remaining batch)
    (hprofile : profileOf runId = some run.profile) (hstatus : run.status = final run.profile)
    (hmetadata : run.profile = .metadataOnly) (hfails : (final .metadataOnly).isFailure = true)
    (hhead : remaining.head? = some .metadataOnly) (now : ℤ) :
    Stopped profileOf final (batch.absorb now runId run) := by
  have hterminal : run.status.isTerminal = true := by
    rw [hstatus, hmetadata, RunStatus.isTerminal, hfails, Bool.or_true]
  have hrequested : run.profile ∈ batch.requestedProfiles := by
    have hmem := List.mem_of_mem_head? hhead
    rw [h.waits] at hmem
    rw [hmetadata]
    exact (List.mem_filter.1 hmem).1
  rw [MemoryAnalysisBatch.absorb,
    h.not_ignores hprofile (hhead.trans (congrArg some hmetadata.symm)) hterminal,
    if_neg Bool.false_ne_true]
  have hrecords := h.toRecords.advance hprofile hstatus hrequested (List.not_mem_nil) now
  rw [List.nil_append, hmetadata] at hrecords
  have hcond : run.profile = .metadataOnly ∧ run.status.isFailure = true :=
    ⟨hmetadata, by rw [hstatus, hmetadata]; exact hfails⟩
  refine ⟨hrecords, ?_, ?_⟩
  · rw [MemoryAnalysisBatch.advance, if_pos hcond, MemoryAnalysisBatch.close]
    rfl
  · rw [MemoryAnalysisBatch.advance, if_pos hcond, MemoryAnalysisBatch.close]

/-- A report that a stopped batch does not know opens it again. -/
theorem Stopped.absorb (h : Stopped profileOf final batch)
    (hprofile : profileOf runId = some run.profile) (hstatus : run.status = final run.profile)
    (hterminal : run.status.isTerminal = true)
    (hrequested : run.profile ∈ batch.requestedProfiles) (now : ℤ) :
    if run.profile = .metadataOnly then batch.absorb now runId run = batch
    else
      Follows profileOf final [.metadataOnly, run.profile]
        (batch.requestedProfiles.filter fun p => p ≠ .metadataOnly ∧ p ≠ run.profile)
        (batch.absorb now runId run) := by
  rw [MemoryAnalysisBatch.absorb]
  split
  · next hmetadata =>
      have hignores : batch.ignores runId run = true := by
        rw [MemoryAnalysisBatch.ignores]
        simp [h.mem_used, hmetadata]
      rw [if_pos hignores]
  · next hother =>
      have hnew : run.profile ∉ [Profile.metadataOnly] := by simpa using hother
      have hignores : batch.ignores runId run = false := by
        refine ignores_eq_false.2 ⟨?_, ?_, ?_, hterminal⟩
        · intro hlast
          obtain ⟨profile, hdone, heq⟩ := h.last runId hlast
          obtain rfl := Option.some.inj (heq.symm.trans hprofile)
          exact hnew hdone
        · intro profile hcurrent
          rw [h.idle] at hcurrent
          cases hcurrent
        · rw [h.mem_used]
          exact hnew
      rw [hignores, if_neg Bool.false_ne_true]
      have hfollows := h.toRecords.follows hprofile hstatus hrequested hnew
        (fun hcond => hother hcond.1) now
      have hlist : (batch.requestedProfiles.filter fun p => p ∉ [.metadataOnly] ++ [run.profile]) =
          batch.requestedProfiles.filter fun p => p ≠ .metadataOnly ∧ p ≠ run.profile := by
        refine List.filter_congr fun p _ => ?_
        simp [not_or]
      rw [← hlist]
      exact hfollows

/-- The reports behind a failed `metadata_only`. -/
theorem Stopped.deliverAll (htracked : Tracked db batchId profileOf batch)
    (hstopped : Stopped profileOf final batch)
    (hterminal : ∀ profile, (final profile).isTerminal = true)
    (hfails : (final .metadataOnly).isFailure = true)
    (hsuccess : (final .metadataOnly).isSuccess = false)
    (hown : ∀ callback ∈ callbacks, ∃ profile ∈ batch.requestedProfiles,
      profileOf callback.runId = some profile) :
    ∃ after, (deliverAll final db callbacks).batch batchId = some after ∧
      (Exact batch.requestedProfiles final after ↔ InOrderBehind batch.requestedProfiles
        ((profilesOf profileOf callbacks).filter fun p => p ≠ .metadataOnly)) := by
  induction callbacks generalizing db batch with
  | nil =>
    exact ⟨batch, htracked.stored, iff_of_true (hstopped.exact hfails hsuccess) trivial⟩
  | cons callback callbacks ih =>
    obtain ⟨profile, hrequested, hprofile⟩ := hown callback (.head _)
    obtain ⟨run, rfl, hstatus, hnext⟩ := htracked.deliver final hprofile
    have hrest : ∀ c ∈ callbacks, ∃ profile ∈ batch.requestedProfiles,
        profileOf c.runId = some profile :=
      fun c hc => hown c (.tail _ hc)
    have hstep := hstopped.absorb hprofile hstatus (by rw [hstatus]; exact hterminal _)
      hrequested callback.env.now
    rw [profilesOf_cons hprofile]
    by_cases hmetadata : run.profile = .metadataOnly
    · rw [if_pos hmetadata] at hstep
      rw [hstep] at hnext
      rw [hmetadata, List.filter_cons_of_neg (by simp)]
      exact ih hnext hstopped hrest
    · rw [if_neg hmetadata] at hstep
      have hsame := absorb_requestedProfiles batch callback.env.now callback.runId run
      obtain ⟨after, done, hafter, hrequests, hend⟩ := hstep.deliverAll hnext hterminal
        (fun p hp hcond => by
          have hne := of_decide_eq_true (List.mem_filter.1 hp).2
          exact hne.1 hcond.1)
        (hsame.symm ▸ hrest)
      refine ⟨after, hafter, ?_⟩
      rw [List.filter_cons_of_pos (by simpa using hmetadata), InOrderBehind, ← hsame,
        ← hrequests, hend.exact_iff hterminal, feed_eq_nil_iff]
      rw [hrequests, hsame]
      -- the reports of `metadata_only` play no part in what is left
      constructor
      · intro hsub
        have hfiltered := hsub.filter fun p => p ≠ .metadataOnly
        rwa [List.filter_eq_self.2 fun p hp => decide_eq_true
          (of_decide_eq_true (List.mem_filter.1 hp).2).1] at hfiltered
      · exact fun hsub => hsub.trans List.filter_sublist

/-- The reports of a batch that begins with a `metadata_only` that fails. -/
theorem Follows.deliverAll_stop (htracked : Tracked db batchId profileOf batch)
    (hfollows : Follows profileOf final [] remaining batch)
    (hterminal : ∀ profile, (final profile).isTerminal = true)
    (hfails : (final .metadataOnly).isFailure = true)
    (hsuccess : (final .metadataOnly).isSuccess = false)
    (hhead : remaining.head? = some .metadataOnly)
    (hown : ∀ callback ∈ callbacks, ∃ profile ∈ batch.requestedProfiles,
      profileOf callback.runId = some profile)
    (hreported : .metadataOnly ∈ profilesOf profileOf callbacks) :
    ∃ after, (Memory.deliverAll final db callbacks).batch batchId = some after ∧
      (Exact batch.requestedProfiles final after ↔ InOrderBehind batch.requestedProfiles
        (((profilesOf profileOf callbacks).dropWhile fun p => p ≠ .metadataOnly).filter
          fun p => p ≠ .metadataOnly)) := by
  induction callbacks generalizing db batch with
  | nil => cases hreported
  | cons callback callbacks ih =>
    obtain ⟨profile, hrequested, hprofile⟩ := hown callback (.head _)
    obtain ⟨run, rfl, hstatus, hnext⟩ := htracked.deliver final hprofile
    have hrest : ∀ c ∈ callbacks, ∃ profile ∈ batch.requestedProfiles,
        profileOf c.runId = some profile :=
      fun c hc => hown c (.tail _ hc)
    rw [profilesOf_cons hprofile] at hreported ⊢
    by_cases hmetadata : run.profile = .metadataOnly
    · have hstop := hfollows.stop hprofile hstatus hmetadata hfails hhead callback.env.now
      have hsame := absorb_requestedProfiles batch callback.env.now callback.runId run
      rw [hmetadata, List.dropWhile_cons_of_neg (by simp), List.filter_cons_of_neg (by simp)]
      rw [← hsame]
      exact hstop.deliverAll hnext hterminal hfails hsuccess (hsame.symm ▸ hrest)
    · have hignored : batch.absorb callback.env.now callback.runId run = batch := by
        have hother : remaining.head? ≠ some run.profile := by
          rw [hhead]
          exact fun heq => hmetadata (Option.some.inj heq).symm
        rw [MemoryAnalysisBatch.absorb, hfollows.ignores hrequested hother, if_pos rfl]
      rw [hignored] at hnext
      rw [List.dropWhile_cons_of_pos (by simpa using hmetadata)]
      exact ih hnext hfollows hrest
        ((List.mem_cons.1 hreported).resolve_left fun heq => hmetadata heq.symm)

end

/-! ### The batch as it is created -/

theorem newest_eq_none {α : Type} {createdAt : α → ℤ} {rows : List α}
    (h : newest createdAt rows = none) : rows = [] := by
  rcases rows with - | ⟨row, rows⟩
  · rfl
  · rw [newest] at h
    split at h
    · cases h
    · split at h
      · cases h
      · cases h

section

variable {env : Env} {db added : Database} {batchId : String} {batch : MemoryAnalysisBatch}

theorem enqueueProfile_ok {profile : Profile} {position : ℕ} {id : String}
    (h : enqueueProfile env batchId batch profile position db = (added, .ok id)) :
    db.run id = none ∧ ∃ run : MemoryScanRun, run.batchId = some batchId ∧
      run.profile = profile ∧ added = db.setRun id run := by
  rw [enqueueProfile] at h
  split at h
  · cases h
  · next new run hcreate =>
      rw [createMemoryMetadataRun] at hcreate
      split at hcreate
      · cases hcreate
      · split at hcreate
        · cases hcreate
        · next hfresh =>
            cases hcreate
            split at h
            · cases h
            · cases h
              exact ⟨Option.not_isSome_iff_eq_none.1 hfresh, _, rfl, rfl, rfl⟩

/-- The runs that are enqueued have ids of their own, and each has its profile. -/
theorem enqueueProfiles_ok {entries : List (Profile × ℕ)} {ids : List String}
    (h : enqueueProfiles env batchId batch entries db = (added, .ok ids)) :
    (∀ id ∈ ids, db.run id = none) ∧ (∀ id, id ∉ ids → added.run id = db.run id) ∧
      (∀ id ∈ ids, ∃ run : MemoryScanRun, added.run id = some run ∧
        run.batchId = some batchId ∧ ∃ entry ∈ entries, run.profile = entry.1) ∧
      (∀ entry ∈ entries, ∃ id ∈ ids, ∃ run : MemoryScanRun, added.run id = some run ∧
        run.profile = entry.1) := by
  induction entries generalizing db added ids with
  | nil =>
    cases h
    exact ⟨by simp, fun _ _ => rfl, by simp, by simp⟩
  | cons entry entries ih =>
    obtain ⟨profile, position⟩ := entry
    rw [enqueueProfiles] at h
    rcases hfirst : enqueueProfile env batchId batch profile position db with ⟨db₁, _ | id⟩
    · rw [hfirst] at h
      cases h
    rw [hfirst] at h
    dsimp only at h
    rcases hrest : enqueueProfiles env batchId batch entries db₁ with ⟨db₂, _ | rest⟩
    · rw [hrest] at h
      cases h
    rw [hrest] at h
    cases h
    obtain ⟨hnone, run, howner, hprofile, rfl⟩ := enqueueProfile_ok hfirst
    obtain ⟨hfresh, hframe, hruns, hprofiles⟩ := ih hrest
    -- the first id is not one of the later ones, which were fresh behind it
    have hnot : id ∉ rest := by
      intro hmem
      have hlater := hfresh id hmem
      rw [setRun_run, if_pos rfl] at hlater
      cases hlater
    have hstored : db₂.run id = some run := by
      rw [hframe id hnot, setRun_run, if_pos rfl]
    refine ⟨?_, ?_, ?_, ?_⟩
    · intro name hname
      rcases List.mem_cons.1 hname with rfl | hname
      · exact hnone
      · have hlater := hfresh name hname
        rw [setRun_run] at hlater
        split at hlater
        · cases hlater
        · exact hlater
    · intro name hname
      rw [List.mem_cons, not_or] at hname
      rw [hframe name hname.2, setRun_run, if_neg fun heq => hname.1 heq.symm]
    · intro name hname
      rcases List.mem_cons.1 hname with rfl | hname
      · exact ⟨run, hstored, howner, _, .head _, hprofile⟩
      · obtain ⟨run', hrun', howner', entry, hentry, heq⟩ := hruns name hname
        exact ⟨run', hrun', howner', entry, .tail _ hentry, heq⟩
    · intro entry hentry
      rcases List.mem_cons.1 hentry with rfl | hentry
      · exact ⟨id, .head _, run, hstored, hprofile⟩
      · obtain ⟨name, hname, run', hrun', heq⟩ := hprofiles entry hentry
        exact ⟨name, .tail _ hname, run', hrun', heq⟩

end

theorem planRunAll_nodup (env : Env) (db : Database) (caseId evidenceId : String) (mode : Mode)
    (plan : AnalysisPlan) : (planRunAll env db caseId evidenceId mode plan).1.Nodup := by
  refine List.Nodup.filter _ ?_
  cases mode with
  | missingOrFailed => decide
  | rerunAll => decide
  | runtimeValidation => decide

/-- `metadata_only`, if it is planned, comes first. -/
theorem planRunAll_head {env : Env} {db : Database} {caseId evidenceId : String} {mode : Mode}
    {plan : AnalysisPlan}
    (h : .metadataOnly ∈ (planRunAll env db caseId evidenceId mode plan).1) :
    (planRunAll env db caseId evidenceId mode plan).1.head? = some .metadataOnly := by
  have hall : ∃ rest, allowedProfiles mode = .metadataOnly :: rest := by
    cases mode with
    | missingOrFailed | rerunAll | runtimeValidation => exact ⟨_, rfl⟩
  obtain ⟨rest, hrest⟩ := hall
  have hkept := (List.mem_filter.1 h).2
  show ((allowedProfiles mode).filter _).head? = _
  rw [hrest, List.filter_cons, if_pos hkept]
  rfl

section

variable {env : Env} {request : BatchRequest} {before db added : Database} {ids : List String}
  {admitted batch : MemoryAnalysisBatch}

theorem enqueueBatch_batches (env : Env) (batch : MemoryAnalysisBatch) (db : Database) :
    (enqueueBatch env batch db).2.1.batches = db.batches := by
  rw [enqueueBatch]
  split
  · rfl
  · dsimp only
    have hkept := enqueueProfiles_batches env env.batchId (batch.start env.now)
      ((batch.start env.now).requestedProfiles.zipIdx 1) db
    split
    · next added ids hrun =>
        rw [hrun] at hkept
        exact hkept
    · next added text hrun =>
        rw [hrun] at hkept
        exact hkept

theorem admitBatch_ok (h : admitBatch env request before = .ok admitted) :
    (∀ entry ∈ before.batches, entry.2.isActiveFor request.caseId request.evidenceId = false) ∧
      ∃ mode plan, admitted = newBatch env request mode
        (planRunAll env before request.caseId request.evidenceId mode plan) := by
  rw [admitBatch] at h
  split at h
  · cases h
  · next evidence hevidence =>
      split at h
      · cases h
      · next hactive =>
          split at h
          · cases h
          · next mode hmode =>
              cases h
              have hnone := newest_eq_none hactive
              refine ⟨fun entry hentry => ?_, mode, evidence.plan, rfl⟩
              exact Bool.eq_false_iff.2 (List.filter_eq_nil_iff.1 hnone entry hentry)

theorem createRunAllBatch_ok (h : createRunAllBatch env request before = (db, .ok ids)) :
    ∃ admitted batch added, admitBatch env request before = .ok admitted ∧
      enqueueBatch env admitted before = (batch, added, .ok ids) ∧
      added.commit env.batchId batch = some db := by
  rw [createRunAllBatch] at h
  split at h
  · cases h
  · next admitted hadmitted =>
      split at h
      · cases h
      · rcases henqueue : enqueueBatch env admitted before with ⟨batch, added, result⟩
        rw [henqueue] at h
        dsimp only at h
        split at h
        · next committed hcommit =>
            cases h
            exact ⟨admitted, batch, added, hadmitted, henqueue, hcommit⟩
        · cases h

/-- The profile of a run, if it is one of some. -/
def profileAmong (db : Database) (ids : List String) (id : String) : Option Profile :=
  if id ∈ ids then (db.run id).map MemoryScanRun.profile else none

/-- The batch that is committed waits for all its profiles, and its runs are those
that were enqueued. -/
theorem enqueueBatch_follows (hadmitted : admitBatch env request before = .ok admitted)
    (h : enqueueBatch env admitted before = (batch, added, .ok ids)) (final : Profile → RunStatus)
    (profileOf : String → Option Profile) :
    Follows profileOf final [] batch.requestedProfiles batch ∧
      batch.caseId = request.caseId ∧ batch.evidenceId = request.evidenceId ∧
      batch.requestedProfiles = admitted.requestedProfiles ∧
      (∀ id ∈ ids, ∃ run : MemoryScanRun, added.run id = some run ∧
        run.batchId = some env.batchId ∧ run.profile ∈ batch.requestedProfiles) ∧
      (∀ profile ∈ batch.requestedProfiles, ∃ id ∈ ids, ∃ run : MemoryScanRun,
        added.run id = some run ∧ run.profile = profile) := by
  obtain ⟨-, mode, plan, rfl⟩ := admitBatch_ok hadmitted
  have hdistinct := planRunAll_nodup env before request.caseId request.evidenceId mode plan
  set planned := planRunAll env before request.caseId request.evidenceId mode plan
  rw [enqueueBatch] at h
  split at h
  · next hnil =>
      have hnil : planned.1 = [] := hnil
      cases h
      refine ⟨⟨⟨rfl, rfl, rfl, hdistinct, List.nodup_nil, ?_, ?_⟩, ?_, ?_, ?_, ?_⟩, rfl, rfl,
        rfl, ?_, ?_⟩
      · intro profile hprofile
        cases hprofile
      · intro id hid
        cases hid
      · show planned.1 = planned.1.filter _
        rw [hnil]
        rfl
      · show none = planned.1.head?
        rw [hnil]
        rfl
      · exact fun hne => absurd hnil hne
      · exact fun _ => rfl
      · intro id hid
        cases hid
      · intro profile hprofile
        have hprofile : profile ∈ planned.1 := hprofile
        rw [hnil] at hprofile
        cases hprofile
  · next hne =>
      dsimp only at h
      split at h
      · next db ids' hrun =>
          cases h
          obtain ⟨-, -, hruns, hprofiles⟩ := enqueueProfiles_ok hrun
          refine ⟨⟨⟨rfl, rfl, rfl, hdistinct, List.nodup_nil, ?_, ?_⟩, ?_, rfl, fun _ => rfl,
            fun hnil => absurd hnil hne⟩, rfl, rfl, rfl, ?_, ?_⟩
          · intro profile hprofile
            cases hprofile
          · intro id hid
            cases hid
          · exact (List.filter_eq_self.2 fun p _ => by simp).symm
          · intro id hid
            obtain ⟨run, hrun, howner, entry, hentry, hprofile⟩ := hruns id hid
            refine ⟨run, hrun, howner, ?_⟩
            rw [hprofile]
            exact List.fst_mem_of_mem_zipIdx hentry
          · intro profile hprofile
            obtain ⟨position, hentry⟩ : ∃ n, (profile, n) ∈ planned.1.zipIdx 1 := by
              obtain ⟨index, hlt, rfl⟩ := List.mem_iff_getElem.1 hprofile
              exact ⟨1 + index, List.mk_add_mem_zipIdx_iff_getElem?.2
                (List.getElem?_eq_getElem hlt)⟩
            obtain ⟨id, hid, run, hrun, heq⟩ := hprofiles _ hentry
            exact ⟨id, hid, run, hrun, heq⟩
      · cases h

/-- What holds once a batch has been created. -/
structure Created (env : Env) (db : Database) (ids : List String) (final : Profile → RunStatus)
    (batch : MemoryAnalysisBatch) : Prop where
  tracked : Tracked db env.batchId (profileAmong db ids) batch
  follows : Follows (profileAmong db ids) final [] batch.requestedProfiles batch
  own : ∀ id ∈ ids, ∃ profile ∈ batch.requestedProfiles, profileAmong db ids id = some profile
  each : ∀ profile ∈ batch.requestedProfiles, ∃ id ∈ ids, profileAmong db ids id = some profile
  first : .metadataOnly ∈ batch.requestedProfiles →
    batch.requestedProfiles.head? = some .metadataOnly

theorem created (h : createRunAllBatch env request before = (db, .ok ids))
    (final : Profile → RunStatus) : ∃ batch, Created env db ids final batch := by
  obtain ⟨admitted, batch, added, hadmitted, henqueue, hcommit⟩ := createRunAllBatch_ok h
  obtain ⟨hfollows, hcase, hevidence, hrequested, hruns, hprofiles⟩ :=
    enqueueBatch_follows hadmitted henqueue final (profileAmong db ids)
  have hsame : db.run = added.run := by
    funext id
    rw [Database.run, commit_runs hcommit, Database.run]
  have hprofile : ∀ id ∈ ids, ∀ run, added.run id = some run →
      profileAmong db ids id = some run.profile := by
    intro id hid run hrun
    rw [profileAmong, if_pos hid, hsame, hrun]
    rfl
  refine ⟨batch, ⟨?_, ?_, ?_⟩, hfollows, ?_, ?_, ?_⟩
  · rw [commit_batch hcommit, if_pos rfl]
  · intro entry hentry hne
    rw [commit_batches hcommit] at hentry
    rcases Dict.mem_of_mem_set hentry with rfl | hold
    · exact absurd rfl hne
    · have hbatches : added.batches = before.batches := by
        have hkept := enqueueBatch_batches env admitted before
        rw [henqueue] at hkept
        exact hkept
      rw [hbatches] at hold
      rw [hcase, hevidence]
      exact (admitBatch_ok hadmitted).1 entry hold
  · intro id profile hid
    rw [profileAmong] at hid
    split at hid
    · next hmem =>
        obtain ⟨run, hrun, howner, -⟩ := hruns id hmem
        rw [hsame, hrun] at hid
        exact ⟨run, hsame ▸ hrun, howner, Option.some.inj hid⟩
    · cases hid
  · intro id hid
    obtain ⟨run, hrun, -, hmem⟩ := hruns id hid
    exact ⟨run.profile, hmem, hprofile id hid run hrun⟩
  · intro profile hmem
    obtain ⟨id, hid, run, hrun, rfl⟩ := hprofiles profile hmem
    exact ⟨id, hid, hprofile id hid run hrun⟩
  · obtain ⟨-, mode, plan, rfl⟩ := admitBatch_ok hadmitted
    rw [hrequested]
    exact planRunAll_head

/-! ### Exactness -/

theorem reported_eq {callbacks : List Callback}
    (h : ∀ callback ∈ callbacks, callback.runId ∈ ids) :
    reported db callbacks = profilesOf (profileAmong db ids) callbacks := by
  refine List.filterMap_congr fun callback hcallback => ?_
  rw [profileAmong, if_pos (h callback hcallback)]

theorem isSuccess_eq_false_of_isFailure {status : RunStatus} (h : status.isFailure = true) :
    status.isSuccess = false := by
  cases status with
  | completed => cases h
  | completedWithErrors => cases h
  | _ => rfl

/-- The bookkeeping of a batch is exact if and only if its runs are reported in an
order that it can follow. -/
theorem bookkeeping_exact_iff (hcreate : createRunAllBatch env request before = (db, .ok ids))
    (final : Profile → RunStatus) (hterminal : ∀ profile, (final profile).isTerminal = true)
    (callbacks : List Callback) (hown : ∀ callback ∈ callbacks, callback.runId ∈ ids)
    (hall : ∀ id ∈ ids, ∃ callback ∈ callbacks, callback.runId = id) :
    ∃ batch after, db.batch env.batchId = some batch ∧
      (deliverAll final db callbacks).batch env.batchId = some after ∧
      (Exact batch.requestedProfiles final after ↔
        InOrder batch.requestedProfiles final (reported db callbacks)) := by
  obtain ⟨batch, hcreated⟩ := created hcreate final
  have hreported : reported db callbacks = profilesOf (profileAmong db ids) callbacks :=
    reported_eq hown
  have howner : ∀ callback ∈ callbacks, ∃ profile ∈ batch.requestedProfiles,
      profileAmong db ids callback.runId = some profile :=
    fun callback hcallback => hcreated.own _ (hown callback hcallback)
  by_cases hfails : .metadataOnly ∈ batch.requestedProfiles ∧ (final .metadataOnly).isFailure = true
  · -- every run is reported, that of `metadata_only` too
    have hmetadata : .metadataOnly ∈ profilesOf (profileAmong db ids) callbacks := by
      obtain ⟨id, hid, hprofile⟩ := hcreated.each _ hfails.1
      obtain ⟨callback, hcallback, rfl⟩ := hall id hid
      exact List.mem_filterMap.2 ⟨callback, hcallback, hprofile⟩
    obtain ⟨after, hafter, hiff⟩ := hcreated.follows.deliverAll_stop hcreated.tracked hterminal
      hfails.2 (isSuccess_eq_false_of_isFailure hfails.2) (hcreated.first hfails.1) howner
      hmetadata
    refine ⟨batch, after, hcreated.tracked.stored, hafter, ?_⟩
    rw [hreported, InOrder, if_pos hfails]
    exact hiff
  · obtain ⟨after, done, hafter, hsame, hend⟩ := hcreated.follows.deliverAll hcreated.tracked
      hterminal (fun profile hprofile hcond => hfails ⟨hcond.1 ▸ hprofile, hcond.1 ▸ hcond.2⟩)
      howner
    refine ⟨batch, after, hcreated.tracked.stored, hafter, ?_⟩
    rw [hreported, InOrder, if_neg hfails, ← hsame, hend.exact_iff hterminal, feed_eq_nil_iff,
      hsame]

end

/-! ### Three runs -/

/-- A batch of the three profiles of `windowsDump`. -/
def threeRuns : Database × Except BatchError (List String) :=
  createRunAllBatch (quietEnv 1) ⟨"c", "e", "rerun_all", true⟩ emptyDatabase

def reports (ids : List String) : List Callback := ids.map fun id => ⟨quietEnv 2, id⟩

theorem threeRuns_ids : threeRuns.2 = .ok ["m", "p", "x"] := by decide +kernel

theorem threeRuns_ok : threeRuns = (threeRuns.1, .ok ["m", "p", "x"]) := by
  rw [← threeRuns_ids]

/-- With the reports in order, all three are counted. -/
theorem threeRuns_exact : ∃ batch after, threeRuns.1.batch "b" = some batch ∧
    (deliverAll (fun _ => .completed) threeRuns.1 (reports ["m", "p", "x"])).batch "b" =
      some after ∧ Exact batch.requestedProfiles (fun _ => .completed) after := by
  obtain ⟨batch, after, hbatch, hafter, hiff⟩ := bookkeeping_exact_iff threeRuns_ok
    (fun _ => .completed) (fun _ => rfl) (reports ["m", "p", "x"]) (by simp [reports])
    (by simp [reports])
  refine ⟨batch, after, hbatch, hafter, hiff.2 ?_⟩
  have hrequested : (threeRuns.1.batch "b").map MemoryAnalysisBatch.requestedProfiles =
      some [.metadataOnly, .processesBasic, .processesExtended] := by decide +kernel
  have hreported : reported threeRuns.1 (reports ["m", "p", "x"]) =
      [.metadataOnly, .processesBasic, .processesExtended] := by decide +kernel
  have hbatch : threeRuns.1.batch "b" = some batch := hbatch
  rw [hbatch] at hrequested
  rw [hreported, Option.some.inj hrequested, InOrder, if_neg (by decide)]

/-- The second run is reported before the first, and never counted: every run has been
reported, and the batch still waits for it. -/
theorem threeRuns_not_exact : ∃ batch after, threeRuns.1.batch "b" = some batch ∧
    (deliverAll (fun _ => .completed) threeRuns.1 (reports ["p", "m", "x"])).batch "b" =
      some after ∧ after.status = .running ∧ after.currentProfile = some .processesBasic ∧
      ¬ Exact batch.requestedProfiles (fun _ => .completed) after := by
  have hbatch : (threeRuns.1.batch "b").isSome = true := by decide +kernel
  obtain ⟨batch, hbatch⟩ := Option.isSome_iff_exists.1 hbatch
  have hend : ((deliverAll (fun _ => .completed) threeRuns.1 (reports ["p", "m", "x"])).batch
      "b").map (fun b => (b.status, b.currentProfile)) = some (.running, some .processesBasic) := by
    decide +kernel
  obtain ⟨after, hafter, heq⟩ := Option.map_eq_some_iff.1 hend
  have hstatus : after.status = .running := congrArg Prod.fst heq
  refine ⟨batch, after, hbatch, hafter, hstatus, congrArg Prod.snd heq, ?_⟩
  intro hexact
  have hclosed := hexact.closed
  rw [MemoryAnalysisBatch.isActive, hstatus] at hclosed
  cases hclosed

end Kairon.Memory

/-
Kairon/Maintenance/Staging.lean

The administrative cleanup of the staging area of memory uploads.

`cleanup_memory_upload_staging` selects rows of `memory_uploads` by case, id,
age and number, collects the directories of the finished ones, adds every
directory whose name none of the selected rows has, and removes what it has
collected.  A directory counts as an orphan by the rows that were selected, not
by the rows there are: `cleanup_keeps_live_iff` says when that makes no
difference to a session that is still alive.

Times are in microseconds.  A table is the list of its rows in the order in
which the database returns them; a query without an order may return any.
-/
import Mathlib.Algebra.Order.Ring.Int
import Mathlib.Data.List.Nodup

namespace Kairon.Maintenance

/-! ### The rows -/

/-- The statuses of a row of `memory_uploads`. -/
inductive MemoryStatus
  | created | uploading | verifying | finalizing
  | completed | cancelled | expired | failed | inconsistent
  | validating | registrationPending
  deriving DecidableEq

namespace MemoryStatus

/-- `ACTIVE_UPLOAD_SESSION_STATUSES`. -/
def isActive (s : MemoryStatus) : Bool := s ∈ [created, uploading, verifying, finalizing]

/-- `TERMINAL_UPLOAD_SESSION_STATUSES`. -/
def isTerminal (s : MemoryStatus) : Bool :=
  s ∈ [completed, cancelled, expired, failed, inconsistent]

end MemoryStatus

/-- What the cleanup reads of a row. -/
structure MemoryUpload where
  id : String
  caseId : String
  status : MemoryStatus
  stagingName : String
  updatedAt : ℤ
  expiresAt : Option ℤ
  /-- What `_active_chunk_indices` finds in the metadata. -/
  activeChunks : List ℕ

/-- A session that may still go on. -/
def MemoryUpload.Live (u : MemoryUpload) : Prop := u.status.isTerminal = false

/-- A session whose staging the cleanup may take away. -/
def MemoryUpload.finished (u : MemoryUpload) : Bool :=
  u.status.isTerminal && u.activeChunks.isEmpty

/-! ### The staging area -/

/-- A link leads to the entry at which its chain of links ends, or nowhere in
the staging area. -/
inductive EntryKind
  | directory | file
  | link (target : Option String)
  deriving DecidableEq

structure Entry where
  name : String
  kind : EntryKind
  mtime : ℤ
  /-- `directory_size`. -/
  size : ℕ
  /-- `shutil.rmtree` goes through on it. -/
  removable : Bool

/-- The entries of the staging root, under different names. -/
structure Staging where
  entries : List Entry
  nodup : (entries.map Entry.name).Nodup

namespace Staging

variable (staging : Staging)

def find (name : String) : Option Entry := staging.entries.find? fun e => e.name = name

/-- `_session_root`: the entry a staging name resolves to; `none` where
`relative_to` raises. -/
def sessionRoot (name : String) : Option String :=
  match (staging.find name).map Entry.kind with
  | some (.link target) => target
  | _ => some name

def HasDirectory (name : String) : Prop :=
  ∃ e ∈ staging.entries, e.name = name ∧ e.kind = .directory

def sizeOf (name : String) : ℕ := ((staging.find name).map Entry.size).getD 0

/-- The staging area without an entry. -/
def without (name : String) : Staging where
  entries := staging.entries.filter fun e => e.name ≠ name
  nodup := staging.nodup.sublist (List.filter_sublist.map _)

/-- `list_orphan_directories`. -/
def listOrphanDirectories (knownNames : List String) (mtimeBefore : Option ℤ) : List String :=
  (staging.entries.filter fun e =>
    e.kind = .directory ∧ e.name ∉ knownNames ∧ mtimeBefore.all fun t => e.mtime ≤ t).map Entry.name

end Staging

/-! ### The cleanup -/

structure CleanupArgs where
  dryRun : Bool
  caseId : Option String
  uploadId : Option String
  olderThanHours : Option ℤ
  limit : Option ℤ

/-- The current time, and what `timestamp()` makes of a time without zone. -/
structure Clock where
  now : ℤ
  timestamp : ℤ → ℤ

/-- What the cleanup raises before it removes anything. -/
inductive CleanupFault
  | overflow
  | outsideStaging (name : String)

/-- An optional text as a condition. -/
def given (text : Option String) : Option String := text.filter fun s => s ≠ ""

/-- `datetime.min`. -/
def datetimeMin : ℤ := -62135596800000000

namespace CleanupArgs

variable (args : CleanupArgs)

/-- `utc_now_naive() - timedelta(hours=max(0, older_than_hours))`. -/
def cutoff (clock : Clock) : Except CleanupFault (Option ℤ) :=
  match args.olderThanHours with
  | none => .ok none
  | some hours =>
    let t := clock.now - max 0 hours * 3600000000
    if t < datetimeMin then .error .overflow else .ok (some t)

/-- `max(1, int(limit))`. -/
def cap : Option ℕ := args.limit.map fun n => (max 1 n).toNat

/-- A list as far as the limit allows. -/
def capped {α : Type} (rows : List α) : List α :=
  match args.cap with
  | none => rows
  | some n => rows.take n

/-- The rows that the query returns. -/
def selected (cutoff : Option ℤ) (table : List MemoryUpload) : List MemoryUpload :=
  args.capped (table.filter fun u =>
    ((given args.caseId).all fun c => u.caseId = c) &&
      ((given args.uploadId).all fun i => u.id = i) && cutoff.all fun t => u.updatedAt < t)

end CleanupArgs

/-- The counters of the cleanup, and the directories it has collected. -/
structure Tally where
  activeSkipped : ℕ := 0
  expiredSessions : ℕ := 0
  orphanDirs : ℕ := 0
  missingStaging : ℕ := 0
  completedWithStaging : ℕ := 0
  bytesReclaimable : ℕ := 0
  candidates : List String := []

namespace Tally

variable (tally : Tally)

/-- One more directory to remove. -/
def collect (staging : Staging) (dir : String) : Tally :=
  { tally with
    bytesReclaimable := tally.bytesReclaimable + staging.sizeOf dir
    candidates := tally.candidates ++ [dir] }

/-- The body of the loop over the selected rows. -/
def inspect (now : ℤ) (staging : Staging) (u : MemoryUpload) : Except CleanupFault Tally :=
  match staging.sessionRoot u.stagingName with
  | none => .error (.outsideStaging u.stagingName)
  | some root =>
    let present := (staging.find root).isSome
    if u.status.isActive || !u.activeChunks.isEmpty then
      .ok (if present then { tally with activeSkipped := tally.activeSkipped + 1 } else tally)
    else
      let tally :=
        if (u.expiresAt.any fun t => t < now) && u.status ≠ .completed then
          { tally with expiredSessions := tally.expiredSessions + 1 }
        else tally
      if !present then
        .ok (if u.status ≠ .completed then
          { tally with missingStaging := tally.missingStaging + 1 } else tally)
      else if u.status = .completed then
        .ok (Tally.collect
          { tally with completedWithStaging := tally.completedWithStaging + 1 } staging root)
      else if u.status.isTerminal then .ok (tally.collect staging root)
      else .ok tally

/-- The body of the loop over the orphans. -/
def orphan (staging : Staging) (dir : String) : Tally :=
  Tally.collect { tally with orphanDirs := tally.orphanDirs + 1 } staging dir

end Tally

structure CleanupReport where
  dryRun : Bool
  sessionsInspected : ℕ
  tally : Tally
  bytesRemoved : ℕ
  /-- The directories on which `rmtree` has raised. -/
  errors : List String

/-- What is collected, before the limit. -/
def collectCandidates (clock : Clock) (args : CleanupArgs) (table : List MemoryUpload)
    (staging : Staging) : Except CleanupFault (ℕ × Tally) := do
  let cutoff ← args.cutoff clock
  let uploads := args.selected cutoff table
  let tally ← uploads.foldlM (fun tally u => tally.inspect clock.now staging u) {}
  let tally :=
    if (given args.uploadId).isSome then tally
    else
      (staging.listOrphanDirectories (uploads.map MemoryUpload.stagingName)
        (cutoff.map clock.timestamp)).foldl (fun tally dir => tally.orphan staging dir) tally
  pure (uploads.length, tally)

/-- The loop that removes: the staging area, the bytes removed and the
errors. -/
def removeAll : List String → Staging × ℕ × List String → Staging × ℕ × List String
  | [], state => state
  | dir :: dirs, (staging, removed, errors) =>
    match staging.find dir with
    | some e =>
      if e.kind = .directory ∧ e.removable then
        removeAll dirs (staging.without dir, removed + e.size, errors)
      else removeAll dirs (staging, removed, errors ++ [dir])
    | none => removeAll dirs (staging, removed, errors ++ [dir])

/-- `cleanup_memory_upload_staging`: its report, and the staging area it leaves
behind. -/
def cleanupMemoryUploadStaging (clock : Clock) (args : CleanupArgs) (table : List MemoryUpload)
    (staging : Staging) : Except CleanupFault CleanupReport × Staging :=
  match collectCandidates clock args table staging with
  | .error fault => (.error fault, staging)
  | .ok (inspected, tally) =>
    let (after, removed, errors) :=
      if args.dryRun then (staging, 0, [])
      else removeAll (args.capped tally.candidates) (staging, 0, [])
    (.ok ⟨args.dryRun, inspected, tally, removed, errors⟩, after)

/-! ### What is collected -/

namespace Staging

variable (staging : Staging)

/-- The directories of the finished rows. -/
def finishedRoots (uploads : List MemoryUpload) : List String :=
  uploads.filterMap fun u =>
    if u.finished then
      (staging.sessionRoot u.stagingName).filter fun root => (staging.find root).isSome
    else none

/-- A directory that `rmtree` removes. -/
def Removable (dir : String) : Prop :=
  ∃ e ∈ staging.entries, e.name = dir ∧ e.kind = .directory ∧ e.removable = true

/-- The directory of a finished row among those selected. -/
def SharedWithFinished (uploads : List MemoryUpload) (dir : String) : Prop :=
  ∃ u ∈ uploads, u.finished = true ∧ staging.sessionRoot u.stagingName = some dir

/-- A directory, old enough, whose name no selected row has. -/
def Unclaimed (uploads : List MemoryUpload) (mtimeBefore : Option ℤ) (dir : String) : Prop :=
  (∀ u ∈ uploads, u.stagingName ≠ dir) ∧
    ∃ e ∈ staging.entries, e.name = dir ∧ ∀ t, mtimeBefore = some t → e.mtime ≤ t

end Staging

/-- All that is collected: the directories of the finished rows, then the
orphans. -/
def CleanupArgs.collected (args : CleanupArgs) (clock : Clock) (cutoff : Option ℤ)
    (table : List MemoryUpload) (staging : Staging) : List String :=
  staging.finishedRoots (args.selected cutoff table) ++ if (given args.uploadId).isSome then []
    else
      staging.listOrphanDirectories ((args.selected cutoff table).map MemoryUpload.stagingName)
        (cutoff.map clock.timestamp)

section

variable {clock : Clock} {args : CleanupArgs} {table : List MemoryUpload} {staging : Staging}

theorem find_eq_some {name : String} {e : Entry} :
    staging.find name = some e ↔ e ∈ staging.entries ∧ e.name = name := by
  constructor
  · intro h
    exact ⟨List.mem_of_find?_eq_some h, by simpa using List.find?_some h⟩
  · rintro ⟨he, rfl⟩
    -- names are different, so the first entry of the name is the entry
    have hinj := List.inj_on_of_nodup_map staging.nodup
    rcases hfind : staging.find e.name with - | e'
    · have hnone := List.find?_eq_none.1 hfind e he
      simp at hnone
    · have hname : e'.name = e.name := by simpa using List.find?_some hfind
      rw [hinj (List.mem_of_find?_eq_some hfind) he hname]

variable {dir : String}

theorem hasDirectory_iff :
    staging.HasDirectory dir ↔ ∃ e, staging.find dir = some e ∧ e.kind = .directory := by
  simp only [Staging.HasDirectory, find_eq_some, and_assoc]

theorem removable_iff : staging.Removable dir ↔
      ∃ e, staging.find dir = some e ∧ e.kind = .directory ∧ e.removable = true := by
  simp only [Staging.Removable, find_eq_some, and_assoc]

variable {u : MemoryUpload}

theorem not_finished_of_active
    (h : (u.status.isActive || !u.activeChunks.isEmpty) = true) : u.finished = false := by
  rw [MemoryUpload.finished]
  cases hchunks : u.activeChunks.isEmpty with
  | false => simp
  | true =>
    rw [hchunks] at h
    cases hstatus : u.status <;> simp_all [MemoryStatus.isActive, MemoryStatus.isTerminal]

theorem finished_of_not_active (h : ¬ (u.status.isActive || !u.activeChunks.isEmpty) = true) :
    u.finished = u.status.isTerminal := by
  simp only [Bool.or_eq_true, Bool.not_eq_true', not_or, Bool.not_eq_false] at h
  rw [MemoryUpload.finished, h.2, Bool.and_true]

/-- A row adds its directory if it is finished. -/
theorem inspect_of_root (tally : Tally) (now : ℤ) {root : String}
    (hroot : staging.sessionRoot u.stagingName = some root) :
    ∃ tally', tally.inspect now staging u = .ok tally' ∧
      tally'.candidates = tally.candidates ++ staging.finishedRoots [u] := by
  have hroots : staging.finishedRoots [u] =
      if u.finished ∧ (staging.find root).isSome then [root] else [] := by
    rw [Staging.finishedRoots, List.filterMap_cons, List.filterMap_nil, hroot]
    cases u.finished with
    | false => simp
    | true =>
      cases hfind : (staging.find root).isSome with
      | false | true => simp [Option.filter, hfind]
  rw [Tally.inspect, hroot, hroots]
  dsimp only
  by_cases hactive : (u.status.isActive || !u.activeChunks.isEmpty) = true
  · rw [if_pos hactive, not_finished_of_active hactive]
    refine ⟨_, rfl, ?_⟩
    split
    · simp
    · simp
  rw [if_neg hactive, finished_of_not_active hactive]
  -- the counter of expired sessions leaves the candidates alone
  generalize htally : (if ((u.expiresAt.any fun t => decide (t < now)) &&
      decide (u.status ≠ .completed)) = true then
    { tally with expiredSessions := tally.expiredSessions + 1 } else tally) = tally'
  have hsame : tally'.candidates = tally.candidates := by
    rw [← htally]
    split
    · rfl
    · rfl
  rw [← hsame]
  cases hfind : (staging.find root).isSome with
  | false =>
    refine ⟨_, rfl, ?_⟩
    split
    · simp
    · simp
  | true =>
    by_cases hcompleted : u.status = .completed
    · refine ⟨_, if_pos hcompleted, ?_⟩
      simp [hcompleted, MemoryStatus.isTerminal, Tally.collect]
    · rw [if_neg (by simp), if_neg hcompleted]
      split
      · rename_i hterminal
        exact ⟨_, rfl, by simp [hterminal, Tally.collect]⟩
      · rename_i hterminal
        exact ⟨_, rfl, by simp [hterminal]⟩

theorem foldlM_inspect (staging : Staging) (now : ℤ) (uploads : List MemoryUpload) (tally : Tally) :
    ((∃ u ∈ uploads, staging.sessionRoot u.stagingName = none) ∧
        ∃ fault, uploads.foldlM (fun tally u => tally.inspect now staging u) tally = .error fault) ∨
      (∀ u ∈ uploads, staging.sessionRoot u.stagingName ≠ none) ∧
        ∃ tally', uploads.foldlM (fun tally u => tally.inspect now staging u) tally = .ok tally' ∧
          tally'.candidates = tally.candidates ++ staging.finishedRoots uploads := by
  induction uploads generalizing tally with
  | nil => exact .inr ⟨by simp, tally, rfl, by simp [Staging.finishedRoots]⟩
  | cons u uploads ih =>
    rw [List.foldlM_cons]
    cases hroot : staging.sessionRoot u.stagingName with
    | none =>
      refine .inl ⟨⟨u, by simp, hroot⟩, .outsideStaging u.stagingName, ?_⟩
      rw [Tally.inspect, hroot]
      rfl
    | some root =>
      obtain ⟨tally₁, hinspect, hcandidates⟩ := inspect_of_root tally now hroot
      rw [hinspect]
      obtain ⟨⟨v, hv, hnone⟩, herror⟩ | ⟨hall, tally', hok, hrest⟩ := ih tally₁
      · exact .inl ⟨⟨v, by simp [hv], hnone⟩, herror⟩
      · refine .inr ⟨?_, tally', hok, ?_⟩
        · intro v hv
          obtain rfl | hv := List.mem_cons.1 hv
          · simp [hroot]
          · exact hall v hv
        · have hcons : staging.finishedRoots ([u] ++ uploads) =
              staging.finishedRoots [u] ++ staging.finishedRoots uploads :=
            List.filterMap_append
          rw [List.singleton_append] at hcons
          rw [hrest, hcandidates, hcons, List.append_assoc]

theorem foldl_orphan (staging : Staging) (dirs : List String) (tally : Tally) :
    (dirs.foldl (fun tally dir => tally.orphan staging dir) tally).candidates =
      tally.candidates ++ dirs := by
  induction dirs generalizing tally with
  | nil => simp
  | cons dir dirs ih =>
    rw [List.foldl_cons, ih]
    simp [Tally.orphan, Tally.collect]

variable {cutoff : Option ℤ}

/-- The cleanup raises where a selected row has no place in the staging area, and
else collects what `collected` says. -/
theorem collectCandidates_eq (table : List MemoryUpload) (staging : Staging)
    (hcutoff : args.cutoff clock = .ok cutoff) :
    ((∃ u ∈ args.selected cutoff table, staging.sessionRoot u.stagingName = none) ∧
        ∃ fault, collectCandidates clock args table staging = .error fault) ∨
      (∀ u ∈ args.selected cutoff table, staging.sessionRoot u.stagingName ≠ none) ∧
        ∃ n tally, collectCandidates clock args table staging = .ok (n, tally) ∧
          tally.candidates = args.collected clock cutoff table staging := by
  rw [collectCandidates, hcutoff]
  simp only [bind, Except.bind]
  obtain ⟨hnone, fault, herror⟩ | ⟨hall, tally, hok, hcandidates⟩ :=
    foldlM_inspect staging clock.now (args.selected cutoff table) {}
  · exact .inl ⟨hnone, fault, by rw [herror]⟩
  · refine .inr ⟨hall, ?_⟩
    rw [hok]
    refine ⟨_, _, rfl, ?_⟩
    rw [CleanupArgs.collected]
    split
    · rw [hcandidates]
      simp
    · rw [foldl_orphan, hcandidates]
      simp

/-! ### What is removed -/

theorem without_hasDirectory {dir name : String} :
    (staging.without name).HasDirectory dir ↔ staging.HasDirectory dir ∧ dir ≠ name := by
  constructor
  · rintro ⟨e, he, rfl, hkind⟩
    obtain ⟨he, hne⟩ := List.mem_filter.1 he
    exact ⟨⟨e, he, rfl, hkind⟩, by simpa using hne⟩
  · rintro ⟨⟨e, he, rfl, hkind⟩, hne⟩
    exact ⟨e, List.mem_filter.2 ⟨he, by simpa using hne⟩, rfl, hkind⟩

theorem without_removable {dir name : String} (hne : dir ≠ name) :
    (staging.without name).Removable dir ↔ staging.Removable dir := by
  constructor
  · rintro ⟨e, he, rfl, hkind⟩
    exact ⟨e, (List.mem_filter.1 he).1, rfl, hkind⟩
  · rintro ⟨e, he, rfl, hkind⟩
    exact ⟨e, List.mem_filter.2 ⟨he, by simpa using hne⟩, rfl, hkind⟩

/-- The loop takes away exactly the removable directories of its list. -/
theorem removeAll_hasDirectory (dirs : List String) (staging : Staging) (removed : ℕ)
    (errors : List String) (dir : String) :
    (removeAll dirs (staging, removed, errors)).1.HasDirectory dir ↔
      staging.HasDirectory dir ∧ ¬ (dir ∈ dirs ∧ staging.Removable dir) := by
  induction dirs generalizing staging removed errors with
  | nil => simp [removeAll]
  | cons name dirs ih =>
    -- an entry that is not removed is no removable directory
    have hskip : ¬ staging.Removable name → ∀ removed errors,
        (removeAll dirs (staging, removed, errors)).1.HasDirectory dir ↔
          staging.HasDirectory dir ∧ ¬ (dir ∈ name :: dirs ∧ staging.Removable dir) := by
      intro hname removed errors
      rw [ih, List.mem_cons]
      by_cases hdir : dir = name
      · simp [hdir, hname]
      · simp [hdir]
    rw [removeAll]
    cases hfind : staging.find name with
    | none =>
      refine hskip ?_ _ _
      rw [removable_iff, hfind]
      simp
    | some e =>
      dsimp only
      split
      · rename_i he
        rw [ih, without_hasDirectory, List.mem_cons]
        by_cases hdir : dir = name
        · have hremovable : staging.Removable name := removable_iff.2 ⟨e, hfind, he⟩
          simp [hdir, hremovable]
        · rw [without_removable hdir]
          simp [hdir]
      · rename_i he
        refine hskip ?_ _ _
        rw [removable_iff, hfind]
        rintro ⟨e', he', hkind⟩
        cases he'
        exact he hkind

theorem mem_collected (hdir : staging.HasDirectory dir) :
    dir ∈ args.collected clock cutoff table staging ↔
      staging.SharedWithFinished (args.selected cutoff table) dir ∨ (given args.uploadId = none ∧
          staging.Unclaimed (args.selected cutoff table) (cutoff.map clock.timestamp) dir) := by
  obtain ⟨e, hfind, hkind⟩ := hasDirectory_iff.1 hdir
  have hshared : dir ∈ staging.finishedRoots (args.selected cutoff table) ↔
      staging.SharedWithFinished (args.selected cutoff table) dir := by
    rw [Staging.finishedRoots, List.mem_filterMap, Staging.SharedWithFinished]
    refine exists_congr fun u => and_congr_right fun _ => ?_
    cases u.finished with
    | false => simp
    | true =>
      rw [if_pos rfl, Option.filter_eq_some_iff, hfind]
      simp
  have horphan : dir ∈ staging.listOrphanDirectories
        ((args.selected cutoff table).map MemoryUpload.stagingName)
        (cutoff.map clock.timestamp) ↔
      staging.Unclaimed (args.selected cutoff table) (cutoff.map clock.timestamp) dir := by
    rw [Staging.listOrphanDirectories, List.mem_map, Staging.Unclaimed]
    constructor
    · rintro ⟨e', he', rfl⟩
      obtain ⟨hmem, hcond⟩ := List.mem_filter.1 he'
      have hcond := of_decide_eq_true hcond
      refine ⟨fun u hu hname => hcond.2.1 (List.mem_map.2 ⟨u, hu, hname⟩), e', hmem, rfl, ?_⟩
      intro t ht
      have hage := hcond.2.2
      rw [ht] at hage
      simpa using hage
    · rintro ⟨hname, e', hmem, rfl, hage⟩
      obtain rfl : e' = e := Option.some.inj ((find_eq_some.2 ⟨hmem, rfl⟩).symm.trans hfind)
      refine ⟨e', List.mem_filter.2 ⟨hmem, decide_eq_true ⟨hkind, ?_, ?_⟩⟩, rfl⟩
      · intro h
        obtain ⟨u, hu, huname⟩ := List.mem_map.1 h
        exact hname u hu huname
      · cases hbefore : cutoff.map clock.timestamp with
        | none => rfl
        | some t => simpa using hage t hbefore
  rw [CleanupArgs.collected, List.mem_append, hshared]
  cases hgiven : given args.uploadId with
  | none => simp [horphan]
  | some i => simp

/-- The directory is reached before the limit is. -/
def CleanupArgs.WithinLimit (args : CleanupArgs) (clock : Clock) (cutoff : Option ℤ)
    (table : List MemoryUpload) (staging : Staging) (dir : String) : Prop :=
  ∀ n, args.cap = some n → (args.collected clock cutoff table staging).idxOf dir < n

theorem mem_capped {l : List String} :
    dir ∈ args.capped l ↔ dir ∈ l ∧ ∀ n, args.cap = some n → l.idxOf dir < n := by
  rw [CleanupArgs.capped]
  cases args.cap with
  | none => simp
  | some n =>
    constructor
    · intro h
      have hmem := List.mem_of_mem_take h
      refine ⟨hmem, ?_⟩
      rintro m ⟨⟩
      exact (List.mem_take_iff_idxOf_lt hmem).1 h
    · rintro ⟨hmem, hlt⟩
      exact (List.mem_take_iff_idxOf_lt hmem).2 (hlt n rfl)

theorem cutoff_error {fault : CleanupFault} (h : args.cutoff clock = .error fault) :
    fault = .overflow := by
  rw [CleanupArgs.cutoff] at h
  split at h
  · cases h
  · dsimp only at h
    split at h
    · cases h
      rfl
    · cases h

theorem Staging.Removable.hasDirectory (h : staging.Removable dir) : staging.HasDirectory dir := by
  obtain ⟨e, he, hname, hkind, -⟩ := h
  exact ⟨e, he, hname, hkind⟩

theorem cleanup_of_error {fault : CleanupFault}
    (h : collectCandidates clock args table staging = .error fault) :
    (cleanupMemoryUploadStaging clock args table staging).2 = staging := by
  rw [cleanupMemoryUploadStaging, h]

theorem cleanup_of_dryRun (h : args.dryRun = true) :
    (cleanupMemoryUploadStaging clock args table staging).2 = staging := by
  rw [cleanupMemoryUploadStaging]
  cases collectCandidates clock args table staging with
  | error fault => rfl
  | ok collected =>
    rw [h]
    rfl

/-- The directories that a run removes: removable, within the limit, and either
of a finished session or unclaimed. -/
theorem cleanup_hasDirectory (hdry : ¬ args.dryRun = true)
    (hcutoff : args.cutoff clock = .ok cutoff)
    (hall : ∀ u ∈ args.selected cutoff table, staging.sessionRoot u.stagingName ≠ none)
    (hdir : staging.HasDirectory dir) :
    (cleanupMemoryUploadStaging clock args table staging).2.HasDirectory dir ↔
      ¬ (staging.Removable dir ∧ args.WithinLimit clock cutoff table staging dir ∧
        (staging.SharedWithFinished (args.selected cutoff table) dir ∨ (given args.uploadId = none ∧
            staging.Unclaimed (args.selected cutoff table) (cutoff.map clock.timestamp) dir))) := by
  obtain ⟨⟨u, hu, hnone⟩, -⟩ | ⟨-, n, tally, hok, hcandidates⟩ :=
    collectCandidates_eq table staging hcutoff
  · exact absurd hnone (hall u hu)
  rw [cleanupMemoryUploadStaging, hok]
  dsimp only
  rw [if_neg hdry, removeAll_hasDirectory, hcandidates, mem_capped, mem_collected hdir,
    CleanupArgs.WithinLimit]
  tauto

end

/-- The cleanup leaves the directory of every live session where it is. -/
def KeepsLive (clock : Clock) (args : CleanupArgs) (table : List MemoryUpload)
    (staging : Staging) : Prop :=
  ∀ u ∈ table, u.Live → ∀ dir, staging.sessionRoot u.stagingName = some dir →
    staging.HasDirectory dir →
      (cleanupMemoryUploadStaging clock args table staging).2.HasDirectory dir

/-- The cleanup keeps the directory of every live session exactly if it is a dry
run, if it raises before it removes anything, or if every such directory that
can be removed and is reached within the limit is named by a selected row (or
the call is about one upload, or the directory is younger than the cutoff) and
is not the directory of a selected finished session too. -/
theorem cleanup_keeps_live_iff (clock : Clock) (args : CleanupArgs) (table : List MemoryUpload)
    (staging : Staging) :
    KeepsLive clock args table staging ↔ args.dryRun = true ∨ args.cutoff clock = .error .overflow ∨
        ∃ cutoff, args.cutoff clock = .ok cutoff ∧
          ((∃ u ∈ args.selected cutoff table, staging.sessionRoot u.stagingName = none) ∨
            ∀ u ∈ table, u.Live → ∀ dir, staging.sessionRoot u.stagingName = some dir →
              staging.Removable dir → args.WithinLimit clock cutoff table staging dir →
                ¬ staging.SharedWithFinished (args.selected cutoff table) dir ∧
                (given args.uploadId = none → ¬ staging.Unclaimed (args.selected cutoff table)
                    (cutoff.map clock.timestamp) dir)) := by
  constructor
  · intro hkeeps
    by_cases hdry : args.dryRun = true
    · exact .inl hdry
    cases hcutoff : args.cutoff clock with
    | error fault => exact .inr (.inl (by rw [cutoff_error hcutoff]))
    | ok cutoff =>
      refine .inr (.inr ⟨cutoff, rfl, ?_⟩)
      by_cases hall : ∀ u ∈ args.selected cutoff table, staging.sessionRoot u.stagingName ≠ none
      · right
        intro u hu hlive dir hroot hremovable hwithin
        have hdir := hremovable.hasDirectory
        have hkept := (cleanup_hasDirectory hdry hcutoff hall hdir).1
          (hkeeps u hu hlive dir hroot hdir)
        exact ⟨fun hshared => hkept ⟨hremovable, hwithin, .inl hshared⟩,
          fun hgiven hunclaimed => hkept ⟨hremovable, hwithin, .inr ⟨hgiven, hunclaimed⟩⟩⟩
      · left
        push Not at hall
        exact hall
  · rintro (hdry | hoverflow | ⟨cutoff, hcutoff, hnone | hsafe⟩) u hu hlive dir hroot hdir
    · rw [cleanup_of_dryRun hdry]
      exact hdir
    · rw [cleanup_of_error (by rw [collectCandidates, hoverflow]; rfl)]
      exact hdir
    · obtain ⟨-, fault, herror⟩ | ⟨hall, -⟩ :=
        collectCandidates_eq table staging hcutoff
      · rw [cleanup_of_error herror]
        exact hdir
      · obtain ⟨v, hv, hvroot⟩ := hnone
        exact absurd hvroot (hall v hv)
    · by_cases hdry : args.dryRun = true
      · rw [cleanup_of_dryRun hdry]
        exact hdir
      obtain ⟨-, fault, herror⟩ | ⟨hall, -⟩ :=
        collectCandidates_eq table staging hcutoff
      · rw [cleanup_of_error herror]
        exact hdir
      · rw [cleanup_hasDirectory hdry hcutoff hall hdir]
        rintro ⟨hremovable, hwithin, hshared | ⟨hgiven, hunclaimed⟩⟩
        · exact (hsafe u hu hlive dir hroot hremovable hwithin).1 hshared
        · exact (hsafe u hu hlive dir hroot hremovable hwithin).2 hgiven hunclaimed

/-- A session of case `b` that takes chunks. -/
def uploadOfCaseB : MemoryUpload := ⟨"u", "b", .uploading, "d", 0, none, []⟩

/-- The directory of that session. -/
def oneDirectory : Staging := ⟨[⟨"d", .directory, 0, 1, true⟩], by decide⟩

/-- A cleanup of case `a`. -/
def cleanupOfCaseA : CleanupArgs := ⟨false, some "a", none, none, none⟩

/-- A cleanup of one case removes the directory of a live session of another. -/
theorem other_case_removed : ¬ KeepsLive ⟨0, id⟩ cleanupOfCaseA [uploadOfCaseB] oneDirectory := by
  intro hkeeps
  have hroot : oneDirectory.sessionRoot uploadOfCaseB.stagingName = some "d" := by decide +kernel
  have hdir : oneDirectory.HasDirectory "d" := ⟨_, List.mem_singleton_self _, rfl, rfl⟩
  obtain ⟨e, he, -⟩ := hkeeps uploadOfCaseB (List.mem_singleton_self _) rfl "d" hroot hdir
  have hempty : (cleanupMemoryUploadStaging ⟨0, id⟩ cleanupOfCaseA [uploadOfCaseB]
      oneDirectory).2.entries = [] := by decide +kernel
  rw [hempty] at he
  cases he

end Kairon.Maintenance

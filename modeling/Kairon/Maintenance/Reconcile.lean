/-
Kairon/Maintenance/Reconcile.lean

The reconciliation of evidence operations with the upload sessions they belong
to.

`reconcile_evidence_operations` loads at most 500 sessions, brings the operation
of each up to date, and then fails every live operation, among at most 500,
whose session is not one of those loaded.  `reconcile_spares_live_iff` says when
no operation is failed whose session exists.

The database session does not flush before a query: a query filters the rows as
they are stored, and returns the objects as they have been changed since.  A
`Row` holds both.  A table is the list of its rows in the order in which the
database returns them.
-/
import Mathlib.Algebra.Order.Ring.Int
import Mathlib.Data.List.Basic

namespace Kairon.Maintenance

/-! ### Sessions and operations -/

/-- `EvidenceUploadSessionStatus`. -/
inductive SessionStatus
  | created | uploading | interrupted | preflightRunning | staged
  | promoted | cancelled | expired | failed
  deriving DecidableEq

namespace SessionStatus

def text : SessionStatus → String
  | created => "created"
  | uploading => "uploading"
  | interrupted => "interrupted"
  | preflightRunning => "preflight_running"
  | staged => "staged"
  | promoted => "promoted"
  | cancelled => "cancelled"
  | expired => "expired"
  | failed => "failed"

/-- The statuses in which a session can expire. -/
def canExpire (s : SessionStatus) : Bool := s ∈ [created, uploading, interrupted, staged]

/-- `_STAGE_PRESERVING_SESSION_STATUSES`. -/
def preservesStage (s : SessionStatus) : Bool := s ∈ [preflightRunning, staged, failed]

/-- The owner of the operation of a session. -/
def owner (s : SessionStatus) : String :=
  if s ∈ [created, uploading, interrupted] then "browser"
  else if s ∈ [preflightRunning, staged] then "backend"
  else "database"

end SessionStatus

/-- What the reconciliation reads and writes of a row of
`evidence_upload_sessions`. -/
structure EvidenceUploadSession where
  id : String
  caseId : String
  status : SessionStatus
  stagedPath : String
  isServerPath : Bool
  /-- `metadata_json["backend"] == "unified"`. -/
  unified : Bool
  /-- `metadata_json["current_stage"]`. -/
  currentStage : Option String
  expiresAt : Option ℤ
  promotedEvidenceId : Option String
  failureMessage : Option String

inductive OperationStatus
  | created | waitingUpload | uploading | paused | finalizing | verifying | preflight
  | readyForPromotion | waitingUser | promoting | queued | running
  | failed | cancelled | expired | completed
  deriving DecidableEq

namespace OperationStatus

/-- `TERMINAL_OPERATION_STATUSES`. -/
def isTerminal (s : OperationStatus) : Bool := s ∈ [completed, failed, cancelled, expired]

/-- `ALLOWED_OPERATION_TRANSITIONS`. -/
def allowed : OperationStatus → List OperationStatus
  | created => [waitingUpload, uploading, cancelled, failed]
  | waitingUpload => [uploading, paused, cancelled, expired, failed]
  | uploading => [paused, finalizing, cancelled, expired, failed]
  | paused => [uploading, finalizing, cancelled, expired, failed]
  | finalizing => [verifying, preflight, readyForPromotion, failed]
  | verifying => [preflight, readyForPromotion, failed]
  | preflight => [readyForPromotion, waitingUser, failed]
  | readyForPromotion => [waitingUser, promoting, cancelled, failed]
  | waitingUser => [promoting, cancelled, failed]
  | promoting => [queued, running, completed, failed]
  | queued => [running, completed, failed, cancelled]
  | running => [completed, failed, cancelled]
  | failed => [queued, running, finalizing, preflight, promoting, cancelled]
  | cancelled => []
  | expired => []
  | completed => []

end OperationStatus

/-- `_operation_status`. -/
def operationStatus : SessionStatus → OperationStatus
  | .created => .waitingUpload
  | .uploading => .uploading
  | .preflightRunning => .preflight
  | .staged => .waitingUser
  | .promoted => .completed
  | .cancelled => .cancelled
  | .expired => .expired
  | .failed => .failed
  | .interrupted => .paused

/-- What the reconciliation reads and writes of a row of `evidence_operations`. -/
structure EvidenceOperation where
  caseId : String
  uploadSessionId : Option String
  evidenceId : Option String
  kind : String
  status : OperationStatus
  stage : Option String
  owner : String
  lastError : Option String
  completedAt : Option ℤ

inductive ReconcileFault
  | multipleResults (sessionId : String)
  | invalidTransition (current status : OperationStatus)

/-- `transition_operation`. -/
def transitionOperation (now : ℤ) (operation : EvidenceOperation) (status : OperationStatus)
    (stage owner error : Option String) (force : Bool) :
    Except ReconcileFault EvidenceOperation :=
  if operation.status ≠ status ∧ !force ∧ status ∉ operation.status.allowed then
    .error (.invalidTransition operation.status status)
  else
    .ok { operation with
      status := status
      stage := stage.or operation.stage
      owner := owner.getD operation.owner
      lastError := error
      completedAt := if status.isTerminal then operation.completedAt.or (some now) else none }

/-- `PREFLIGHT_SUBSTAGES`. -/
def preflightSubstages : List String :=
  ["verifying_integrity", "classifying", "inspecting_evidence", "preparing_evidence",
    "preflight_complete"]

/-- `derive_operation_stage`. -/
def deriveOperationStage (session : EvidenceUploadSession) (operationStage : Option String) :
    String :=
  match operationStage.filter fun stage => stage ∈ preflightSubstages with
  | some stage =>
    if session.status.preservesStage then stage
    else (session.currentStage.filter fun s => s ≠ "").getD session.status.text
  | none => (session.currentStage.filter fun s => s ≠ "").getD session.status.text

/-! ### The database -/

inductive IngestStatus
  | pending | processing | completed | completedWithErrors | failed

/-- A directory of the upload sessions, or a file beside them. -/
structure UploadDir where
  name : String
  isDirectory : Bool
  mtime : ℤ
  empty : Bool

structure Database where
  sessions : List EvidenceUploadSession
  operations : List EvidenceOperation
  /-- `db.get(Evidence, id)`, as far as its `ingest_status`. -/
  evidence : String → Option IngestStatus
  dirs : List UploadDir
  /-- The staged files outside the session directories. -/
  files : List String

/-- The time, and which texts `UUID` reads. -/
structure ReconcileEnv where
  now : ℤ
  isUuid : String → Bool
  retentionSeconds : ℤ

/-- A row of `evidence_operations` as it is stored, and as the session has
changed it. -/
structure Row where
  stored : EvidenceOperation
  current : EvidenceOperation

structure ReconcileStats where
  sessionsWithoutOperations : ℕ := 0
  operationsWithoutSessions : ℕ := 0
  operationsSyncedFromEvidence : ℕ := 0
  expiredUploads : ℕ := 0
  orphanUploadDirs : ℕ := 0
  removedEmptyDirs : ℕ := 0

/-- The state of a reconciliation: the operations loaded and added, the sessions
already seen, what is on disk, the counters, and the operations that have been
failed because their session is missing. -/
structure Reconciliation where
  rows : List Row
  added : List EvidenceOperation
  seen : List EvidenceUploadSession
  dirs : List UploadDir
  files : List String
  stats : ReconcileStats
  missing : List EvidenceOperation

section

variable (env : ReconcileEnv) (db : Database)

/-- The operations of a session, as they are stored. -/
def storedFor (sessionId : String) (rows : List Row) : List Row :=
  rows.filter fun row => row.stored.uploadSessionId = some sessionId

/-- The evidence of a session that has been promoted, if it still exists. -/
def promotedEvidence (session : EvidenceUploadSession) : Option String :=
  (session.promotedEvidenceId.filter fun id => id ≠ "" && env.isUuid id).filter fun id =>
    (db.evidence id).isSome

/-- What `sync_upload_operation` writes into the operation of a session. -/
def syncedOperation (session : EvidenceUploadSession) (operation : EvidenceOperation) :
    Except ReconcileFault EvidenceOperation :=
  transitionOperation env.now
    { operation with caseId := session.caseId, evidenceId := promotedEvidence env db session }
    (operationStatus session.status) (some (deriveOperationStage session operation.stage))
    (some session.status.owner) session.failureMessage true

/-- The operation that `sync_upload_operation` adds for a session without one. -/
def newOperation (session : EvidenceUploadSession) : EvidenceOperation :=
  ⟨session.caseId, some session.id, none, "upload", .created, none, "backend", none, none⟩

/-- The filter of `get_operation_for_session`. -/
def Row.isUploadOf (sessionId : String) (row : Row) : Bool :=
  row.stored.uploadSessionId = some sessionId && row.stored.kind = "upload"

/-- `sync_upload_operation`. -/
def syncUploadOperation (session : EvidenceUploadSession) (r : Reconciliation) :
    Except ReconcileFault Reconciliation :=
  match r.rows.filter (Row.isUploadOf session.id) with
  | [] => do
      let operation ← syncedOperation env db session (newOperation session)
      pure { r with added := r.added ++ [operation] }
  | [row] => do
      let operation ← syncedOperation env db session row.current
      pure { r with
        rows := r.rows.map fun row =>
          if row.isUploadOf session.id then { row with current := operation } else row }
  | _ => .error (.multipleResults session.id)

/-- `_is_before_now`. -/
def isBeforeNow (time : Option ℤ) (now : ℤ) : Bool := time.any fun t => t < now

/-- `_cleanup_storage`. -/
def cleanupStorage (session : EvidenceUploadSession) (r : Reconciliation) : Reconciliation :=
  if session.isServerPath || session.unified then r
  else if r.dirs.any fun dir => dir.name = session.id then
    { r with dirs := r.dirs.filter fun dir => dir.name ≠ session.id }
  else { r with files := r.files.filter fun file => file ≠ session.stagedPath }

/-- The query for the operation of a session, which is only counted. -/
def countOperation (session : EvidenceUploadSession) (r : Reconciliation) :
    Except ReconcileFault Reconciliation :=
  match storedFor session.id r.rows with
  | [] =>
    .ok { r with stats :=
      { r.stats with sessionsWithoutOperations := r.stats.sessionsWithoutOperations + 1 } }
  | [_] => .ok r
  | _ => .error (.multipleResults session.id)

/-- A session whose time is over loses its storage and expires. -/
def expireSession (session : EvidenceUploadSession) (r : Reconciliation) :
    EvidenceUploadSession × Reconciliation :=
  if !session.unified && session.status.canExpire && isBeforeNow session.expiresAt env.now then
    let r := cleanupStorage session r
    ({ session with
        status := .expired
        failureMessage := some "Upload session expired during reconciliation." },
      { r with stats := { r.stats with expiredUploads := r.stats.expiredUploads + 1 } })
  else (session, r)

/-- The body of the loop over the sessions. -/
def reconcileSession (r : Reconciliation) (session : EvidenceUploadSession) :
    Except ReconcileFault Reconciliation := do
  let r ← countOperation session r
  let (session, r) := expireSession env session r
  syncUploadOperation env db session { r with seen := r.seen ++ [session] }

/-- The operation behind `transition_operation` with `force`, which raises
nothing. -/
def forced (operation : EvidenceOperation) (status : OperationStatus) (stage owner : String)
    (error : Option String) : EvidenceOperation :=
  match transitionOperation env.now operation status (some stage) (some owner) error true with
  | .ok operation => operation
  | .error _ => operation

/-- The operation of a session that is not loaded, still live. -/
def Row.isMissing (sessionIds : List String) (row : Row) : Bool :=
  (row.current.uploadSessionId.all fun id => id ∉ sessionIds) && !row.current.status.isTerminal

/-- The operation failed because its session is missing. -/
def sessionMissing (operation : EvidenceOperation) : EvidenceOperation :=
  forced env operation .failed "session_missing" "reconciler"
    (some "Upload session is missing for active operation.")

/-- The loop over the operations with a session: of the rows, the first so many
with a session are looked at. -/
def failMissing (sessionIds : List String) : ℕ → List Row → List Row × List EvidenceOperation
  | _, [] => ([], [])
  | 0, rows => (rows, [])
  | n + 1, row :: rows =>
    if row.stored.uploadSessionId = none then
      let (rows, missing) := failMissing sessionIds (n + 1) rows
      (row :: rows, missing)
    else
      let (rows, missing) := failMissing sessionIds n rows
      if row.isMissing sessionIds then
        ({ row with current := sessionMissing env row.current } :: rows, row.stored :: missing)
      else (row :: rows, missing)

/-- The operation of an evidence whose processing has ended. -/
def syncEvidence (operation : EvidenceOperation) : Option EvidenceOperation :=
  match operation.evidenceId.bind db.evidence with
  | some .completed =>
    some (forced env operation .completed "processing_complete" "database" none)
  | some .failed =>
    some (forced env operation .failed "processing_failed" "database"
      (some "Evidence processing failed."))
  | _ => none

/-- The loop over the operations that are queued or running, the first so many,
and the number of those changed. -/
def syncEvidences : ℕ → List Row → List Row × ℕ
  | _, [] => ([], 0)
  | 0, rows => (rows, 0)
  | n + 1, row :: rows =>
    if row.stored.evidenceId ≠ none ∧ row.stored.status ∈ [.queued, .running] then
      let (rows, changed) := syncEvidences n rows
      match syncEvidence env db row.current with
      | some operation => ({ row with current := operation } :: rows, changed + 1)
      | none => (row :: rows, changed)
    else
      let (rows, changed) := syncEvidences (n + 1) rows
      (row :: rows, changed)

/-- A directory of no loaded session. -/
def UploadDir.isOrphan (sessionIds : List String) (dir : UploadDir) : Bool :=
  dir.isDirectory && dir.name ∉ sessionIds

/-- An orphan that is removed: empty, and past the retention. -/
def UploadDir.isStale (sessionIds : List String) (dir : UploadDir) : Bool :=
  dir.isOrphan sessionIds && (env.now - dir.mtime > env.retentionSeconds * 1000000) && dir.empty

/-- `reconcile_evidence_operations`. -/
def reconcileEvidenceOperations : Except ReconcileFault Reconciliation := do
  let sessions := db.sessions.take 500
  let sessionIds := sessions.map EvidenceUploadSession.id
  let r ← sessions.foldlM (reconcileSession env db)
    ⟨db.operations.map fun operation => ⟨operation, operation⟩, [], [], db.dirs, db.files, {}, []⟩
  let (rows, missing) := failMissing env sessionIds 500 r.rows
  let (rows, synced) := syncEvidences env db 500 rows
  pure { r with
    rows := rows
    missing := missing
    dirs := r.dirs.filter fun dir => !dir.isStale env sessionIds
    stats :=
      { r.stats with
        operationsWithoutSessions := missing.length
        operationsSyncedFromEvidence := synced
        orphanUploadDirs := r.dirs.countP fun dir => dir.isOrphan sessionIds
        removedEmptyDirs := r.dirs.countP fun dir => dir.isStale env sessionIds } }

end

/-! ### The loop over the sessions -/

/-- The rows hold the stored operations, and those whose session has not been
seen are as they are stored. -/
structure Tracks (operations : List EvidenceOperation) (ids : List String) (rows : List Row) :
    Prop where
  stored : rows.map Row.stored = operations
  session : ∀ row ∈ rows, row.current.uploadSessionId = row.stored.uploadSessionId
  unseen : ∀ row ∈ rows, (∀ id ∈ ids, row.stored.uploadSessionId ≠ some id) →
    row.current = row.stored

/-- The operations of a session. -/
def operationsOf (sessionId : String) (operations : List EvidenceOperation) :
    List EvidenceOperation :=
  operations.filter fun operation => operation.uploadSessionId = some sessionId

section

variable {operations : List EvidenceOperation} {ids : List String}

theorem transitionOperation_force (now : ℤ) (operation : EvidenceOperation)
    (status : OperationStatus) (stage owner error : Option String) :
    ∃ operation', transitionOperation now operation status stage owner error true =
        .ok operation' ∧ operation'.uploadSessionId = operation.uploadSessionId := by
  rw [transitionOperation, if_neg (by simp)]
  exact ⟨_, rfl, rfl⟩

theorem syncedOperation_ok (env : ReconcileEnv) (db : Database)
    (session : EvidenceUploadSession) (operation : EvidenceOperation) :
    ∃ operation', syncedOperation env db session operation = .ok operation' ∧
      operation'.uploadSessionId = operation.uploadSessionId :=
  transitionOperation_force _ _ _ _ _ _

variable {rows : List Row}

theorem length_storedFor (h : rows.map Row.stored = operations) (sessionId : String) :
    (storedFor sessionId rows).length = (operationsOf sessionId operations).length := by
  rw [operationsOf, ← h, List.filter_map, List.length_map]
  rfl

theorem isUploadOf_session {sessionId : String} {row : Row}
    (h : row.isUploadOf sessionId = true) : row.stored.uploadSessionId = some sessionId := by
  simp only [Row.isUploadOf, Bool.and_eq_true, decide_eq_true_eq] at h
  exact h.1

theorem filter_isUploadOf_sublist (sessionId : String) (rows : List Row) :
    (rows.filter (Row.isUploadOf sessionId)).Sublist (storedFor sessionId rows) := by
  apply List.monotone_filter_right
  intro row hrow
  exact decide_eq_true (isUploadOf_session hrow)

/-- Writing the operation of one session keeps track. -/
theorem Tracks.write {sessionId : String} {operation : EvidenceOperation}
    (h : Tracks operations ids rows) (hid : operation.uploadSessionId = some sessionId) :
    Tracks operations (sessionId :: ids) (rows.map fun row =>
      if row.isUploadOf sessionId then { row with current := operation } else row) := by
  refine ⟨?_, ?_, ?_⟩
  · rw [← h.stored, List.map_map]
    refine List.map_congr_left fun row _ => ?_
    show Row.stored (if row.isUploadOf sessionId then _ else row) = row.stored
    split
    · rfl
    · rfl
  · intro row hrow
    obtain ⟨row, hmem, rfl⟩ := List.mem_map.1 hrow
    split
    · rename_i hown
      exact hid.trans (isUploadOf_session hown).symm
    · exact h.session row hmem
  · intro row hrow
    obtain ⟨row, hmem, rfl⟩ := List.mem_map.1 hrow
    split
    · rename_i hown
      intro hids
      exact absurd (isUploadOf_session hown) (hids sessionId (by simp))
    · exact fun hids => h.unseen row hmem fun id hid => hids id (.tail _ hid)

theorem Tracks.cons (h : Tracks operations ids rows) (sessionId : String) :
    Tracks operations (sessionId :: ids) rows :=
  ⟨h.stored, h.session, fun row hrow hids =>
    h.unseen row hrow fun id hid => hids id (.tail _ hid)⟩

variable {r : Reconciliation} {session : EvidenceUploadSession}

/-- With at most one operation, the operation of a session is brought up to
date. -/
theorem syncUploadOperation_ok (env : ReconcileEnv) (db : Database)
    (h : Tracks operations ids r.rows) (hone : (operationsOf session.id operations).length ≤ 1) :
    ∃ r', syncUploadOperation env db session r = .ok r' ∧
      Tracks operations (session.id :: ids) r'.rows := by
  rw [syncUploadOperation]
  split
  · obtain ⟨operation, hsync, -⟩ := syncedOperation_ok env db session (newOperation session)
    rw [hsync]
    exact ⟨_, rfl, h.cons session.id⟩
  · rename_i row hfilter
    obtain ⟨operation, hsync, hid⟩ := syncedOperation_ok env db session row.current
    rw [hsync]
    have hmem : row ∈ r.rows.filter (Row.isUploadOf session.id) := by
      rw [hfilter]
      exact List.mem_singleton_self row
    obtain ⟨hrow, hown⟩ := List.mem_filter.1 hmem
    rw [h.session row hrow, isUploadOf_session hown] at hid
    exact ⟨_, rfl, h.write hid⟩
  · rename_i hnil hsingle
    -- two rows of the filter would be two operations of the session
    have hlen := (filter_isUploadOf_sublist session.id r.rows).length_le
    rw [length_storedFor h.stored] at hlen
    cases hfilter : r.rows.filter (Row.isUploadOf session.id) with
    | nil => exact absurd hfilter hnil
    | cons row rest =>
      cases rest with
      | nil => exact absurd hfilter (hsingle row)
      | cons row' rest =>
        rw [hfilter] at hlen
        simp only [List.length_cons] at hlen
        omega

theorem countOperation_of_le (h : (storedFor session.id r.rows).length ≤ 1) :
    ∃ r', countOperation session r = .ok r' ∧ r'.rows = r.rows := by
  rw [countOperation]
  cases hstored : storedFor session.id r.rows with
  | nil => exact ⟨_, rfl, rfl⟩
  | cons row rest =>
    cases rest with
    | nil => exact ⟨_, rfl, rfl⟩
    | cons row' rest =>
      rw [hstored] at h
      simp at h

theorem countOperation_of_lt (h : 1 < (storedFor session.id r.rows).length) :
    countOperation session r = .error (.multipleResults session.id) := by
  rw [countOperation]
  cases hstored : storedFor session.id r.rows with
  | nil =>
    rw [hstored] at h
    simp at h
  | cons row rest =>
    cases rest with
    | nil =>
      rw [hstored] at h
      simp at h
    | cons row' rest => rfl

theorem expireSession_frame (env : ReconcileEnv) (session : EvidenceUploadSession)
    (r : Reconciliation) :
    (expireSession env session r).1.id = session.id ∧
      (expireSession env session r).2.rows = r.rows := by
  rw [expireSession]
  split
  · refine ⟨rfl, ?_⟩
    show (cleanupStorage session r).rows = r.rows
    rw [cleanupStorage]
    split
    · rfl
    · split
      · rfl
      · rfl
  · exact ⟨rfl, rfl⟩

/-- The body of the loop raises on a session with several operations, and else
keeps track. -/
theorem reconcileSession_spec (env : ReconcileEnv) (db : Database)
    (session : EvidenceUploadSession) (h : Tracks operations ids r.rows) :
    (1 < (operationsOf session.id operations).length ∧
        ∃ fault, reconcileSession env db r session = .error fault) ∨
      (operationsOf session.id operations).length ≤ 1 ∧
        ∃ r', reconcileSession env db r session = .ok r' ∧
          Tracks operations (session.id :: ids) r'.rows := by
  have hlen := length_storedFor h.stored session.id
  by_cases hone : (operationsOf session.id operations).length ≤ 1
  · refine .inr ⟨hone, ?_⟩
    have hstored : (storedFor session.id r.rows).length ≤ 1 := by omega
    obtain ⟨r₁, hcount, hrows⟩ := countOperation_of_le hstored
    obtain ⟨hid, hrows'⟩ := expireSession_frame env session r₁
    have htracks : Tracks operations ids (expireSession env session r₁).2.rows := by
      rw [hrows', hrows]
      exact h
    rw [← hid] at hone ⊢
    rw [reconcileSession, hcount]
    exact syncUploadOperation_ok env db htracks hone
  · refine .inl ⟨by omega, .multipleResults session.id, ?_⟩
    rw [reconcileSession, countOperation_of_lt (by omega)]
    rfl

/-- The loop raises if one of its sessions has several operations, and else
keeps track of all of them. -/
theorem foldlM_reconcileSession (env : ReconcileEnv) (db : Database)
    (sessions : List EvidenceUploadSession) (h : Tracks operations ids r.rows) :
    ((∃ session ∈ sessions, 1 < (operationsOf session.id operations).length) ∧
        ∃ fault, sessions.foldlM (reconcileSession env db) r = .error fault) ∨
      (∀ session ∈ sessions, (operationsOf session.id operations).length ≤ 1) ∧
        ∃ r', sessions.foldlM (reconcileSession env db) r = .ok r' ∧
          Tracks operations ((sessions.map EvidenceUploadSession.id).reverse ++ ids) r'.rows := by
  induction sessions generalizing r ids with
  | nil => exact .inr ⟨by simp, r, rfl, h⟩
  | cons session sessions ih =>
    rw [List.foldlM_cons]
    obtain ⟨hlt, fault, herror⟩ | ⟨hle, r₁, hok, htracks⟩ :=
      reconcileSession_spec env db session h
    · rw [herror]
      exact .inl ⟨⟨session, by simp, hlt⟩, fault, rfl⟩
    · rw [hok]
      obtain ⟨⟨session', hmem, hlt⟩, herror⟩ | ⟨hall, r', hrest, htracks'⟩ := ih htracks
      · exact .inl ⟨⟨session', by simp [hmem], hlt⟩, herror⟩
      · refine .inr ⟨?_, r', hrest, ?_⟩
        · intro session' hmem
          obtain rfl | hmem := List.mem_cons.1 hmem
          · exact hle
          · exact hall session' hmem
        · simpa using htracks'

/-! ### The operations that are failed -/

theorem mem_failMissing (env : ReconcileEnv) (sessionIds : List String) (n : ℕ)
    (rows : List Row) (operation : EvidenceOperation) :
    operation ∈ (failMissing env sessionIds n rows).2 ↔
      ∃ row ∈ (rows.filter fun row => row.stored.uploadSessionId ≠ none).take n,
        row.isMissing sessionIds = true ∧ row.stored = operation := by
  induction rows generalizing n with
  | nil => simp [failMissing]
  | cons row rows ih =>
    cases n with
    | zero => simp [failMissing]
    | succ n =>
      rw [failMissing]
      by_cases hnone : row.stored.uploadSessionId = none
      · rw [if_pos hnone, List.filter_cons_of_neg (by simp [hnone])]
        exact ih (n + 1)
      · rw [if_neg hnone, List.filter_cons_of_pos (by simp [hnone]), List.take_succ_cons]
        simp only [List.mem_cons, exists_eq_or_imp]
        cases hmissing : row.isMissing sessionIds with
        | false => simp [ih n]
        | true =>
          show operation ∈ row.stored :: (failMissing env sessionIds n rows).2 ↔ _
          rw [List.mem_cons, ih n]
          exact or_congr ⟨fun h => ⟨rfl, h.symm⟩, fun h => h.2.symm⟩ Iff.rfl

/-- Behind the loop over the sessions, an operation is missing if it was live and
its session is not among those loaded: such an operation has not been changed. -/
theorem isMissing_iff {sessions : List EvidenceUploadSession} {row : Row}
    (h : Tracks operations ((sessions.map EvidenceUploadSession.id).reverse ++ []) rows)
    (hrow : row ∈ rows) :
    row.isMissing (sessions.map EvidenceUploadSession.id) = true ↔
      row.stored.status.isTerminal = false ∧
        ∀ session ∈ sessions, row.stored.uploadSessionId ≠ some session.id := by
  have hall : (row.current.uploadSessionId.all fun id =>
      decide (id ∉ sessions.map EvidenceUploadSession.id)) = true ↔
        ∀ session ∈ sessions, row.stored.uploadSessionId ≠ some session.id := by
    rw [h.session row hrow]
    cases row.stored.uploadSessionId with
    | none => simp
    | some id => simp [eq_comm]
  rw [Row.isMissing, Bool.and_eq_true, hall, and_comm]
  refine and_congr_left fun hunseen => ?_
  have hsame : row.current = row.stored := by
    refine h.unseen row hrow fun id hid => ?_
    simp only [List.append_nil, List.mem_reverse, List.mem_map] at hid
    obtain ⟨session, hsession, rfl⟩ := hid
    exact hunseen session hsession
  rw [hsame]
  simp

/-- The operations that are failed are those, among the first 500 with a session,
that are live and whose session is not among the first 500. -/
theorem reconcile_missing (env : ReconcileEnv) (db : Database) :
    ((∃ session ∈ db.sessions.take 500, 1 < (operationsOf session.id db.operations).length) ∧
        ∃ fault, reconcileEvidenceOperations env db = .error fault) ∨
      (∀ session ∈ db.sessions.take 500, (operationsOf session.id db.operations).length ≤ 1) ∧
        ∃ r, reconcileEvidenceOperations env db = .ok r ∧ ∀ operation, operation ∈ r.missing ↔
          operation ∈ (db.operations.filter fun o => o.uploadSessionId ≠ none).take 500 ∧
            operation.status.isTerminal = false ∧
            ∀ session ∈ db.sessions.take 500, operation.uploadSessionId ≠ some session.id := by
  have hinit : Tracks db.operations [] (db.operations.map fun operation => ⟨operation, operation⟩) := by
    refine ⟨?_, ?_, ?_⟩
    · rw [List.map_map]
      exact List.map_id' _
    · intro row hrow
      obtain ⟨operation, -, rfl⟩ := List.mem_map.1 hrow
      rfl
    · intro row hrow _
      obtain ⟨operation, -, rfl⟩ := List.mem_map.1 hrow
      rfl
  obtain ⟨hmany, fault, herror⟩ | ⟨hall, r, hok, htracks⟩ :=
    foldlM_reconcileSession env db (db.sessions.take 500)
      (r := ⟨_, [], [], db.dirs, db.files, {}, []⟩) hinit
  · refine .inl ⟨hmany, fault, ?_⟩
    rw [reconcileEvidenceOperations]
    simp only [herror, bind, Except.bind]
  · refine .inr ⟨hall, ?_⟩
    rw [reconcileEvidenceOperations]
    simp only [hok, bind, Except.bind]
    refine ⟨_, rfl, fun operation => ?_⟩
    show operation ∈ (failMissing env _ 500 r.rows).2 ↔ _
    rw [mem_failMissing, ← htracks.stored, List.filter_map, ← List.map_take, List.mem_map]
    constructor
    · rintro ⟨row, hrow, hmiss, rfl⟩
      have hmem : row ∈ r.rows := List.mem_of_mem_filter (List.mem_of_mem_take hrow)
      exact ⟨⟨row, hrow, rfl⟩, (isMissing_iff htracks hmem).1 hmiss⟩
    · rintro ⟨⟨row, hrow, rfl⟩, hlive⟩
      have hmem : row ∈ r.rows := List.mem_of_mem_filter (List.mem_of_mem_take hrow)
      exact ⟨row, hrow, (isMissing_iff htracks hmem).2 hlive, rfl⟩

end

/-- No operation is failed for want of a session that exists. -/
def SparesLive (env : ReconcileEnv) (db : Database) : Prop :=
  ∀ r, reconcileEvidenceOperations env db = .ok r → ∀ operation ∈ r.missing,
    ∀ session ∈ db.sessions, operation.uploadSessionId ≠ some session.id

/-- The reconciliation fails an operation only if its session does not exist,
exactly if it raises on a loaded session with several operations, or if the
session of every live operation it looks at is loaded or does not exist. -/
theorem reconcile_spares_live_iff (env : ReconcileEnv) (db : Database) : SparesLive env db ↔
      (∃ session ∈ db.sessions.take 500, 1 < (operationsOf session.id db.operations).length) ∨
        ∀ operation ∈ (db.operations.filter fun o => o.uploadSessionId ≠ none).take 500,
          operation.status.isTerminal = false →
            ∀ session ∈ db.sessions, operation.uploadSessionId = some session.id →
              ∃ loaded ∈ db.sessions.take 500, loaded.id = session.id := by
  obtain ⟨hmany, fault, herror⟩ | ⟨hall, r, hok, hmissing⟩ := reconcile_missing env db
  · refine iff_of_true ?_ (.inl hmany)
    intro r hr
    cases herror.symm.trans hr
  constructor
  · intro hspares
    right
    intro operation hmem hlive session hsession hid
    by_contra hloaded
    refine hspares r hok operation ((hmissing operation).2 ⟨hmem, hlive, ?_⟩) session hsession hid
    intro loaded hin hid'
    exact hloaded ⟨loaded, hin, Option.some.inj (hid'.symm.trans hid)⟩
  · rintro (⟨session, hsession, hlt⟩ | hloaded) r' hr' operation hmem session' hsession' hid
    · exact absurd (hall session hsession) (by omega)
    · cases hok.symm.trans hr'
      obtain ⟨hmem, hlive, hnot⟩ := (hmissing operation).1 hmem
      obtain ⟨loaded, hin, hsame⟩ := hloaded operation hmem hlive session' hsession' hid
      exact hnot loaded hin (hid.trans (by rw [hsame]))

/-! ### The session behind the limit -/

/-- A session under a name of so many letters. -/
def numberedSession (n : ℕ) : EvidenceUploadSession :=
  ⟨String.ofList (List.replicate n 'x'), "c", .uploading, "", false, false, none, none, none, none⟩

/-- The operation of the last of 501 sessions. -/
def lastOperation : EvidenceOperation :=
  ⟨"c", some (numberedSession 500).id, none, "upload", .uploading, some "uploading", "browser", none,
    none⟩

/-- 501 sessions that take bytes, and the operation of the last. -/
def crowdedDatabase : Database where
  sessions := (List.range 501).map numberedSession
  operations := [lastOperation]
  evidence _ := none
  dirs := []
  files := []

theorem numberedSession_id {m n : ℕ} (h : (numberedSession m).id = (numberedSession n).id) :
    m = n := by
  have hlist := congrArg String.toList h
  simpa [numberedSession] using congrArg List.length hlist

theorem take_numberedSession {m n : ℕ} (h : m ≤ n) :
    ((List.range n).map numberedSession).take m = (List.range m).map numberedSession := by
  rw [← List.map_take, List.take_range, min_eq_left h]

/-- The operation of a session behind the first 500 is failed. -/
theorem crowded_operation_failed : ¬ SparesLive ⟨0, fun _ => true, 0⟩ crowdedDatabase := by
  intro hspares
  have hsessions : crowdedDatabase.sessions = (List.range 501).map numberedSession := by
    simp only [crowdedDatabase]
  have htake : crowdedDatabase.sessions.take 500 = (List.range 500).map numberedSession := by
    rw [hsessions]
    exact take_numberedSession (by omega)
  have hnot : ∀ session ∈ crowdedDatabase.sessions.take 500,
      (numberedSession 500).id ≠ session.id := by
    rw [htake]
    intro session hsession hid
    obtain ⟨n, hn, rfl⟩ := List.mem_map.1 hsession
    have hsame := numberedSession_id hid
    have hlt := List.mem_range.1 hn
    omega
  obtain ⟨⟨session, hsession, hlt⟩, -⟩ | ⟨-, r, hok, hmissing⟩ :=
    reconcile_missing ⟨0, fun _ => true, 0⟩ crowdedDatabase
  · have hle : (operationsOf session.id crowdedDatabase.operations).length ≤ 1 :=
      (List.length_filter_le _ _).trans le_rfl
    omega
  · have hmem : lastOperation ∈
        (crowdedDatabase.operations.filter fun o => o.uploadSessionId ≠ none).take 500 := by
      simp [crowdedDatabase, lastOperation]
    have hsession : numberedSession 500 ∈ crowdedDatabase.sessions := by
      rw [hsessions]
      exact List.mem_map.2 ⟨500, List.mem_range.2 (by omega), rfl⟩
    have hlast : lastOperation ∈ r.missing := by
      refine (hmissing lastOperation).2 ⟨hmem, rfl, ?_⟩
      intro session hsession hid
      exact hnot session hsession (Option.some.inj hid)
    exact hspares r hok lastOperation hlast (numberedSession 500) hsession rfl

end Kairon.Maintenance

/-
Kairon/Upload/Terminal.lean

Are `cancelled`, `expired` and `completed` final?  Chunk stores, finalize,
cancel and the cleanups of one session run interleaved.  Each checks the
status once and writes it much later, and no lock is common to all of them:
a chunk store that passed its check before a cancel writes `uploading` over
`cancelled` when it records its chunk (`status_reopened`).

An operation is *unguarded* while its process stands between its last check
of the status and its last write of it.  If no process commits one of the
three statuses while another process is unguarded (`NoneUnguarded`), then
the status never leaves them again (`terminal_absorbing`): the statuses are
open at every unguarded operation, so no write there can leave a closed one.
-/
import Kairon.Upload.Create

namespace Kairon.Upload

open Concur

variable {D : Type}

/-! ### Closed statuses and unguarded operations -/

/-- The statuses no session should leave. -/
def UploadStatus.isClosed (s : UploadStatus) : Bool := s ∈ [cancelled, expired, completed]

/-- The committed status is one of them. -/
def closed (w : World D) : Bool := w.row.status.isClosed

/-- Commits after which the same process goes on to write the status without
checking it again. -/
def CommitPlace.midway : CommitPlace → Bool
  | .markActive | .verifying | .duplicate | .finalizing | .registering => true
  | _ => false

namespace Op

/-- The commit of a closed status. -/
def closes : Op D → Bool
  | .commit _ p => p.status.any UploadStatus.isClosed
  | _ => false

/-- The pending operation of a process that has checked the status and is
still going to write it. -/
def unguarded : Op D → Bool
  | .commit place p => place.midway || p.status.isSome
  | .read place => place ∈ [.record, .duplicateCheck, .register, .building]
  | .clock place => place = .storeEntry
  | .lock k => k = .chunksMeta
  | .chunkFile place _ => place = .storeLocked
  | .removeStaging place => place = .duplicate
  | .unlock _ => false
  | .dropTemp => false
  | _ => true

end Op

/-- The schedule condition: a closed status is committed only when no other
process is unguarded. -/
def NoneUnguarded (c : SessionConfig D) : SessionAction D → Prop
  | .step t _ => ∀ o, pending c t = some o → o.closes = true →
      ∀ u, u ≠ t → ∀ o', pending c u = some o' → o'.unguarded = false
  | _ => True

/-- Once a closed status is committed, every later committed state has it. -/
def TerminalAbsorbing (cfg : Session D) (P : SessionConfig D → SessionAction D → Prop)
    (w₀ : World D) : Prop :=
  ∀ c c' : SessionConfig D, Config.Reach (machine cfg) P (Config.init w₀) c →
    closed c.state = true → Config.Reach (machine cfg) P c c' →
    c'.state.row.status = c.state.row.status

/-! ### Rely and guarantee -/

/-- While an unguarded operation is pending the status stays open. -/
def statusRely (_ : ℕ) (o : Op D) (w w' : World D) : Prop :=
  o.unguarded = true → closed w = false → closed w' = false

/-- A closed status is left as it is. -/
def statusGuar (_ : ℕ) (_ : Op D) (w w' : World D) : Prop :=
  closed w = true → w'.row.status = w.row.status

variable (cfg : Session D)

abbrev StatusOk {α : Type} (Q : Except UploadError α → World D → Prop) (t : ℕ)
    (p : Handler D α) (w : World D) : Prop :=
  p.Ok (machine cfg) (fun _ => True) statusRely statusGuar Q t w

/-- `Prog.Safe` for this rely and guarantee. -/
abbrev StatusSafe {α : Type} (t : ℕ) (p : Handler D α) : Prop :=
  p.Safe (machine cfg) (fun _ => True) statusRely statusGuar t

/-- Safe from every state in which the status is open. -/
def OpenSafe {α : Type} (Q : Except UploadError α → World D → Prop) (t : ℕ)
    (p : Handler D α) : Prop :=
  ∀ w, closed w = false → StatusOk cfg Q t p w

theorem exec_status_commit (t : ℕ) (place : CommitPlace) (p : Patch D) (e : Env)
    (w : World D) :
    (exec cfg t (.commit place p) e w).1.row.status = p.status.getD w.row.status := rfl

/-- Only a closing commit closes an open status. -/
theorem exec_open {t : ℕ} {o : Op D} (ho : o.closes = false) (e : Env) {w : World D}
    (h : closed w = false) : closed (exec cfg t o e w).1 = false := by
  by_cases hc : o.isCommit = false
  · rw [closed, exec_row cfg t hc]
    exact h
  · cases o with
    | commit place p =>
      rw [closed, exec_status_commit]
      cases hp : p.status with
      | none => exact h
      | some s =>
        rw [Op.closes, hp] at ho
        exact ho
    | _ => exact absurd rfl hc

theorem status_harmless {t : ℕ} {o : Op D} (ho : o.isCommit = false) :
    Harmless (machine cfg) (fun _ => True) statusGuar t o := by
  intro w e _
  refine ⟨trivial, fun _ => ?_⟩
  exact congrArg Row.status (exec_row cfg t ho e w)

/-- A commit that does not send the status. -/
theorem status_harmless_commit {t : ℕ} {place : CommitPlace} {p : Patch D}
    (hp : p.status = none) :
    Harmless (machine cfg) (fun _ => True) statusGuar t (.commit place p) := by
  intro w e _
  refine ⟨trivial, fun _ => ?_⟩
  change p.status.getD w.row.status = w.row.status
  rw [hp, Option.getD_none]

section Rules

variable {cfg} {α β : Type} {t : ℕ} {Q : Except UploadError β → World D → Prop}

/-- From an open status, an unguarded operation that does not close keeps it
open. -/
theorem OpenSafe.keep {o : Op D} {f : Resp o → Handler D β} (ho : o.unguarded = true)
    (hc : o.closes = false) (hf : ∀ r, OpenSafe cfg Q t (f r)) :
    OpenSafe cfg Q t (perform o >>= f) := by
  intro w hw w' _ hr e
  have hw' := hr ho hw
  refine ⟨trivial, fun hcl => ?_, ?_⟩
  · rw [hw'] at hcl
    cases hcl
  · exact hf _ _ (exec_open cfg hc e hw')

/-- From an open status, any commit: it is unguarded, or does not send the
status.  Nothing is known of the status afterwards. -/
theorem OpenSafe.close {place : CommitPlace} {p : Patch D} {f : Unit → Handler D β}
    (hf : ∀ w, StatusOk cfg Q t (f ()) w) :
    OpenSafe cfg Q t (perform (.commit place p) >>= f) := by
  intro w hw w' _ hr e
  refine ⟨trivial, ?_, hf _⟩
  cases hp : p.status with
  | none => exact (status_harmless_commit cfg hp w' e trivial).2
  | some s =>
    have hguard : (Op.commit place p).unguarded = true := by
      simp only [Op.unguarded, hp, Option.isSome_some, Bool.or_true]
    intro hcl
    rw [hr hguard hw] at hcl
    cases hcl

theorem OpenSafe.ite {c : Prop} [Decidable c] {p q : Handler D β}
    (hp : c → OpenSafe cfg Q t p) (hq : ¬c → OpenSafe cfg Q t q) :
    OpenSafe cfg Q t (if c then p else q) :=
  fun w hw => .ite (fun h => hp h w hw) (fun h => hq h w hw)

theorem OpenSafe.of_safe {p : Handler D β} (h : StatusSafe cfg t p) :
    OpenSafe cfg (fun _ _ => True) t p := fun w _ => h w

theorem OpenSafe.raise {e : UploadError} (h : ∀ w, closed w = false → Q (.error e) w) :
    OpenSafe cfg Q t (.raise e) := fun w hw => h w hw

theorem OpenSafe.withLock_chunksMeta {body : Handler D α}
    (hbody : OpenSafe cfg (fun _ _ => True) t body) :
    OpenSafe cfg (fun _ _ => True) t (withLock .chunksMeta body) := by
  refine OpenSafe.keep rfl rfl fun r => ?_
  cases r with
  | acquired =>
    intro w hw
    refine (Prog.walk_followedBy _ _ _ _).mpr ((hbody w hw).mono ?_)
    intro r w' _
    exact (Prog.Safe.last (status_harmless cfg rfl) w').mono fun r' _ _ => by
      cases r' <;> trivial
  | busy | unavailable => exact fun _ _ => trivial

end Rules

/-! ### Chunk stores -/

section Handlers

variable [DecidableEq D] (sha256 : Bytes → D)

variable {item new : Row D}

/-- A status sent by `Row.diff` is the new one. -/
theorem diff_status {touch : Bool} {s : UploadStatus}
    (h : (item.diff new touch).status = some s) : s = new.status := changed_eq_some h

theorem diff_not_closes {place : CommitPlace} {touch : Bool} (h : new.status.isClosed = false) :
    (Op.commit place (item.diff new touch)).closes = false := by
  cases hs : (item.diff new touch).status with
  | none => rw [Op.closes, hs, Option.any_none]
  | some s => rw [Op.closes, hs, Option.any_some, diff_status hs, h]

theorem diff_no_status {touch : Bool} (h : new.status = item.status) :
    (item.diff new touch).status = none := by
  simp [Row.diff, changed, h]

/-- Recording a chunk without a status. -/
theorem recordExisting_safe (t i size : ℕ) (sha : D) :
    StatusSafe cfg t (recordChunkReceived i size sha none) := by
  refine Prog.Safe.perform (status_harmless cfg rfl) fun _ _ _ => ?_
  split
  · refine Prog.Safe.followedBy ?_ (Prog.Safe.last (status_harmless cfg rfl))
    refine Prog.Safe.perform (status_harmless cfg rfl) fun w _ _ => ?_
    refine Prog.Safe.perform (status_harmless_commit cfg (diff_no_status rfl)) fun _ _ _ => ?_
    exact Prog.Safe.last (status_harmless cfg rfl)
  · exact Prog.Safe.raise _
  · exact Prog.Safe.raise _

/-- Recording a chunk with the status `uploading`. -/
theorem recordUploading_open (t i size : ℕ) (sha : D) : OpenSafe cfg (fun _ _ => True) t
      (recordChunkReceived i size sha (some .uploading)) := by
  refine OpenSafe.withLock_chunksMeta ?_
  refine OpenSafe.keep rfl rfl fun item => ?_
  exact OpenSafe.close (Prog.Safe.last (status_harmless cfg rfl))

theorem clearActive_status (t i : ℕ) : StatusSafe cfg t (clearActive (D := D) i) := by
  refine Prog.Safe.perform (status_harmless cfg rfl) fun w _ _ => ?_
  refine Prog.Safe.perform (status_harmless_commit cfg (diff_no_status rfl)) fun _ _ _ => ?_
  exact Prog.Safe.last (status_harmless cfg rfl)

theorem compareExisting_status (t : ℕ) (item : Row D) (i : ℕ) (content : Bytes) :
    StatusSafe cfg t (compareExisting sha256 item i content) := by
  unfold compareExisting
  split
  · refine Prog.Safe.perform (status_harmless cfg rfl) fun _ _ _ => ?_
    exact .ite (fun _ => Prog.Safe.pure _) (fun _ => Prog.Safe.raise _)
  · refine Prog.Safe.perform (status_harmless cfg rfl) fun w e _ => ?_
    split
    · exact Prog.Safe.perform (status_harmless cfg rfl) fun _ _ _ => Prog.Safe.raise _
    · refine Prog.Safe.perform (status_harmless cfg rfl) fun _ _ _ => ?_
      refine .ite (fun _ => Prog.Safe.raise _) fun _ => ?_
      exact .ite (fun _ => recordExisting_safe cfg t i _ _) (fun _ => Prog.Safe.raise _)

theorem renameAndRecord_open (t i : ℕ) (content : Bytes) :
    OpenSafe cfg (fun _ _ => True) t (renameAndRecord sha256 i content) := by
  refine OpenSafe.keep rfl rfl fun b => ?_
  refine OpenSafe.ite (fun _ => recordUploading_open cfg t i _ _) fun _ => ?_
  refine OpenSafe.of_safe (Prog.Safe.perform (status_harmless cfg rfl) fun _ _ _ => ?_)
  exact .ite (fun _ => Prog.Safe.raise _) (fun _ => Prog.Safe.raise _)

omit [DecidableEq D] in
theorem dropTemp_raise_open (t : ℕ) {α : Type} (e : UploadError) : OpenSafe cfg (fun _ _ => True) t
      (perform .dropTemp >>= fun _ => (.raise e : Handler D α)) :=
  OpenSafe.of_safe (Prog.Safe.perform (status_harmless cfg rfl) fun _ _ _ => Prog.Safe.raise _)

theorem storeBody_open (t : ℕ) (item : Row D) (put : ChunkPut D) (i : ℕ) (len : ℤ)
    (declared : Option D) :
    OpenSafe cfg (fun _ _ => True) t (storeBody sha256 item put i len declared) := by
  refine OpenSafe.keep rfl rfl fun _ => ?_
  refine OpenSafe.keep rfl rfl fun _ => ?_
  refine OpenSafe.ite (fun _ _ _ => trivial) fun _ => ?_
  split
  · exact dropTemp_raise_open cfg t _
  · refine OpenSafe.ite (fun _ _ _ => trivial) fun _ => ?_
    refine OpenSafe.ite (fun _ => dropTemp_raise_open cfg t _) fun _ => ?_
    refine OpenSafe.ite (fun _ => dropTemp_raise_open cfg t _) fun _ => ?_
    refine OpenSafe.keep rfl rfl fun _ => ?_
    refine OpenSafe.ite (fun _ => ?_) fun _ => ?_
    · exact OpenSafe.of_safe (compareExisting_status cfg sha256 t item i _)
    · exact renameAndRecord_open cfg sha256 t i _

theorem markAndStore_open (t : ℕ) (item : Row D) (put : ChunkPut D) (i : ℕ) (len : ℤ)
    (declared : Option D) :
    OpenSafe cfg (fun _ _ => True) t (do
      perform (.commit .markActive (item.diff (setActiveChunk item i true) false))
      (storeBody sha256 item put i len declared).followedBy (clearActive i)) := by
  refine OpenSafe.keep rfl ?_ fun _ => ?_
  · have hnone : (item.diff (setActiveChunk item i true) false).status = none :=
      diff_no_status rfl
    rw [Op.closes, hnone, Option.any_none]
  · intro w hw
    refine (Prog.walk_followedBy _ _ _ _).mpr ?_
    refine (storeBody_open cfg sha256 t item put i len declared w hw).mono ?_
    intro r w' _
    exact (clearActive_status cfg t i w').mono fun r' _ _ => by cases r' <;> trivial

omit [DecidableEq D] in
/-- A status that is neither terminal nor finalizing is open. -/
theorem closed_of_isTerminal {w : World D} (h : ¬ w.row.status.isTerminal = true) :
    closed w = false := by
  unfold closed
  cases hs : w.row.status <;> simp_all [UploadStatus.isTerminal, UploadStatus.isClosed]

/-- The check under the chunk lock opens the unguarded stretch of a store. -/
theorem storeLocked_status (t : ℕ) (put : ChunkPut D) (i : ℕ) (len : ℤ)
    (declared : Option D) : StatusSafe cfg t (storeLocked sha256 put i len declared) := by
  intro w
  refine Prog.Ok.harmless (status_harmless cfg rfl) fun w' _ _ _ => ?_
  refine Prog.Ok.ite (fun _ => trivial) fun hcheck => ?_
  have hopen : closed w' = false := closed_of_isTerminal fun h => hcheck (.inl h)
  unfold alreadyStored
  split
  · exact markAndStore_open cfg sha256 t w'.row put i len declared w' hopen
  · refine OpenSafe.keep rfl rfl (fun b => ?_) w' hopen
    refine OpenSafe.ite (fun _ _ _ => trivial) fun _ => ?_
    exact markAndStore_open cfg sha256 t w'.row put i len declared

omit [DecidableEq D] in
theorem withLock_status {α : Type} (t : ℕ) (k : LockKey) {body : Handler D α}
    (hbody : StatusSafe cfg t body) : StatusSafe cfg t (withLock k body) := by
  refine Prog.Safe.perform (status_harmless cfg rfl) fun _ _ _ => ?_
  split
  · exact hbody.followedBy (Prog.Safe.last (status_harmless cfg rfl))
  · exact Prog.Safe.raise _
  · exact Prog.Safe.raise _

theorem storeChecked_status (t : ℕ) (item : Row D) (put : ChunkPut D) (i : ℕ) :
    StatusSafe cfg t (storeChecked cfg sha256 item put i) := by
  refine .ite (fun _ => Prog.Safe.raise _) fun _ => ?_
  split
  · exact Prog.Safe.raise _
  · refine Prog.Safe.bind ?_ fun b => ?_
    · unfold alreadyStored
      split
      · exact Prog.Safe.pure _
      · exact Prog.Safe.perform (status_harmless cfg rfl) fun _ _ _ => Prog.Safe.pure _
    · refine .ite (fun _ => Prog.Safe.pure _) fun _ => ?_
      exact withLock_status cfg t _ (storeLocked_status cfg sha256 t put i _ _)

theorem store_status (t : ℕ) (put : ChunkPut D) :
    StatusSafe cfg t (storeMemoryUploadChunkStream cfg sha256 put) := by
  intro w
  refine Prog.Ok.harmless (status_harmless cfg rfl) fun w' _ _ _ => ?_
  refine Prog.Ok.ite (fun _ => trivial) fun hterm => ?_
  refine Prog.Ok.ite (fun _ => trivial) fun _ => ?_
  refine Prog.Ok.ite (fun _ => trivial) fun _ => ?_
  refine Prog.Ok.ite (fun _ => trivial) fun _ => ?_
  have hterm : ¬ w'.row.status.isTerminal = true := hterm
  refine OpenSafe.keep rfl rfl (fun now => ?_) w' (closed_of_isTerminal hterm)
  refine OpenSafe.ite (fun _ => ?_) fun _ => ?_
  · exact OpenSafe.close fun _ => trivial
  · refine OpenSafe.keep rfl rfl fun view => ?_
    refine OpenSafe.ite (fun _ => ?_) fun _ => ?_
    · exact OpenSafe.close fun _ => trivial
    · exact OpenSafe.of_safe (storeChecked_status cfg sha256 t w'.row put _)

/-! ### Finalize -/

/-- Registration raises nothing but registration errors. -/
def registrationOnly {α : Type} : Except UploadError α → World D → Prop
  | .error (.registration _), _ => True
  | .error _, _ => False
  | .ok _, _ => True

/-- Any other error of the finalization leaves the status open for the outer
`except` to write `failed`. -/
def openOnFailure {α : Type} : Except UploadError α → World D → Prop
  | .error (.registration _), _ => True
  | .error _, w => closed w = false
  | .ok _, _ => True

theorem registerExisting_open (t : ℕ) (item : Row D) (existing : EvidenceRow D) :
    OpenSafe cfg registrationOnly t (registerExisting cfg item existing) := by
  refine OpenSafe.keep rfl rfl fun file => ?_
  refine OpenSafe.ite (fun _ => ?_) fun _ => ?_
  · exact OpenSafe.close fun _ => trivial
  · exact OpenSafe.close fun _ => trivial

theorem insertAndComplete_open (t : ℕ) :
    OpenSafe cfg registrationOnly t (insertAndComplete cfg) := by
  refine OpenSafe.keep rfl rfl fun item => ?_
  refine OpenSafe.keep rfl rfl fun answer => ?_
  cases answer with
  | inserted => exact OpenSafe.close fun _ => trivial
  | integrityError =>
    refine OpenSafe.keep rfl rfl fun item => ?_
    refine OpenSafe.keep rfl rfl fun existing => ?_
    cases existing with
    | none | some ev => exact OpenSafe.close fun _ => trivial
  | failed => exact OpenSafe.close fun _ => trivial

theorem registerMemoryEvidence_open (t : ℕ) :
    OpenSafe cfg registrationOnly t (registerMemoryEvidence cfg sha256) := by
  -- `failure := none` is all that the commit before the insert sends
  have hregistering : ∀ item : Row D, (Op.commit .registering
      (item.diff { item with failure := none } false)).closes = false := by
    intro item
    have hnone : (item.diff { item with failure := none } false).status = none :=
      diff_no_status rfl
    rw [Op.closes, hnone, Option.any_none]
  refine OpenSafe.keep rfl rfl fun item => ?_
  refine OpenSafe.keep rfl rfl fun existing => ?_
  cases existing with
  | some ev => exact registerExisting_open cfg t item ev
  | none =>
    refine OpenSafe.ite (fun _ _ _ => trivial) fun _ => ?_
    cases hsha : item.sha256 with
    | none => exact fun _ _ => trivial
    | some sha =>
      refine OpenSafe.keep rfl rfl fun file => ?_
      cases file with
      | none => exact fun _ _ => trivial
      | some content =>
        refine OpenSafe.ite (fun _ _ _ => trivial) fun _ => ?_
        refine OpenSafe.ite (fun _ _ _ => trivial) fun _ => ?_
        refine OpenSafe.keep rfl rfl fun duplicate => ?_
        cases duplicate with
        | some ref => exact OpenSafe.close fun _ => trivial
        | none =>
          refine OpenSafe.keep rfl (hregistering item) fun _ => ?_
          exact insertAndComplete_open cfg t

theorem onDuplicate_open {α : Type} (t : ℕ) (item : Row D) (sha : D) (ref : DuplicateRef) :
    OpenSafe cfg (openOnFailure (α := α)) t (onDuplicate item sha ref) := by
  refine OpenSafe.keep rfl rfl fun _ => ?_
  refine OpenSafe.keep rfl rfl fun _ => ?_
  exact OpenSafe.keep rfl (diff_not_closes rfl) fun _ => OpenSafe.raise fun _ hw => hw

theorem promoteAndRegister_open (t : ℕ) (item : Row D) (content : Bytes) :
    OpenSafe cfg openOnFailure t (promoteAndRegister cfg sha256 item content) := by
  refine OpenSafe.keep rfl (diff_not_closes rfl) fun _ => ?_
  refine OpenSafe.keep rfl rfl fun _ => ?_
  refine OpenSafe.ite (fun _ => OpenSafe.raise fun _ hw => hw) fun _ => ?_
  refine OpenSafe.keep rfl rfl fun _ => ?_
  refine OpenSafe.ite (fun _ => OpenSafe.raise fun _ hw => hw) fun _ => ?_
  intro w hw
  refine (Prog.walk_bind _ _ _ _).mpr ?_
  refine (registerMemoryEvidence_open cfg sha256 t w hw).mono ?_
  rintro (e | ev) w' hpost
  · cases e with
    | registration e => trivial
    | _ => exact hpost.elim
  · exact Prog.Ok.harmless (status_harmless cfg rfl) fun _ _ _ _ => trivial

theorem runChunkedFinalize_open (t : ℕ) (item : Row D) (expectedSha : Option D) :
    OpenSafe cfg openOnFailure t (runChunkedFinalize cfg sha256 item expectedSha) := by
  refine OpenSafe.keep rfl (diff_not_closes rfl) fun _ => ?_
  refine OpenSafe.keep rfl rfl fun assembled => ?_
  cases assembled with
  | none => exact OpenSafe.raise fun _ hw => hw
  | some content =>
    refine OpenSafe.ite (fun _ => OpenSafe.raise fun _ hw => hw) fun _ => ?_
    refine OpenSafe.ite (fun _ => OpenSafe.raise fun _ hw => hw) fun _ => ?_
    refine OpenSafe.keep rfl rfl fun item => ?_
    refine OpenSafe.keep rfl rfl fun duplicate => ?_
    cases duplicate with
    | some ref => exact onDuplicate_open cfg t item _ ref
    | none => exact promoteAndRegister_open cfg sha256 t item content

omit [DecidableEq D] in
theorem finalizeFailed_open {α : Type} {Q : Except UploadError α → World D → Prop} (t : ℕ)
    (e : UploadError) (hQ : ∀ w, Q (.error e) w) :
    OpenSafe cfg Q t (finalizeFailed e) := by
  unfold finalizeFailed
  split
  · exact fun w _ => hQ w
  · refine OpenSafe.keep rfl rfl fun _ => ?_
    exact OpenSafe.close hQ

/-- From an open status the whole finalization is safe. -/
theorem finalizeUnfinished_open (t : ℕ) (item : Row D) (expectedSha : ShaHeader D) :
    OpenSafe cfg (fun _ _ => True) t
      (finalizeUnfinished cfg sha256 item expectedSha) := by
  refine OpenSafe.keep rfl rfl fun view => ?_
  refine OpenSafe.ite (fun _ => OpenSafe.close fun _ => trivial) fun _ => ?_
  split
  · exact fun _ _ => trivial
  · refine OpenSafe.ite (fun _ _ _ => trivial) fun _ => ?_
    refine OpenSafe.keep rfl rfl fun _ => ?_
    refine OpenSafe.ite (fun _ _ _ => trivial) fun _ => ?_
    intro w hw
    refine (Prog.walk_bind _ _ _ _).mpr ((Prog.walk_handle _ _ _ _).mpr ?_)
    refine (runChunkedFinalize_open cfg sha256 t item _ w hw).mono ?_
    rintro (e | ev) w' hpost
    · cases e with
      | registration e => trivial
      | _ => exact finalizeFailed_open cfg t _ (fun _ => trivial) w' hpost
    · exact Prog.Ok.harmless (status_harmless cfg rfl) fun _ _ _ _ => trivial

theorem finalize_status (t : ℕ) (expectedSha : ShaHeader D) :
    StatusSafe cfg t (finalizeMemoryUploadSession cfg sha256 expectedSha) := by
  refine withLock_status cfg t _ ?_
  intro w
  refine Prog.Ok.harmless (status_harmless cfg rfl) fun w' _ _ _ => ?_
  refine Prog.Ok.ite (fun _ => ?_) fun hcompleted => ?_
  · exact Prog.Ok.harmless (status_harmless cfg rfl) fun _ _ _ _ => trivial
  · refine Prog.Ok.ite (fun _ => trivial) fun hended => ?_
    refine Prog.Ok.ite (fun _ => trivial) fun _ => ?_
    have hopen : closed w' = false := by
      have hcompleted : ¬ w'.row.status = .completed := hcompleted
      have hended : ¬ w'.row.status ∈ [.cancelled, .expired, .inconsistent] := hended
      unfold closed
      cases hs : w'.row.status <;> simp_all [UploadStatus.isClosed]
    exact finalizeUnfinished_open cfg sha256 t w'.row expectedSha w' hopen

/-! ### Cancel and cleanup -/

theorem cancel_status (t : ℕ) (reason : Option String) :
    StatusSafe cfg t (cancelMemoryUploadSession (D := D) reason) := by
  intro w
  refine Prog.Ok.harmless (status_harmless cfg rfl) fun w' _ _ _ => ?_
  refine Prog.Ok.ite (fun _ => trivial) fun hcompleted => ?_
  refine Prog.Ok.ite (fun _ => trivial) fun hended => ?_
  have hopen : closed w' = false := by
    have hcompleted : ¬ w'.row.status = .completed := hcompleted
    have hended : ¬ w'.row.status ∈ [.cancelled, .expired, .failed, .inconsistent] := hended
    unfold closed
    cases hs : w'.row.status <;> simp_all [UploadStatus.isClosed]
  refine OpenSafe.close ?_ w' hopen
  exact Prog.Safe.perform (status_harmless cfg rfl)
    fun _ _ _ => Prog.Safe.last (status_harmless cfg rfl)

theorem cleanupExpired_status (t : ℕ) (stale : Bool) :
    StatusSafe cfg t (cleanupExpiredSession (D := D) stale) := by
  refine Prog.Safe.perform (status_harmless cfg rfl) fun w₀ e₀ _ => ?_
  intro w
  refine Prog.Ok.harmless (status_harmless cfg rfl) fun w' _ _ _ => ?_
  refine Prog.Ok.ite (fun hactive => ?_) fun _ => ?_
  · have hopen : closed w' = false := by
      have hactive : w'.row.status.isActive = true := hactive.1
      unfold closed
      cases hs : w'.row.status <;> simp_all [UploadStatus.isActive, UploadStatus.isClosed]
    refine OpenSafe.close ?_ w' hopen
    exact Prog.Safe.perform (status_harmless cfg rfl) fun _ _ _ => Prog.Safe.pure _
  · refine Prog.Safe.perform (status_harmless cfg rfl) (fun _ _ _ => ?_) _
    refine .ite (fun _ => ?_) fun _ => Prog.Safe.pure _
    exact Prog.Safe.perform (status_harmless cfg rfl) fun _ _ _ => Prog.Safe.pure _

omit [DecidableEq D] in
theorem cleanupStaging_status (t : ℕ) : StatusSafe cfg t (cleanupMemoryUploadStaging (D := D)) := by
  refine Prog.Safe.perform (status_harmless cfg rfl) fun _ _ _ => ?_
  refine .ite (fun _ => Prog.Safe.pure _) fun _ => ?_
  exact Prog.Safe.perform (status_harmless cfg rfl) fun _ _ _ => Prog.Safe.pure _

/-- Every request of the session keeps the guarantee. -/
theorem handler_status (t : ℕ) (r : Request D) : StatusSafe cfg t (r.handler cfg sha256) := by
  cases r with
  | store put => exact (store_status cfg sha256 t put).bind fun _ => Prog.Safe.pure _
  | finalize expectedSha => exact finalize_status cfg sha256 t expectedSha
  | cancel reason => exact (cancel_status cfg t reason).bind fun _ => Prog.Safe.pure _
  | cleanupExpired stale =>
    exact (cleanupExpired_status cfg t stale).bind fun _ => Prog.Safe.pure _
  | cleanupStaging => exact (cleanupStaging_status cfg t).bind fun _ => Prog.Safe.pure _

/-! ### Whole runs -/

theorem status_compatible : Compatible (machine cfg) (fun _ => True) statusRely statusGuar
      (fun _ => fun _ _ => True)
      (fun (c : SessionConfig D) a => RequestsOnly cfg sha256 c a ∧ NoneUnguarded c a) where
  refl := fun _ _ _ _ h => h
  trans := fun _ _ _ _ _ h h' ho hw => h' ho (h ho hw)
  step := by
    intro c t o k u o' k' e htu ht hu hP _ ho' hopen
    cases hcl : o.closes with
    | false => exact exec_open cfg hcl e hopen
    | true =>
      have hguarded := hP.2 o (pending_of_threads ht) hcl u (Ne.symm htu) o'
        (pending_of_threads hu)
      rw [hguarded] at ho'
      cases ho'
  reap_inv := fun _ _ _ => trivial
  reap := fun _ _ _ _ _ _ _ h => h
  spawn := by
    rintro c p ⟨⟨r, rfl⟩, -⟩ _
    exact handler_status cfg sha256 c.next r c.state

/-- **Closed statuses are final** on schedules where none is committed while
another process is unguarded. -/
theorem terminal_absorbing (w₀ : World D) :
    TerminalAbsorbing cfg (fun c a => RequestsOnly cfg sha256 c a ∧ NoneUnguarded c a) w₀ := by
  intro c c' hreach hclosed hreach'
  have hc := status_compatible cfg sha256
  have hs : Sound (machine cfg) (fun _ => True) statusRely statusGuar
      (fun _ => fun _ _ => True) c := (Sound.init trivial).reach hc hreach
  induction hreach' with
  | refl => rfl
  | @tail d d' hd hstep ih =>
    have hclosed' : closed d.state = true := by rw [closed, ih]; exact hclosed
    obtain ⟨a, hP, hact⟩ := hstep
    refine Eq.trans ?_ ih
    refine (hs.reach hc hd).act_state hc hact (fun w w' => w'.row.status = w.row.status)
      (fun _ => rfl) (fun _ => rfl) ?_
    intro t o e hg
    exact hg hclosed'

end Handlers

/-! ### A reopened status -/

/-- A chunk store runs up to the read of its record; then the session is
cancelled. -/
def untilCancelled : List (SessionAction ℕ) :=
  [start (.store (putByte 0 97)), start (.cancel none)]
    ++ List.replicate 11 (stepOf 0) ++ List.replicate 2 (stepOf 1)

/-- The statuses after the cancel and after the store has recorded its chunk. -/
def reopenedRun : Option (UploadStatus × UploadStatus) := do
  let c ← (Config.init (newWorld 0 300)).run (machine twoChunks) untilCancelled
  let c' ← c.run (machine twoChunks) (List.replicate 2 (stepOf 0))
  some (c.state.row.status, c'.state.row.status)

theorem reopenedRun_eq : reopenedRun = some (.cancelled, .uploading) := by
  decide +kernel

/-- A chunk that was in flight sets a cancelled session back to `uploading`. -/
theorem status_reopened :
    ¬ TerminalAbsorbing twoChunks (RequestsOnly twoChunks sampleDigest) (newWorld 0 300) := by
  intro h
  have hrun := reopenedRun_eq
  simp only [reopenedRun, Option.bind_eq_bind, Option.bind_eq_some_iff, Option.some.injEq,
    Prod.mk.injEq] at hrun
  obtain ⟨c, hc, c', hc', hcancelled, huploading⟩ := hrun
  have hstep : ∀ t (d : SessionConfig ℕ), RequestsOnly twoChunks sampleDigest d (stepOf t) :=
    fun _ _ => trivial
  have hreach : Config.Reach (machine twoChunks) (RequestsOnly twoChunks sampleDigest)
      (Config.init (newWorld 0 300)) c := by
    refine Config.Reach.of_run _ untilCancelled ?_ hc
    intro a ha d
    simp only [untilCancelled, List.mem_append, List.mem_cons, List.mem_replicate,
      List.not_mem_nil, or_false] at ha
    rcases ha with ((rfl | rfl) | ⟨-, rfl⟩) | ⟨-, rfl⟩
    · exact ⟨_, rfl⟩
    · exact ⟨_, rfl⟩
    · exact hstep 0 d
    · exact hstep 1 d
  have hreach' : Config.Reach (machine twoChunks) (RequestsOnly twoChunks sampleDigest) c c' := by
    refine Config.Reach.of_run _ _ ?_ hc'
    intro a ha d
    obtain ⟨-, rfl⟩ := List.mem_replicate.mp ha
    exact hstep 0 d
  have hsame := h c c' hreach (by rw [closed, hcancelled]; rfl) hreach'
  rw [hcancelled, huploading] at hsame
  cases hsame

end Kairon.Upload

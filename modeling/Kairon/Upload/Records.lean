/-
Kairon/Upload/Records.lean

Are chunk records ever lost?  Any number of `store_memory_upload_chunk_stream`
calls of one session run interleaved.  Each of them writes `metadata_json`
back whole at three places: it marks its index active, records the chunk,
clears the mark.  Recording happens under the session-wide `chunks_meta`
lock, so two records never overlap.  Marking and clearing hold only the lock
of their own chunk index: a record committed between their read and their
commit is overwritten by the stale copy (`record_lost`).

That is the only way.  A call *holds a copy* from its read under the chunk
lock (or in its `finally` block) to the commit that writes the copy back;
if no record is committed while another call holds a copy (`NoOverlap`),
then every commit keeps every record (`records_kept`).  The argument is the
rely/guarantee rule: while a copy is held the records do not change, so
writing the copy back does not change them either.
-/
import Kairon.Upload.Create

namespace Kairon.Upload

open Concur

variable {D : Type}

/-! ### Which calls hold a copy -/

/-- The chunk records of the committed row. -/
def records (w : World D) : Finmap fun _ : ℕ => ChunkRecord D :=
  w.row.metadata.receivedChunks

namespace Op

/-- The pending operation of a call that has read the row and is going to
write its `metadata_json` back for the sake of `active_chunks`. -/
def holdsCopy : Op D → Bool
  | .chunkFile .storeLocked _ => true
  | .commit .markActive p => p.metadata.isSome
  | .commit .clearActive p => p.metadata.isSome
  | _ => false

/-- The commit of `_record_chunk_received`, with its index. -/
def recordIndex : Op D → Option ℕ
  | .commit (.record i) _ => some i
  | _ => none

end Op

/-- The schedule condition: no record is committed while another call of the
session holds a copy of the row. -/
def NoOverlap (c : SessionConfig D) : SessionAction D → Prop
  | .step t _ => ∀ o, pending c t = some o → o.recordIndex.isSome →
      ∀ u, u ≠ t → ∀ o', pending c u = some o' → o'.holdsCopy = false
  | _ => True

variable [DecidableEq D]

/-- Only chunk stores are started. -/
def StoresOnly (cfg : Session D) (sha256 : Bytes → D) (_ : SessionConfig D) :
    SessionAction D → Prop
  | .spawn p => ∃ put, p = (Request.store put).handler cfg sha256
  | _ => True

/-- Once a record of `i` is committed, every later committed state has it. -/
def NoRecordLost (cfg : Session D) (P : SessionConfig D → SessionAction D → Prop)
    (w₀ : World D) : Prop :=
  ∀ (c c' c'' : SessionConfig D) (t : ℕ) (e : Env) (o : Op D) (i : ℕ),
    Config.Reach (machine cfg) P (Config.init w₀) c →
    pending c t = some o → o.recordIndex = some i →
    P c (.step t e) → c.act (machine cfg) (.step t e) = some c' →
    Config.Reach (machine cfg) P c' c'' → i ∈ records c''.state

/-! ### Rely and guarantee -/

/-- While a copy is held, and while the own record is pending under the
`chunks_meta` lock, the records stay as they are. -/
def recordsRely (t : ℕ) (o : Op D) (w w' : World D) : Prop :=
  (w.locks .chunksMeta = some t → w'.locks .chunksMeta = some t) ∧
  (o.holdsCopy = true → records w' = records w) ∧
  (o.recordIndex.isSome → w.locks .chunksMeta = some t → records w' = records w)

/-- Records are only ever added, and only by a record commit under the lock. -/
def recordsGuar (t : ℕ) (o : Op D) (w w' : World D) : Prop :=
  (∀ u, u ≠ t → w.locks .chunksMeta = some u → w'.locks .chunksMeta = some u) ∧
  (∀ i, i ∈ records w → i ∈ records w') ∧
  (o.recordIndex = none → records w' = records w) ∧
  (∀ i, o.recordIndex = some i → w.locks .chunksMeta = some t ∧ i ∈ records w')

variable (cfg : Session D)

/-- `Prog.Safe` for this rely and guarantee; there is no shared invariant. -/
abbrev RecordsSafe {α : Type} (t : ℕ) (p : Handler D α) : Prop :=
  p.Safe (machine cfg) (fun _ => True) recordsRely recordsGuar t

abbrev RecordsOk {α : Type} (t : ℕ) (p : Handler D α) (w : World D) : Prop :=
  p.Ok (machine cfg) (fun _ => True) recordsRely recordsGuar (fun _ _ => True) t w

omit [DecidableEq D] in
/-- A step that leaves the records alone and is not a record commit. -/
theorem recordsGuar_of_same {t : ℕ} {o : Op D} (ho : o.recordIndex = none) {e : Env}
    {w : World D} (h : records (exec cfg t o e w).1 = records w) :
    recordsGuar t o w (exec cfg t o e w).1 := by
  refine ⟨?_, ?_, fun _ => h, ?_⟩
  · intro u hu hl
    exact exec_locks_other cfg hu o e hl
  · intro i hi
    rw [h]
    exact hi
  · intro i hi
    rw [ho] at hi
    cases hi

omit [DecidableEq D] in
theorem harmless_of_not_commit {t : ℕ} {o : Op D} (ho : o.isCommit = false) :
    Harmless (machine cfg) (fun _ => True) recordsGuar t o := by
  intro w e _
  have hrec : o.recordIndex = none := by
    cases o <;> first | rfl | cases ho
  refine ⟨trivial, recordsGuar_of_same cfg hrec ?_⟩
  simp only [records, exec_row cfg t ho]

variable {place : CommitPlace}

omit [DecidableEq D] in
/-- A commit that does not send `metadata_json`. -/
theorem harmless_of_no_metadata {t : ℕ} {p : Patch D}
    (hplace : (Op.commit place p).recordIndex = none) (hp : p.metadata = none) :
    Harmless (machine cfg) (fun _ => True) recordsGuar t (.commit place p) := by
  intro w e _
  refine ⟨trivial, recordsGuar_of_same cfg hplace ?_⟩
  simp [records, exec, Row.apply, hp]

/-! ### The calls -/

/-- Writing back a copy whose records are the present ones. -/
theorem exec_copy_back {t : ℕ} {item new : Row D} {touch : Bool}
    {w : World D} (e : Env) (hnew : new.metadata.receivedChunks = item.metadata.receivedChunks)
    (hw : records w = item.metadata.receivedChunks) :
    records (exec cfg t (.commit place (item.diff new touch)) e w).1 = records w := by
  simp only [records, exec, Row.apply, Row.diff]
  cases h : changed item.metadata new.metadata with
  | none => rfl
  | some m =>
    rw [changed_eq_some h, Option.getD_some, hnew]
    exact hw.symm

/-- The commit of a held copy keeps the records. -/
theorem recordsOk_copy_back {α : Type} {t : ℕ} {item : Row D} {i : ℕ}
    {b : Bool} {w : World D} {f : Unit → Handler D α}
    (hcopy : ∀ p : Patch D, p.metadata.isSome → (Op.commit place p).holdsCopy = true)
    (hplace : ∀ p : Patch D, (Op.commit place p).recordIndex = none)
    (hw : records w = item.metadata.receivedChunks) (hf : RecordsSafe cfg t (f ())) :
    RecordsOk cfg t
      (perform (.commit place (item.diff (setActiveChunk item i b) false)) >>= f) w := by
  intro w' _ hr e
  cases hm : (item.diff (setActiveChunk item i b) false).metadata with
  | none =>
    obtain ⟨-, hguar⟩ := harmless_of_no_metadata cfg (t := t) (hplace _) hm w' e trivial
    exact ⟨trivial, hguar, hf _⟩
  | some m =>
    have hw' : records w' = item.metadata.receivedChunks :=
      (hr.2.1 (hcopy _ (by rw [hm]; rfl))).trans hw
    refine ⟨trivial, recordsGuar_of_same cfg (hplace _) ?_, hf _⟩
    exact exec_copy_back cfg e rfl hw'

theorem clearActive_safe (t i : ℕ) : RecordsSafe cfg t (clearActive (D := D) i) := by
  intro w
  refine Prog.Ok.harmless (harmless_of_not_commit cfg rfl) fun w' _ _ _ => ?_
  refine recordsOk_copy_back cfg (fun _ h => h) (fun _ => rfl) rfl ?_
  exact Prog.Safe.last (harmless_of_not_commit cfg rfl)

/-- The record commit adds its index to the records it was read with. -/
theorem exec_record {t : ℕ} (i size : ℕ) (sha : D) (status : Option UploadStatus)
    {w w' : World D} (e : Env) (h : records w' = records w) :
    records (exec cfg t (.commit (.record i)
        (w.row.diff (recordedRow w.row i size sha status) true)) e w').1
      = (records w).insert i ⟨size, sha⟩ := by
  simp only [records, exec, Row.apply, Row.diff]
  have hstay := changed_getD w.row.metadata (recordedRow w.row i size sha status).metadata
  cases hm : changed w.row.metadata (recordedRow w.row i size sha status).metadata with
  | none =>
    rw [hm, Option.getD_none] at hstay
    rw [Option.getD_none]
    exact h.trans (congrArg SessionMetadata.receivedChunks hstay)
  | some m =>
    rw [changed_eq_some hm]
    rfl

/-- Under the `chunks_meta` lock the copy that `_record_chunk_received`
merges into is the committed one, so nothing is dropped. -/
theorem recordChunkReceived_safe (t i size : ℕ) (sha : D) (status : Option UploadStatus) :
    RecordsSafe cfg t (recordChunkReceived i size sha status) := by
  refine withLock_ok (harmless_of_not_commit cfg rfl) (fun _ => ⟨trivial, trivial⟩) ?_
  intro w₂ _ hlock
  refine (Prog.walk_followedBy _ _ _ _).mpr ?_
  refine Prog.Ok.harmless (harmless_of_not_commit cfg rfl) fun w₃ e₃ _ hr₃ => ?_
  have hlock₃ := hr₃.1 hlock
  refine Prog.Ok.perform fun w₄ _ hr₄ e₄ => ?_
  have hlock₄ := hr₄.1 hlock₃
  have hrec₄ : records w₄ = records w₃ := hr₄.2.2 rfl hlock₃
  have hnew := exec_record cfg (t := t) i size sha status e₄ hrec₄
  refine ⟨trivial, ⟨?_, ?_, ?_, ?_⟩, ?_⟩
  · intro u hu hl
    exact exec_locks_other cfg hu _ e₄ hl
  · intro j hj
    rw [hrec₄] at hj
    exact hnew ▸ Finmap.mem_insert.mpr (.inr hj)
  · intro hnone
    cases hnone
  · intro j hj
    obtain rfl := Option.some.inj hj
    exact ⟨hlock₄, hnew ▸ Finmap.mem_insert.mpr (.inl rfl)⟩
  · refine Prog.Ok.harmless (harmless_of_not_commit cfg rfl) fun _ _ _ _ => ?_
    exact (Prog.Safe.last (harmless_of_not_commit cfg rfl) _).mono
      fun r _ _ => by cases r <;> trivial

variable (sha256 : Bytes → D)

theorem compareExisting_safe (t : ℕ) (item : Row D) (i : ℕ) (content : Bytes) :
    RecordsSafe cfg t (compareExisting sha256 item i content) := by
  unfold compareExisting
  split
  · refine Prog.Safe.perform (harmless_of_not_commit cfg rfl) fun _ _ _ => ?_
    split
    · exact Prog.Safe.pure _
    · exact Prog.Safe.raise _
  · refine Prog.Safe.perform (harmless_of_not_commit cfg rfl) fun w e _ => ?_
    split
    · exact Prog.Safe.perform (harmless_of_not_commit cfg rfl) fun _ _ _ => Prog.Safe.raise _
    · refine Prog.Safe.perform (harmless_of_not_commit cfg rfl) fun _ _ _ => ?_
      split
      · exact Prog.Safe.raise _
      · split
        · exact recordChunkReceived_safe cfg t i _ _ none
        · exact Prog.Safe.raise _

theorem renameAndRecord_safe (t i : ℕ) (content : Bytes) :
    RecordsSafe cfg t (renameAndRecord sha256 i content) := by
  refine Prog.Safe.perform (harmless_of_not_commit cfg rfl) fun _ _ _ => ?_
  split
  · exact recordChunkReceived_safe cfg t i _ _ _
  · refine Prog.Safe.perform (harmless_of_not_commit cfg rfl) fun _ _ _ => ?_
    split <;> exact Prog.Safe.raise _

theorem storeBody_safe (t : ℕ) (item : Row D) (put : ChunkPut D) (i : ℕ) (len : ℤ)
    (declared : Option D) :
    RecordsSafe cfg t (storeBody sha256 item put i len declared) := by
  refine Prog.Safe.perform (harmless_of_not_commit cfg rfl) fun _ _ _ => ?_
  refine Prog.Safe.perform (harmless_of_not_commit cfg rfl) fun _ _ _ => ?_
  split
  · exact Prog.Safe.raise _
  · split
    · exact Prog.Safe.perform (harmless_of_not_commit cfg rfl) fun _ _ _ => Prog.Safe.raise _
    · split
      · exact Prog.Safe.raise _
      · split
        · exact Prog.Safe.perform (harmless_of_not_commit cfg rfl)
            fun _ _ _ => Prog.Safe.raise _
        · split
          · exact Prog.Safe.perform (harmless_of_not_commit cfg rfl)
              fun _ _ _ => Prog.Safe.raise _
          · refine Prog.Safe.perform (harmless_of_not_commit cfg rfl) fun _ _ _ => ?_
            split
            · exact compareExisting_safe cfg sha256 t item i _
            · exact renameAndRecord_safe cfg sha256 t i _

/-- From the read under the chunk lock to the commit of the active mark the
records do not change, so the commit keeps them. -/
theorem storeLocked_safe (t : ℕ) (put : ChunkPut D) (i : ℕ) (len : ℤ)
    (declared : Option D) :
    RecordsSafe cfg t (storeLocked sha256 put i len declared) := by
  intro w
  refine Prog.Ok.harmless (harmless_of_not_commit cfg rfl) fun w' _ _ _ => ?_
  have hrest : RecordsSafe cfg t
      ((storeBody sha256 w'.row put i len declared).followedBy (clearActive i)) :=
    (storeBody_safe cfg sha256 t w'.row put i len declared).followedBy
      (clearActive_safe cfg t i)
  refine Prog.Ok.ite (fun _ => trivial) fun _ => ?_
  unfold alreadyStored
  split
  · exact recordsOk_copy_back cfg (fun _ h => h) (fun _ => rfl) rfl hrest
  · refine Prog.Ok.harmless (harmless_of_not_commit cfg rfl) fun w'' _ _ hr => ?_
    refine Prog.Ok.ite (fun _ => trivial) fun _ => ?_
    exact recordsOk_copy_back cfg (fun _ h => h) (fun _ => rfl) (hr.2.1 rfl) hrest

omit [DecidableEq D] in
theorem withLock_safe {α : Type} (t : ℕ) (k : LockKey) {body : Handler D α}
    (hbody : RecordsSafe cfg t body) : RecordsSafe cfg t (withLock k body) := by
  refine Prog.Safe.perform (harmless_of_not_commit cfg rfl) fun _ _ _ => ?_
  split
  · exact hbody.followedBy (Prog.Safe.last (harmless_of_not_commit cfg rfl))
  · exact Prog.Safe.raise _
  · exact Prog.Safe.raise _

theorem storeChecked_safe (t : ℕ) (item : Row D) (put : ChunkPut D) (i : ℕ) :
    RecordsSafe cfg t (storeChecked cfg sha256 item put i) := by
  unfold storeChecked
  split
  · exact Prog.Safe.raise _
  · split
    · exact Prog.Safe.raise _
    · refine Prog.Safe.bind ?_ fun b => ?_
      · unfold alreadyStored
        split
        · exact Prog.Safe.pure _
        · exact Prog.Safe.perform (harmless_of_not_commit cfg rfl) fun _ _ _ => Prog.Safe.pure _
      · split
        · exact Prog.Safe.pure _
        · exact withLock_safe cfg t _ (storeLocked_safe cfg sha256 t put i _ _)

/-- Every store call keeps the guarantee. -/
theorem store_safe (t : ℕ) (put : ChunkPut D) :
    RecordsSafe cfg t ((Request.store put).handler cfg sha256) := by
  refine Prog.Safe.bind ?_ fun _ => Prog.Safe.pure _
  refine Prog.Safe.perform (harmless_of_not_commit cfg rfl) fun w _ _ => ?_
  refine .ite (fun _ => Prog.Safe.raise _) fun _ => ?_
  refine .ite (fun _ => Prog.Safe.raise _) fun _ => ?_
  refine .ite (fun _ => Prog.Safe.raise _) fun _ => ?_
  refine .ite (fun _ => Prog.Safe.raise _) fun _ => ?_
  refine Prog.Safe.perform (harmless_of_not_commit cfg rfl) fun _ _ _ => ?_
  refine .ite (fun _ => ?_) fun _ => ?_
  · refine Prog.Safe.perform (harmless_of_no_metadata cfg rfl ?_) fun _ _ _ => Prog.Safe.raise _
    simp [Row.diff, expiredRow, changed]
  · refine Prog.Safe.perform (harmless_of_not_commit cfg rfl) fun _ _ _ => ?_
    refine .ite (fun _ => ?_) fun _ => ?_
    · refine Prog.Safe.perform (harmless_of_no_metadata cfg rfl ?_)
        fun _ _ _ => Prog.Safe.raise _
      simp [Row.diff, unusableRow, changed]
    · exact storeChecked_safe cfg sha256 t w.row put _

/-! ### Whole runs -/

/-- The schedule condition makes each guarantee imply the others' relies. -/
theorem records_compatible : Compatible (machine cfg) (fun _ => True) recordsRely recordsGuar
      (fun _ => fun _ _ => True)
      (fun (c : SessionConfig D) a => StoresOnly cfg sha256 c a ∧ NoOverlap c a) where
  refl := fun t o w => ⟨id, fun _ => rfl, fun _ _ => rfl⟩
  trans := by
    intro t o w w' w'' h h'
    refine ⟨fun hl => h'.1 (h.1 hl), fun ho => (h'.2.1 ho).trans (h.2.1 ho), ?_⟩
    intro ho hl
    exact (h'.2.2 ho (h.1 hl)).trans (h.2.2 ho hl)
  step := by
    intro c t o k u o' k' e htu ht hu hP hg
    obtain ⟨hlocks, -, hsame, hrec⟩ := hg
    refine ⟨hlocks u (Ne.symm htu), ?_, ?_⟩
    · intro hcopy
      -- a record commit is excluded by the schedule, anything else is a frame
      cases ho : o.recordIndex with
      | none => exact hsame ho
      | some i =>
        have := hP.2 o (pending_of_threads ht) (by simp [ho]) u (Ne.symm htu) o'
          (pending_of_threads hu)
        rw [this] at hcopy
        cases hcopy
    · intro _ hlock
      -- both cannot hold the `chunks_meta` lock
      cases ho : o.recordIndex with
      | none => exact hsame ho
      | some i =>
        have := (hrec i ho).1
        rw [hlock] at this
        exact absurd (Option.some.inj this).symm htu
  reap_inv := fun _ _ _ => trivial
  reap := by
    intro c t u o htu _
    refine ⟨fun hl => reap_locks_other (Ne.symm htu) hl, fun _ => rfl, fun _ _ => rfl⟩
  spawn := by
    rintro c p ⟨⟨put, rfl⟩, -⟩ _
    exact store_safe cfg sha256 c.next put c.state

/-- Along a run of the schedule, records are only added. -/
theorem records_grow {c c' : SessionConfig D}
    (hs : Sound (machine cfg) (fun _ => True) recordsRely recordsGuar
      (fun _ => fun _ _ => True) c)
    (hr : Config.Reach (machine cfg)
      (fun c a => StoresOnly cfg sha256 c a ∧ NoOverlap c a) c c') {i : ℕ}
    (hi : i ∈ records c.state) : i ∈ records c'.state := by
  have hc := records_compatible cfg sha256
  induction hr with
  | refl => exact hi
  | @tail d d' hd hstep ih =>
    obtain ⟨a, hP, hact⟩ := hstep
    refine (hs.reach hc hd).act_state hc hact (fun w w' => i ∈ records w → i ∈ records w')
      (fun _ h => h) (fun _ h => h) ?_ ih
    intro t o e hg h
    exact hg.2.1 i h

/-- **No chunk record is lost** on schedules where no record is committed
while another call holds a copy of the row. -/
theorem records_kept (w₀ : World D) :
    NoRecordLost cfg (fun c a => StoresOnly cfg sha256 c a ∧ NoOverlap c a) w₀ := by
  intro c c' c'' t e o i hreach hpend hidx hP hact hreach'
  have hc := records_compatible cfg sha256
  have hs : Sound (machine cfg) (fun _ => True) recordsRely recordsGuar
      (fun _ => fun _ _ => True) c := (Sound.init trivial).reach hc hreach
  obtain ⟨o', k, ht, rfl⟩ := Config.act_step _ hact
  obtain rfl : o' = o := Option.some.inj ((pending_of_threads ht).symm.trans hpend)
  refine records_grow cfg sha256 (hs.act hc hP hact) hreach' ?_
  exact ((hs.guar hc ht e).2.1.2.2.2 i hidx).2

/-! ### A lost record -/

/-- Chunk 0 has been read under its lock and is about to be marked active;
chunk 1 has run up to its record. -/
def beforeRecord : List (SessionAction ℕ) :=
  [start (.store (putByte 0 97)), start (.store (putByte 1 98))]
    ++ List.replicate 5 (stepOf 0) ++ List.replicate 12 (stepOf 1)

/-- Process 1 commits its record, then process 0 its mark: the index that was
recorded, and whether its record is still there. -/
def lostRun : Option (Option ℕ × Bool) := do
  let c ← (Config.init (newWorld 0 300)).run (machine twoChunks) beforeRecord
  let c' ← c.act (machine twoChunks) (stepOf 1)
  let c'' ← c'.act (machine twoChunks) (stepOf 0)
  some ((pending c 1).bind Op.recordIndex, ((records c''.state).lookup 1).isSome)

theorem lostRun_eq : lostRun = some (some 1, false) := by
  decide +kernel

/-- The stale copy of process 0 drops the record of chunk 1. -/
theorem record_lost :
    ¬ NoRecordLost twoChunks (StoresOnly twoChunks sampleDigest) (newWorld 0 300) := by
  intro h
  have hrun := lostRun_eq
  simp only [lostRun, Option.bind_eq_bind, Option.bind_eq_some_iff, Option.some.injEq,
    Prod.mk.injEq] at hrun
  obtain ⟨c, hc, c', hc', c'', hc'', ⟨o, ho, hidx⟩, hgone⟩ := hrun
  have hstep : ∀ t (d : SessionConfig ℕ), StoresOnly twoChunks sampleDigest d (stepOf t) :=
    fun _ _ => trivial
  have hreach : Config.Reach (machine twoChunks) (StoresOnly twoChunks sampleDigest)
      (Config.init (newWorld 0 300)) c := by
    refine Config.Reach.of_run _ beforeRecord ?_ hc
    intro a ha d
    simp only [beforeRecord, List.mem_append, List.mem_cons, List.mem_replicate,
      List.not_mem_nil, or_false] at ha
    rcases ha with ((rfl | rfl) | ⟨-, rfl⟩) | ⟨-, rfl⟩
    · exact ⟨_, rfl⟩
    · exact ⟨_, rfl⟩
    · exact hstep 0 d
    · exact hstep 1 d
  have hkept : 1 ∈ records c''.state :=
    h c c' c'' 1 _ o 1 hreach ho hidx (hstep 1 c) hc' (.single ⟨_, hstep 0 c', hc''⟩)
  rw [← Finmap.lookup_isSome] at hkept
  rw [hkept] at hgone
  cases hgone

end Kairon.Upload

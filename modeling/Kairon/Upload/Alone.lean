/-
Kairon/Upload/Alone.lean

The requests of a session run one after another, with nothing failing around
them: the lock backend answers, there is room on the disk, the case holds no
duplicate, and the clock stays in a window (`Calm`).  What a finalize call
and a chunk store do is then decided by the state they start in:

* `finalize_succeeds`, `finalize_fails`: a finalize call succeeds exactly if
  no chunk is marked active, the staging directory holds every recorded
  chunk, every chunk is recorded, and the chunks reach the end of the file
  (`FinalizeReady`);
* `store_rejected`, `store_unusable`, `store_stored`: a chunk store is
  refused while the session is finalizing or over, fails the session if the
  staging directory is not usable, and else records its chunk.
-/
import Kairon.Upload.Publish

namespace Kairon.Upload

open Concur

variable {D : Type}

/-- Nothing external fails, and the clock stays between `lo` and `hi`. -/
structure Calm (lo hi : ℕ) (e : Env) : Prop where
  ok : e.ok = true
  duplicate : e.duplicate = none
  lo_le : lo ≤ e.now
  le_hi : e.now ≤ hi

variable [DecidableEq D] (cfg : Session D) (sha256 : Bytes → D) (t lo hi : ℕ)

/-- Weakest precondition of a request of process `t` run alone. -/
abbrev Alone {α : Type} (Q : Except UploadError α → World D → Prop) (p : Handler D α)
    (w : World D) : Prop :=
  p.wp (machine cfg) t (Calm lo hi) Q w

variable {cfg sha256 t lo hi} {α β : Type} {Q : Except UploadError β → World D → Prop}

/-! ### Rules -/

/-- Writing back what was just loaded. -/
theorem Row.apply_diff (item new : Row D) (touch : Bool) (now ttl : ℕ) :
    item.apply (item.diff new touch) now ttl
      = { new with expiresAt := if touch then some (now + ttl) else item.expiresAt } := by
  simp only [Row.apply, Row.diff, changed_getD]
  rfl

/-- The world after the row `new` was written. -/
structure Committed (cfg : Session D) (lo : ℕ) (w : World D) (new : Row D) (touch : Bool)
    (w' : World D) : Prop where
  row : w'.row = { new with expiresAt := w'.row.expiresAt }
  expires : if touch then ∃ now, lo ≤ now ∧ w'.row.expiresAt = some (now + cfg.ttlSeconds)
    else w'.row.expiresAt = w.row.expiresAt
  disk : w'.disk = w.disk
  locks : w'.locks = w.locks
  evidence : w'.evidence = w.evidence

variable {w : World D}

theorem alone_commit {place : CommitPlace} {item new : Row D} {touch : Bool}
    {f : Unit → Handler D β} (hitem : item = w.row)
    (h : ∀ w', Committed cfg lo w new touch w' → Alone cfg t lo hi Q (f ()) w') :
    Alone cfg t lo hi Q (perform (.commit place (item.diff new touch)) >>= f) w := by
  subst hitem
  refine Prog.wp_perform _ _ _ fun e he => h _ ?_
  have hrow : ((machine cfg).exec t (.commit place (w.row.diff new touch)) e w).1.row
      = { new with expiresAt :=
          if touch then some (e.now + cfg.ttlSeconds) else w.row.expiresAt } :=
    Row.apply_diff w.row new touch e.now cfg.ttlSeconds
  refine ⟨by rw [hrow], ?_, rfl, rfl, rfl⟩
  rw [hrow]
  cases touch with
  | false => exact rfl
  | true => exact ⟨e.now, he.lo_le, rfl⟩

omit [DecidableEq D] in
/-- A free lock is taken, and free again afterwards. -/
theorem alone_withLock {k : LockKey} {body : Handler D β} (hfree : w.locks k = none)
    (h : Alone cfg t lo hi (fun r w' => w'.locks = Function.update w.locks k (some t) ∧
        Q r { w' with locks := w.locks }) body
      { w with locks := Function.update w.locks k (some t) }) :
    Alone cfg t lo hi Q (withLock k body) w := by
  refine Prog.wp_perform _ _ _ fun e he => ?_
  have hexec : (machine cfg).exec t (.lock k) e w
      = ({ w with locks := Function.update w.locks k (some t) }, .acquired) := by
    simp only [machine, exec, he.ok, hfree, Bool.not_true, Bool.false_eq_true, if_false, if_true]
  simp only [hexec]
  refine (Prog.walk_followedBy _ _ _ _).mpr (Prog.wp_mono _ _ _ ?_ h)
  rintro r w' ⟨hlocks, hQ⟩ e' _
  have hunlock : (exec cfg t (.unlock k) e' w').1 = { w' with locks := w.locks } := by
    have hmine : w'.locks k = some t := by rw [hlocks, Function.update_self]
    simp only [exec, hmine, if_true, hlocks, Function.update_idem]
    rw [← hfree, Function.update_eq_self]
  change Q r (exec cfg t (.unlock k) e' w').1
  rw [hunlock]
  exact hQ

/-! ### Registration -/

theorem insertEvidenceRow_alone (hev : w.evidence = none) (ev : EvidenceRow D) :
    Alone cfg t lo hi (fun r w' => w'.locks = w.locks ∧ ∃ ev, r = .ok ev)
      (insertEvidenceRow ev) w := by
  refine Prog.wp_perform _ _ _ fun e he => ?_
  have hexec : (machine cfg).exec t (.insertEvidence ev) e w
      = ({ w with evidence := some ev }, .inserted) := by
    simp [machine, exec, hev, he.ok]
  simp only [hexec]
  exact Prog.wp_perform _ _ _ fun _ _ => ⟨rfl, ev, rfl⟩

theorem registerMemoryEvidence_alone {F : Bytes} (hF : cfg.expectedBytes = F.length)
    (hbytes : w.row.bytesReceived = cfg.expectedBytes)
    (hsha : w.row.sha256 = some (sha256 F)) (hcan : w.disk.canonical = some F) :
    Alone cfg t lo hi (fun r w' => w'.locks = w.locks ∧ ∃ ev, r = .ok ev)
      (registerMemoryEvidence cfg sha256) w := by
  refine Prog.wp_perform _ _ _ fun _ _ => ?_
  refine Prog.wp_perform _ _ _ fun _ _ => ?_
  simp only [machine_read, machine_evidence]
  cases hev : w.evidence with
  | some existing =>
    refine Prog.wp_perform _ _ _ fun _ _ => ?_
    have hvalid : validRegularFile w.disk.canonical cfg.expectedBytes = true := by
      simp [validRegularFile, hcan, hF]
    simp only [machine_canonical, hvalid, if_true]
    exact alone_commit rfl fun w' hw' => ⟨hw'.locks, existing, rfl⟩
  | none =>
    simp only [hbytes, ne_eq, not_true_eq_false, if_false, hsha]
    refine Prog.wp_perform _ _ _ fun _ _ => ?_
    simp only [machine_canonical, hcan, hF, not_true_eq_false, if_false]
    refine Prog.wp_perform _ _ _ fun e he => ?_
    simp only [machine_duplicateOf, he.duplicate]
    refine alone_commit rfl fun w' hw' => ?_
    refine Prog.wp_perform _ _ _ fun _ _ => ?_
    simp only [machine_read]
    rw [← hw'.locks]
    exact insertEvidenceRow_alone (hw'.evidence.trans hev) _

/-! ### Finalize -/

theorem promoteAndRegister_alone {F : Bytes} (hF : cfg.expectedBytes = F.length)
    (ht : t ∈ w.disk.assemblies) :
    Alone cfg t lo hi (fun r w' => w'.locks = w.locks ∧ ∃ ev, r = .ok ev)
      (promoteAndRegister cfg sha256 w.row F) w := by
  refine alone_commit rfl fun w₁ hw₁ => ?_
  refine Prog.wp_perform _ _ _ fun e _ => ?_
  have hexec : (machine cfg).exec t (.promote F) e w₁ = ({ w₁ with disk := { w₁.disk with
      assemblies := w₁.disk.assemblies.erase t, canonical := some F } }, true) := by
    simp [machine, exec, hw₁.disk, ht]
  simp only [hexec, Bool.not_true, Bool.false_eq_true, if_false]
  refine Prog.wp_perform _ _ _ fun e he => ?_
  simp only [machine_postPromote, he.ok, Bool.not_true, Bool.false_eq_true, if_false]
  refine Prog.wp_bind _ _ _ (Prog.wp_mono _ _ _ ?_
    (registerMemoryEvidence_alone (F := F) hF ?_ ?_ rfl))
  · rintro r w₂ ⟨hlocks, ev, rfl⟩
    exact fun _ _ => ⟨hlocks.trans hw₁.locks, ev, rfl⟩
  · change w₁.row.bytesReceived = cfg.expectedBytes
    rw [hw₁.row, hF]
  · change w₁.row.sha256 = some (sha256 F)
    rw [hw₁.row]

theorem runChunkedFinalize_alone {F : Bytes} (hF : cfg.expectedBytes = F.length)
    (hroot : w.disk.sessionRoot = true)
    (hconcat : w.disk.concatChunks cfg.totalChunks = some F) {expectedSha : Option D}
    (hsha : expectedSha = none ∨ expectedSha = some (sha256 F)) :
    Alone cfg t lo hi (fun r w' => w'.locks = w.locks ∧ ∃ ev, r = .ok ev)
      (runChunkedFinalize cfg sha256 w.row expectedSha) w := by
  refine alone_commit rfl fun w₁ hw₁ => ?_
  refine Prog.wp_perform _ _ _ fun e _ => ?_
  have hexec : (machine cfg).exec t (.assemble cfg.totalChunks) e w₁ = ({ w₁ with
      disk := { w₁.disk with assemblies := insert t w₁.disk.assemblies } }, some F) := by
    simp [machine, exec, hw₁.disk, hroot, hconcat]
  have hany : (expectedSha.any fun d => decide (sha256 F ≠ d)) = false := by
    rcases hsha with rfl | rfl <;> simp
  simp only [hexec, hF, ne_eq, not_true_eq_false, if_false, hany, Bool.false_eq_true]
  refine Prog.wp_perform _ _ _ fun _ _ => ?_
  refine Prog.wp_perform _ _ _ fun e he => ?_
  simp only [machine_read, machine_duplicateOf, he.duplicate]
  rw [← hw₁.locks]
  exact promoteAndRegister_alone (w := { w₁ with disk := { w₁.disk with
    assemblies := insert t w₁.disk.assemblies } }) hF (Finset.mem_insert_self _ _)


/-- The staging directory is there and holds the file of every recorded
chunk. -/
structure Staged (w : World D) : Prop where
  root : w.disk.sessionRoot = true
  dir : w.disk.chunksDir = true
  files : ∀ i ∈ w.row.metadata.receivedChunks, i ∈ w.disk.chunks

/-- What a finalize call asks of the session. -/
structure FinalizeReady (F : Bytes) (cfg : Session D) (w : World D) : Prop where
  idle : w.row.metadata.activeChunks = ∅
  staged : Staged w
  recorded : ∀ i < cfg.totalChunks, i ∈ w.row.metadata.receivedChunks
  reach : F.length ≤ cfg.totalChunks * cfg.chunkSizeBytes

/-- The staging directory as the classifier sees it. -/
abbrev stagingView (w : World D) : StagingView :=
  ⟨w.disk.sessionRoot, w.disk.chunksDir, w.disk.chunks⟩

omit [DecidableEq D] in
theorem missingOnDisk_eq_empty : missingOnDisk (stagingView w) w.row.metadata.receivedChunks = ∅ ↔
      ∀ i ∈ w.row.metadata.receivedChunks, i ∈ w.disk.chunks := by
  simp only [missingOnDisk, Finset.filter_eq_empty_iff, Finmap.mem_keys,
    Finmap.lookup_eq_none, not_not]

/-- Recorded chunks agree with their files. -/
theorem Faithful.no_mismatch {F : Bytes} (h : Faithful F cfg sha256 w) :
    sizeMismatchesOf (stagingView w) w.row.metadata.receivedChunks = ∅ ∧
      hashMismatchesOf sha256 (stagingView w) w.row.metadata.receivedChunks = ∅ := by
  have hboth : ∀ (p : Bytes → ChunkRecord D → Bool) (i : ℕ),
      (∀ b, p b ⟨b.length, sha256 b⟩ = false) →
      bothThere p (stagingView w) w.row.metadata.receivedChunks i = false := by
    intro p i hp
    unfold bothThere
    cases hb : (stagingView w).chunks.lookup i with
    | none => rfl
    | some b =>
      cases hr : w.row.metadata.receivedChunks.lookup i with
      | none => rfl
      | some r =>
        obtain ⟨-, rfl⟩ := h.chunk i b hb
        obtain ⟨-, -, rfl⟩ := h.metadata.record i r hr
        exact hp _
  refine ⟨Finset.filter_eq_empty_iff.mpr fun i _ => ?_,
    Finset.filter_eq_empty_iff.mpr fun i _ => ?_⟩
  · rw [hboth _ i fun b => by simp [sizeDiffers]]
    exact Bool.false_ne_true
  · rw [hboth _ i fun b => by simp]
    exact Bool.false_ne_true

/-- On a staged session the classifier only looks for extra files. -/
theorem integrity_staged {F : Bytes} (h : Faithful F cfg sha256 w) (hs : Staged w) (verify : Bool) :
    (checkStagingIntegrity cfg sha256 (stagingView w) w.row verify).status =
      if w.disk.chunks.keys \ w.row.metadata.receivedChunks.keys ≠ ∅ then .extraChunks
      else .healthy := by
  obtain ⟨hsizes, hhashes⟩ := h.no_mismatch
  have hmissing := missingOnDisk_eq_empty.mpr hs.files
  unfold checkStagingIntegrity classifyChunkStaging
  simp only [stagingView, hs.root, hs.dir, Bool.not_true, Bool.false_eq_true, if_false] at *
  rw [hmissing, hsizes, hhashes]
  simp

/-- A session that is not staged is not usable. -/
theorem integrity_unstaged (cfg : Session D) (sha256 : Bytes → D) (hs : ¬ Staged w) (verify : Bool)
    : (checkStagingIntegrity cfg sha256 (stagingView w) w.row verify).status ≠ .healthy ∧
      (checkStagingIntegrity cfg sha256 (stagingView w) w.row verify).status
        ≠ .extraChunks := by
  unfold checkStagingIntegrity classifyChunkStaging
  cases hroot : w.disk.sessionRoot with
  | false => simp [hroot]
  | true =>
    cases hdir : w.disk.chunksDir with
    | false => simp [hroot, hdir]
    | true =>
      have hmissing : missingOnDisk (stagingView w) w.row.metadata.receivedChunks ≠ ∅ :=
        fun h => hs ⟨hroot, hdir, missingOnDisk_eq_empty.mp h⟩
      simp only [stagingView, hroot, hdir, Bool.not_true, Bool.false_eq_true, if_false] at *
      rw [if_pos hmissing]
      simp

omit [DecidableEq D] in
/-- All chunk files are there, so the file can be assembled. -/
theorem Faithful.concatChunks_eq {F : Bytes} (h : Faithful F cfg sha256 w)
    (hready : FinalizeReady F cfg w) : w.disk.concatChunks cfg.totalChunks = some F := by
  have hall : ∀ l : List ℕ, (∀ i ∈ l, i < cfg.totalChunks) →
      (l.mapM fun i => w.disk.chunks.lookup i) = some (l.map (slice F cfg.chunkSizeBytes)) := by
    intro l
    induction l with
    | nil => exact fun _ => rfl
    | cons i l ih =>
      intro hl
      have hi : i ∈ w.disk.chunks :=
        hready.staged.files i (hready.recorded i (hl i (.head _)))
      obtain ⟨b, hb⟩ := Finmap.mem_iff.mp hi
      rw [List.mapM_cons, hb, ih fun j hj => hl j (List.mem_cons_of_mem i hj), (h.chunk i b hb).2]
      rfl
  rw [Disk.concatChunks, hall _ fun i hi => List.mem_range.mp hi, Option.map_some,
    flatten_slices, List.take_of_length_le hready.reach]

/-- The header of the finalize call, if it declares a hash, declares that of
`F`. -/
def HonestHeader (F : Bytes) (cfg : Session D) (sha256 : Bytes → D) (header : ShaHeader D) :
    Prop :=
  finalizeSha cfg header = .ok none ∨ finalizeSha cfg header = .ok (some (sha256 F))

/-- A finalize call returned its evidence. -/
def succeeded (r : Except UploadError (Outcome D)) : Prop := ∃ row ev, r = .ok (row, some ev)

omit [DecidableEq D] in
theorem not_succeeded_error (e : UploadError) :
    ¬ succeeded (.error e : Except UploadError (Outcome D)) := by
  rintro ⟨row, ev, h⟩
  cases h

variable {header : ShaHeader D}

theorem finalizeUnfinished_succeeds {F : Bytes} (hF : cfg.expectedBytes = F.length)
    (h : Faithful F cfg sha256 w) (hready : FinalizeReady F cfg w)
    (hheader : HonestHeader F cfg sha256 header) :
    Alone cfg t lo hi (fun r w' => w'.locks = w.locks ∧ succeeded r)
      (finalizeUnfinished cfg sha256 w.row header) w := by
  have hextra : w.disk.chunks.keys \ w.row.metadata.receivedChunks.keys = ∅ := by
    refine Finset.sdiff_eq_empty_iff_subset.mpr fun i hi => ?_
    obtain ⟨b, hb⟩ := Finmap.mem_iff.mp (Finmap.mem_keys.mp hi)
    exact Finmap.mem_keys.mpr (hready.recorded i (h.chunk i b hb).1)
  have hhealthy : (checkStagingIntegrity cfg sha256 (stagingView w) w.row true).status
      = .healthy := by
    rw [integrity_staged h hready.staged, if_neg (not_not.mpr hextra)]
  have hmissing : ((List.range cfg.totalChunks).filter
      fun i => w.row.metadata.receivedChunks.lookup i = none) = [] := by
    refine List.filter_eq_nil_iff.mpr fun i hi => ?_
    have hrec := hready.recorded i (List.mem_range.mp hi)
    rw [decide_eq_true_iff, Finmap.lookup_eq_none]
    exact not_not.mpr hrec
  refine Prog.wp_perform _ _ _ fun _ _ => ?_
  refine Prog.wp_ite _ _ _ (fun hbad => absurd hhealthy hbad) fun _ => ?_
  have hrest : ∀ declared : Option D, declared = none ∨ declared = some (sha256 F) →
      Alone cfg t lo hi (fun r w' => w'.locks = w.locks ∧ succeeded r) (do
        if !(← perform .capacity) then .raise .insufficientSpace
        else do
          let evidence ← (runChunkedFinalize cfg sha256 w.row declared).handle finalizeFailed
          let item ← perform (.read .finalized)
          pure (item, some evidence)) w := by
    intro declared hdeclared
    refine Prog.wp_perform _ _ _ fun e he => ?_
    simp only [machine_capacity, he.ok, Bool.not_true, Bool.false_eq_true, if_false]
    refine Prog.wp_bind _ _ _ ((Prog.walk_handle _ _ _ _).mpr ?_)
    refine Prog.wp_mono _ _ _ ?_ (runChunkedFinalize_alone (F := F) hF hready.staged.root
      (h.concatChunks_eq hready) hdeclared)
    rintro r w' ⟨hlocks, ev, rfl⟩
    exact fun _ _ => ⟨hlocks, _, ev, rfl⟩
  rcases hheader with hnone | hsome
  · simp only [hnone, hmissing, ne_eq, not_true_eq_false, if_false]
    exact hrest none (.inl rfl)
  · simp only [hsome, hmissing, ne_eq, not_true_eq_false, if_false]
    exact hrest _ (.inr rfl)

omit [DecidableEq D] in
theorem finalizeFailed_alone (cfg : Session D) (e : UploadError) (w : World D) :
    Alone cfg t lo hi (fun r w' => w'.locks = w.locks ∧ ∃ e', r = .error e')
      (finalizeFailed e : Handler D α) w := by
  unfold finalizeFailed
  split
  · exact ⟨rfl, _, rfl⟩
  · refine Prog.wp_perform _ _ _ fun _ _ => ?_
    refine Prog.wp_perform _ _ _ fun _ _ => ?_
    exact ⟨rfl, _, rfl⟩

/-- Chunks that do not reach the end of the file are not promoted. -/
theorem runChunkedFinalize_short {F : Bytes} (hF : cfg.expectedBytes = F.length)
    (h : Faithful F cfg sha256 w)
    (hshort : ¬ F.length ≤ cfg.totalChunks * cfg.chunkSizeBytes) (expectedSha : Option D) :
    Alone cfg t lo hi (fun r w' => w'.locks = w.locks ∧ ∃ e, r = .error e)
      (runChunkedFinalize cfg sha256 w.row expectedSha) w := by
  refine alone_commit rfl fun w₁ hw₁ => ?_
  refine Prog.wp_perform _ _ _ fun e _ => ?_
  have hlocks : ((machine cfg).exec t (.assemble cfg.totalChunks) e w₁).1.locks = w₁.locks := by
    simp only [machine, exec]
    split <;> rfl
  have hcontent : ∀ content,
      ((machine cfg).exec t (.assemble cfg.totalChunks) e w₁).2 = some content →
      content.length ≠ cfg.expectedBytes := by
    intro content hc
    have hconcat : w.disk.concatChunks cfg.totalChunks = some content := by
      simp only [machine, exec] at hc
      split at hc
      · rw [← hw₁.disk]
        exact hc
      · cases hc
    rw [h.concatChunks hconcat, hF, List.length_take]
    omega
  split
  · exact ⟨hlocks.trans hw₁.locks, _, rfl⟩
  · next content hc =>
      refine Prog.wp_ite _ _ _ (fun _ => ⟨hlocks.trans hw₁.locks, _, rfl⟩) fun hlen => ?_
      exact absurd (not_not.mp hlen) (hcontent content hc)

/-- A session that is not ready is not finalized. -/
theorem finalizeUnfinished_fails {F : Bytes} (hF : cfg.expectedBytes = F.length)
    (h : Faithful F cfg sha256 w) (hidle : w.row.metadata.activeChunks = ∅)
    (hready : ¬ FinalizeReady F cfg w) (header : ShaHeader D) :
    Alone cfg t lo hi (fun r w' => w'.locks = w.locks ∧ ¬ succeeded r)
      (finalizeUnfinished cfg sha256 w.row header) w := by
  refine Prog.wp_perform _ _ _ fun _ _ => ?_
  refine Prog.wp_ite _ _ _ (fun _ => ?_) fun hhealthy => ?_
  · exact alone_commit rfl fun w' hw' => ⟨hw'.locks, not_succeeded_error _⟩
  · have hstaged : Staged w := by
      by_contra hs
      exact hhealthy (integrity_unstaged cfg sha256 hs true).1
    split
    · exact ⟨rfl, not_succeeded_error _⟩
    · refine Prog.wp_ite _ _ _ (fun _ => ⟨rfl, not_succeeded_error _⟩) fun hmissing => ?_
      have hrecorded : ∀ i < cfg.totalChunks, i ∈ w.row.metadata.receivedChunks := by
        intro i hi
        have := List.filter_eq_nil_iff.mp (not_not.mp hmissing) i (List.mem_range.mpr hi)
        rw [decide_eq_true_iff] at this
        by_contra hni
        exact this (Finmap.lookup_eq_none.mpr hni)
      have hshort : ¬ F.length ≤ cfg.totalChunks * cfg.chunkSizeBytes :=
        fun hreach => hready ⟨hidle, hstaged, hrecorded, hreach⟩
      refine Prog.wp_perform _ _ _ fun e he => ?_
      simp only [machine_capacity, he.ok, Bool.not_true, Bool.false_eq_true, if_false]
      refine Prog.wp_bind _ _ _ ((Prog.walk_handle _ _ _ _).mpr ?_)
      refine Prog.wp_mono _ _ _ ?_ (runChunkedFinalize_short (F := F) hF h hshort _)
      rintro r w₁ ⟨hlocks, e₁, rfl⟩
      refine Prog.wp_mono _ _ _ ?_ (finalizeFailed_alone cfg e₁ w₁)
      rintro r w₂ ⟨hlocks₂, e₂, rfl⟩
      exact ⟨hlocks₂.trans hlocks, not_succeeded_error _⟩

/-- A status at which a finalize call goes to work. -/
def UploadStatus.isFinalizable (s : UploadStatus) : Bool :=
  s ∈ [created, uploading, verifying, finalizing, failed]

/-- The finalize call, reduced to what it does under its lock. -/
theorem finalize_alone {Q : Except UploadError (Outcome D) → World D → Prop}
    (hfree : w.locks .finalize = none) (hstatus : w.row.status.isFinalizable = true)
    (hactive : w.row.metadata.activeChunks ≠ ∅ →
      Q (.error (.chunksActive w.row.metadata.activeChunks)) w)
    (h : w.row.metadata.activeChunks = ∅ →
      Alone cfg t lo hi (fun r w' => w'.locks = Function.update w.locks .finalize (some t) ∧
          Q r { w' with locks := w.locks })
        (finalizeUnfinished cfg sha256 w.row header)
        { w with locks := Function.update w.locks .finalize (some t) }) :
    Alone cfg t lo hi Q (finalizeMemoryUploadSession cfg sha256 header) w := by
  refine alone_withLock hfree ?_
  refine Prog.wp_perform _ _ _ fun _ _ => ?_
  have hcompleted : w.row.status ≠ .completed := by
    intro hs
    rw [hs] at hstatus
    cases hstatus
  have hended : w.row.status ∉ [UploadStatus.cancelled, .expired, .inconsistent] := by
    intro hs
    cases hs' : w.row.status <;> rw [hs'] at hs hstatus <;> revert hs hstatus <;> decide
  refine Prog.wp_ite _ _ _ (fun hs => absurd hs hcompleted) fun _ => ?_
  refine Prog.wp_ite _ _ _ (fun hs => absurd hs hended) fun _ => ?_
  refine Prog.wp_ite _ _ _ (fun hne => ⟨rfl, hactive hne⟩) fun hidle => h (not_not.mp hidle)

omit [DecidableEq D] in
theorem Faithful.withLocks {F : Bytes} (h : Faithful F cfg sha256 w)
    (locks : LockKey → Option ℕ) : Faithful F cfg sha256 { w with locks := locks } :=
  ⟨h.chunk, h.metadata, h.canonical, h.sha, h.evidence, h.completed⟩

/-- **A ready session is finalized.** -/
theorem finalize_succeeds {F : Bytes} (hF : cfg.expectedBytes = F.length)
    (h : Faithful F cfg sha256 w) (hfree : w.locks .finalize = none)
    (hstatus : w.row.status.isFinalizable = true) (hready : FinalizeReady F cfg w)
    (hheader : HonestHeader F cfg sha256 header) : Alone cfg t lo hi (fun r _ => succeeded r)
      (finalizeMemoryUploadSession cfg sha256 header) w := by
  refine finalize_alone hfree hstatus (fun hne => absurd hready.idle hne) fun _ => ?_
  exact finalizeUnfinished_succeeds
    (w := { w with locks := Function.update w.locks .finalize (some t) }) hF (h.withLocks _)
    ⟨hready.idle, ⟨hready.staged.root, hready.staged.dir, hready.staged.files⟩,
      hready.recorded, hready.reach⟩ hheader

/-- **A session that is not ready is not finalized.** -/
theorem finalize_fails {F : Bytes} (hF : cfg.expectedBytes = F.length)
    (h : Faithful F cfg sha256 w) (hfree : w.locks .finalize = none)
    (hstatus : w.row.status.isFinalizable = true) (hready : ¬ FinalizeReady F cfg w)
    (header : ShaHeader D) :
    Alone cfg t lo hi (fun r _ => ¬ succeeded r)
      (finalizeMemoryUploadSession cfg sha256 header) w := by
  refine finalize_alone hfree hstatus (fun _ => not_succeeded_error _) fun hidle => ?_
  refine finalizeUnfinished_fails
    (w := { w with locks := Function.update w.locks .finalize (some t) }) hF (h.withLocks _)
    hidle ?_ header
  rintro ⟨hidle, ⟨hroot, hdir, hfiles⟩, hrec, hreach⟩
  exact hready ⟨hidle, ⟨hroot, hdir, hfiles⟩, hrec, hreach⟩

/-! ### Chunk stores -/

/-- A `PUT` as the client repeats it: the whole slice of its index, with
headers that fit. -/
structure RePut (F : Bytes) (cfg : Session D) (sha256 : Bytes → D) (put : ChunkPut D) :
    Prop where
  slice : sliceChunk F put.chunkIndex cfg.chunkSizeBytes = .ok put.blocks.flatten
  eof : put.streamEnd = .eof
  length : ∀ n, put.contentLength = some n → n = put.blocks.flatten.length
  sha : put.chunkSha256 = .absent ∨ put.chunkSha256 = .blank ∨
    put.chunkSha256 = .declared (sha256 put.blocks.flatten)
  mode : cfg.uploadMode = put.expectedMode

/-- Chunks are accepted. -/
def UploadStatus.isOpen (s : UploadStatus) : Bool := s ∈ [created, uploading]

/-- The session does not expire before `hi`. -/
def Fresh (hi : ℕ) (w : World D) : Prop := ∀ x, w.row.expiresAt = some x → hi ≤ x

/-- While the session is finalizing or over, a chunk is refused. -/
theorem store_rejected (hstatus : w.row.status.isTerminal = true ∨ w.row.status.isFinalizing = true)
    (put : ChunkPut D) :
    Alone cfg t lo hi (fun _ w' => w' = w) (storeMemoryUploadChunkStream cfg sha256 put) w := by
  refine Prog.wp_perform _ _ _ fun _ _ => ?_
  refine Prog.wp_ite _ _ _ (fun _ => rfl) fun hterm => ?_
  refine Prog.wp_ite _ _ _ (fun _ => rfl) fun hfin => ?_
  exact absurd hstatus (not_or.mpr ⟨hterm, hfin⟩)

omit [DecidableEq D] in
theorem not_rejected_of_isOpen (h : w.row.status.isOpen = true) :
    ¬ w.row.status.isTerminal = true ∧ ¬ w.row.status.isFinalizing = true := by
  cases hs : w.row.status <;> rw [hs] at h <;> revert h <;> decide

omit [DecidableEq D] in
theorem Fresh.not_expired (h : Fresh hi w) {e : Env} (he : Calm lo hi e) :
    ¬ (w.row.expiresAt.any fun x => decide (x < e.now)) = true := by
  intro hexp
  obtain ⟨x, hx, hlt⟩ := (Option.any_eq_true _ _).mp hexp
  have hle := (h x hx).trans' he.le_hi
  exact absurd (of_decide_eq_true hlt) (not_lt.mpr hle)

variable {put : ChunkPut D}

/-- An unusable staging directory fails the session. -/
theorem store_unusable {F : Bytes} (hopen : w.row.status.isOpen = true) (hfresh : Fresh hi w)
    (hs : ¬ Staged w) (hput : RePut F cfg sha256 put)
    (hrange : 0 ≤ put.chunkIndex ∧ put.chunkIndex < cfg.totalChunks) :
    Alone cfg t lo hi (fun _ w' => w'.row.status = .failed ∧
        w'.row.metadata = w.row.metadata ∧ w'.disk = w.disk ∧ w'.locks = w.locks)
      (storeMemoryUploadChunkStream cfg sha256 put) w := by
  obtain ⟨hterm, hfin⟩ := not_rejected_of_isOpen hopen
  have hbad := integrity_unstaged cfg sha256 hs false
  refine Prog.wp_perform _ _ _ fun _ _ => ?_
  refine Prog.wp_ite _ _ _ (fun h => absurd h hterm) fun _ => ?_
  refine Prog.wp_ite _ _ _ (fun h => absurd h hfin) fun _ => ?_
  refine Prog.wp_ite _ _ _ (fun h => absurd hput.mode h) fun _ => ?_
  refine Prog.wp_ite _ _ _ (fun h => by omega) fun _ => ?_
  refine Prog.wp_perform _ _ _ fun e he => ?_
  refine Prog.wp_ite _ _ _ (fun hexp => absurd hexp (hfresh.not_expired he)) fun _ => ?_
  refine Prog.wp_perform _ _ _ fun _ _ => ?_
  refine Prog.wp_ite _ _ _ (fun _ => ?_) fun h => absurd hbad h
  refine alone_commit rfl fun w' hw' => ⟨?_, ?_, hw'.disk, hw'.locks⟩
  · rw [hw'.row]
    rfl
  · rw [hw'.row]
    rfl

omit [DecidableEq D] in
/-- A body that fits is received whole. -/
theorem receiveBlocks_fits {limit : ℤ} (blocks : List Bytes) {acc : Bytes}
    (h : ((acc ++ blocks.flatten).length : ℤ) ≤ limit) :
    receiveBlocks limit blocks acc = .ok (acc ++ blocks.flatten) := by
  induction blocks generalizing acc with
  | nil => simp [receiveBlocks]
  | cons b bs ih =>
    unfold receiveBlocks
    split_ifs with hb hlong
    · rw [ih (by simpa [hb] using h), hb]
      simp
    · simp only [List.flatten_cons, List.length_append] at h
      omega
    · rw [ih (by simpa using h)]
      simp

/-- What a store call that was not refused leaves behind. -/
structure Stored (cfg : Session D) (lo i : ℕ) (w w' : World D) : Prop where
  isOpen : w'.row.status.isOpen = true
  received : ∀ j, j ∈ w'.row.metadata.receivedChunks ↔ j = i ∨ j ∈ w.row.metadata.receivedChunks
  active : ∀ j, j ∈ w'.row.metadata.activeChunks ↔ j ∈ w.row.metadata.activeChunks ∧ j ≠ i
  root : w'.disk.sessionRoot = true
  dir : w'.disk.chunksDir = true
  files : ∀ j, j ∈ w'.disk.chunks ↔ j = i ∨ j ∈ w.disk.chunks
  locks : w'.locks = w.locks
  expires : ∃ now, lo ≤ now ∧ w'.row.expiresAt = some (now + cfg.ttlSeconds)

/-- The record of chunk `i` is merged into the row. -/
structure Recorded (cfg : Session D) (lo i : ℕ) (w w' : World D) : Prop where
  isOpen : w.row.status.isOpen = true → w'.row.status.isOpen = true
  received : ∀ j, j ∈ w'.row.metadata.receivedChunks ↔ j = i ∨ j ∈ w.row.metadata.receivedChunks
  active : w'.row.metadata.activeChunks = w.row.metadata.activeChunks
  disk : w'.disk = w.disk
  locks : w'.locks = w.locks
  expires : ∃ now, lo ≤ now ∧ w'.row.expiresAt = some (now + cfg.ttlSeconds)

theorem recordChunkReceived_alone (cfg : Session D) (hfree : w.locks .chunksMeta = none)
    (i size : ℕ) (sha : D) {status : Option UploadStatus}
    (hstatus : status = none ∨ status = some .uploading) :
    Alone cfg t lo hi (fun _ w' => Recorded cfg lo i w w')
      (recordChunkReceived i size sha status) w := by
  refine alone_withLock hfree ?_
  refine Prog.wp_perform _ _ _ fun _ _ => ?_
  refine alone_commit rfl fun w' hw' => ?_
  refine fun _ _ => ⟨hw'.locks, ?_⟩
  refine ⟨?_, ?_, ?_, hw'.disk, rfl, hw'.expires⟩
  · intro hopen
    change w'.row.status.isOpen = true
    rw [hw'.row]
    rcases hstatus with rfl | rfl
    · exact hopen
    · rfl
  · intro j
    change j ∈ w'.row.metadata.receivedChunks ↔ _
    rw [hw'.row]
    exact Finmap.mem_insert
  · change w'.row.metadata.activeChunks = _
    rw [hw'.row]
    rfl

omit [DecidableEq D] in
/-- The length the server expects is that of the client's slice. -/
theorem RePut.expectedLength_eq {F : Bytes} (hF : cfg.expectedBytes = F.length)
    (hput : RePut F cfg sha256 put) :
    (put.blocks.flatten.length : ℤ) = expectedLength cfg put.chunkIndex.toNat := by
  obtain ⟨hslice, hlt⟩ := sliceChunk_ok hput.slice
  rw [hslice, slice_length, expectedLength, hF]
  push_cast
  omega

/-- The chunk's file is in its place and its record merged. -/
structure BodyStored (cfg : Session D) (lo i : ℕ) (w w' : World D) : Prop where
  isOpen : w.row.status.isOpen = true → w'.row.status.isOpen = true
  received : ∀ j, j ∈ w'.row.metadata.receivedChunks ↔ j = i ∨ j ∈ w.row.metadata.receivedChunks
  active : w'.row.metadata.activeChunks = w.row.metadata.activeChunks
  root : w'.disk.sessionRoot = true
  dir : w'.disk.chunksDir = true
  files : ∀ j, j ∈ w'.disk.chunks ↔ j = i ∨ j ∈ w.disk.chunks
  locks : w'.locks = w.locks
  expires : ∃ now, lo ≤ now ∧ w'.row.expiresAt = some (now + cfg.ttlSeconds)

omit [DecidableEq D] in
theorem Recorded.bodyStored {i : ℕ} {w w₁ w' : World D} (h : Recorded cfg lo i w₁ w')
    (hrow : w₁.row = w.row) (hroot : w₁.disk.sessionRoot = true)
    (hdir : w₁.disk.chunksDir = true)
    (hfiles : ∀ j, j ∈ w₁.disk.chunks ↔ j = i ∨ j ∈ w.disk.chunks)
    (hlocks : w₁.locks = w.locks) : BodyStored cfg lo i w w' :=
  ⟨hrow ▸ h.isOpen, hrow ▸ h.received, hrow ▸ h.active, h.disk ▸ hroot, h.disk ▸ hdir,
    h.disk ▸ hfiles, h.locks.trans hlocks, h.expires⟩

variable {declared : Option D}

theorem storeBody_alone {F : Bytes} (hF : cfg.expectedBytes = F.length)
    (h : Faithful F cfg sha256 w) (hfree : w.locks .chunksMeta = none)
    (hput : RePut F cfg sha256 put) {item : Row D}
    (hitem : item.metadata.receivedChunks.lookup put.chunkIndex.toNat = none)
    (hdeclared : declared = none ∨ declared = some (sha256 put.blocks.flatten)) :
    Alone cfg t lo hi (fun _ w' => BodyStored cfg lo put.chunkIndex.toNat w w')
      (storeBody sha256 item put put.chunkIndex.toNat
        (expectedLength cfg put.chunkIndex.toNat) declared) w := by
  have hlen := hput.expectedLength_eq hF
  have hreceive : receiveBlocks (expectedLength cfg put.chunkIndex.toNat) put.blocks []
      = .ok put.blocks.flatten := by
    rw [receiveBlocks_fits _ (by rw [List.nil_append, hlen]), List.nil_append]
  have hany : (declared.any fun d => decide (d ≠ sha256 put.blocks.flatten)) = false := by
    rcases hdeclared with rfl | rfl <;> simp
  refine Prog.wp_perform _ _ _ fun _ _ => ?_
  refine Prog.wp_perform _ _ _ fun _ _ => ?_
  simp only [machine, exec, if_true, Bool.not_true, Bool.false_eq_true, if_false, hreceive,
    hput.eof, reduceCtorEq, hlen, ne_eq, not_true_eq_false, hany]
  refine Prog.wp_perform _ _ _ fun _ _ => ?_
  cases hfile : w.disk.chunks.lookup put.chunkIndex.toNat with
  | some existing =>
    have hexisting : existing = put.blocks.flatten := by
      rw [(h.chunk _ _ hfile).2, (sliceChunk_ok hput.slice).1]
    have hmem : put.chunkIndex.toNat ∈ w.disk.chunks := Finmap.mem_iff.mpr ⟨existing, hfile⟩
    simp only [exec, hfile, Option.isSome_some, if_true, compareExisting, hitem]
    refine Prog.wp_perform _ _ _ fun _ _ => ?_
    simp only [exec, hfile]
    refine Prog.wp_perform _ _ _ fun _ _ => ?_
    simp only [exec, hexisting, ne_eq, not_true_eq_false, if_false, if_true]
    refine Prog.wp_mono _ _ _ ?_ (recordChunkReceived_alone cfg
      (by exact hfree) _ _ _ (.inl rfl))
    intro r w' hrec
    refine hrec.bodyStored rfl rfl rfl (fun j => ?_) rfl
    exact ⟨.inr, fun hj => hj.elim (fun hji => hji ▸ hmem) id⟩
  | none =>
    simp only [exec, hfile, Option.isSome_none, Bool.false_eq_true, if_false]
    refine Prog.wp_perform _ _ _ fun _ _ => ?_
    simp only [exec, Finset.mem_insert_self, if_true]
    refine Prog.wp_mono _ _ _ ?_ (recordChunkReceived_alone cfg
      (by exact hfree) _ _ _ (.inr rfl))
    intro r w' hrec
    exact hrec.bodyStored rfl rfl rfl (fun j => Finmap.mem_insert) rfl

omit [DecidableEq D] in
theorem Faithful.committed {F : Bytes} {w w' : World D} {new : Row D} {touch : Bool}
    (h : Faithful F cfg sha256 w) (hc : Committed cfg lo w new touch w')
    (hmeta : ValidMetadata F cfg sha256 new.metadata) (hsha : new.sha256 = w.row.sha256)
    (hstatus : new.status = w.row.status) : Faithful F cfg sha256 w' := by
  refine ⟨?_, ?_, ?_, ?_, ?_, ?_⟩
  · rw [hc.disk]
    exact h.chunk
  · rw [hc.row]
    exact hmeta
  · rw [hc.disk]
    exact h.canonical
  · rw [hc.row]
    change ∀ d, new.sha256 = some d → d = sha256 F
    rw [hsha]
    exact h.sha
  · rw [hc.evidence]
    exact h.evidence
  · rw [hc.row, hc.disk, hc.evidence]
    change new.status = .completed → _ ∧ new.sha256 = _ ∧ _
    rw [hstatus, hsha]
    exact h.completed

/-- The index is marked, the body stored, and the mark cleared again. -/
theorem markAndStore_alone {F : Bytes} (hF : cfg.expectedBytes = F.length)
    (h : Faithful F cfg sha256 w) (hopen : w.row.status.isOpen = true)
    (hfree : w.locks .chunksMeta = none) (hput : RePut F cfg sha256 put)
    (hrange : put.chunkIndex.toNat < cfg.totalChunks)
    (hnew : w.row.metadata.receivedChunks.lookup put.chunkIndex.toNat = none)
    (hdeclared : declared = none ∨ declared = some (sha256 put.blocks.flatten)) :
    Alone cfg t lo hi (fun _ w' => Stored cfg lo put.chunkIndex.toNat w w') (do
      perform (.commit .markActive
        (w.row.diff (setActiveChunk w.row put.chunkIndex.toNat true) false))
      (storeBody sha256 w.row put put.chunkIndex.toNat
        (expectedLength cfg put.chunkIndex.toNat) declared).followedBy
          (clearActive put.chunkIndex.toNat)) w := by
  refine alone_commit rfl fun w₁ hw₁ => ?_
  have hw₁' : Faithful F cfg sha256 w₁ :=
    h.committed hw₁ (h.metadata.setActive fun _ => hrange) rfl rfl
  refine (Prog.walk_followedBy _ _ _ _).mpr (Prog.wp_mono _ _ _ ?_
    (storeBody_alone hF hw₁' (hw₁.locks ▸ hfree) hput hnew hdeclared))
  intro r w₂ hw₂
  refine Prog.wp_perform _ _ _ fun _ _ => ?_
  refine alone_commit rfl fun w₃ hw₃ => ?_
  refine fun _ _ => ?_
  have hw₃ : Committed cfg lo w₂ (setActiveChunk w₂.row put.chunkIndex.toNat false) false w₃ :=
    hw₃
  have hstored : Stored cfg lo put.chunkIndex.toNat w w₃ := by
    refine ⟨?_, ?_, ?_, ?_, ?_, ?_, ?_, ?_⟩
    · rw [hw₃.row]
      refine hw₂.isOpen ?_
      rw [hw₁.row]
      exact hopen
    · intro j
      rw [hw₃.row]
      change j ∈ w₂.row.metadata.receivedChunks ↔ _
      rw [hw₂.received, hw₁.row]
      rfl
    · intro j
      rw [hw₃.row]
      change j ∈ w₂.row.metadata.activeChunks.erase _ ↔ _
      rw [hw₂.active, hw₁.row]
      simp only [setActiveChunk, if_true, Finset.mem_erase, Finset.mem_insert]
      tauto
    · rw [hw₃.disk]
      exact hw₂.root
    · rw [hw₃.disk]
      exact hw₂.dir
    · rw [hw₃.disk]
      intro j
      rw [hw₂.files, hw₁.disk]
    · rw [hw₃.locks, hw₂.locks, hw₁.locks]
    · obtain ⟨now, hnow, hexp⟩ := hw₂.expires
      exact ⟨now, hnow, Eq.trans hw₃.expires hexp⟩
  exact hstored

/-- A store call past its header checks. -/
theorem storeDeclared_alone {F : Bytes} (hF : cfg.expectedBytes = F.length)
    (h : Faithful F cfg sha256 w) (hopen : w.row.status.isOpen = true)
    (hidle : ∀ k, w.locks k = none) (hs : Staged w) (hput : RePut F cfg sha256 put)
    (hrange : put.chunkIndex.toNat < cfg.totalChunks)
    (hdeclared : declared = none ∨ declared = some (sha256 put.blocks.flatten)) :
    Alone cfg t lo hi (fun _ w' =>
        (put.chunkIndex.toNat ∈ w.row.metadata.receivedChunks ∧ w' = w) ∨
        (put.chunkIndex.toNat ∉ w.row.metadata.receivedChunks ∧
          Stored cfg lo put.chunkIndex.toNat w w')) (do
      if ← alreadyStored .storeEntry w.row put.chunkIndex.toNat
          (expectedLength cfg put.chunkIndex.toNat) declared then pure w.row
      else withLock (.chunk put.chunkIndex.toNat) (storeLocked sha256 put put.chunkIndex.toNat
        (expectedLength cfg put.chunkIndex.toNat) declared)) w := by
  have hlen := hput.expectedLength_eq hF
  obtain ⟨hslice, -⟩ := sliceChunk_ok hput.slice
  cases hrec : w.row.metadata.receivedChunks.lookup put.chunkIndex.toNat with
  | some r =>
    have hmem : put.chunkIndex.toNat ∈ w.row.metadata.receivedChunks :=
      Finmap.mem_iff.mpr ⟨r, hrec⟩
    have hfile := Finmap.lookup_isSome.mpr (hs.files _ hmem)
    obtain ⟨-, -, rfl⟩ := h.metadata.record _ r hrec
    simp only [alreadyStored, hrec]
    refine Prog.wp_perform _ _ _ fun _ _ => ?_
    refine Prog.wp_ite _ _ _ (fun _ => .inl ⟨hmem, rfl⟩) fun hno => ?_
    refine absurd ?_ hno
    simp only [machine_chunkFile, hfile, ← hslice, hlen, decide_true, Bool.and_true, Bool.true_and]
    rcases hdeclared with rfl | rfl <;> simp
  | none =>
    have hmem : put.chunkIndex.toNat ∉ w.row.metadata.receivedChunks :=
      Finmap.lookup_eq_none.mp hrec
    simp only [alreadyStored, hrec]
    refine alone_withLock (hidle _) ?_
    refine Prog.wp_perform _ _ _ fun _ _ => ?_
    obtain ⟨hterm, hfin⟩ := not_rejected_of_isOpen hopen
    refine Prog.wp_ite _ _ _ (fun hbad => absurd hbad (not_or.mpr ⟨hterm, hfin⟩)) fun _ => ?_
    simp only [machine_read, alreadyStored, hrec]
    refine Prog.wp_mono _ _ _ ?_ (markAndStore_alone (F := F)
      (w := { w with locks := Function.update w.locks (.chunk put.chunkIndex.toNat) (some t) })
      hF (h.withLocks _) hopen ?_ hput hrange hrec hdeclared)
    · intro r w' hw'
      refine ⟨hw'.locks, .inr ⟨hmem, ?_⟩⟩
      exact ⟨hw'.isOpen, hw'.received, hw'.active, hw'.root, hw'.dir, hw'.files, rfl, hw'.expires⟩
    · simp [hidle]

/-- **An open, staged session stores the chunk**, or already has it. -/
theorem store_stored {F : Bytes} (hF : cfg.expectedBytes = F.length) (h : Faithful F cfg sha256 w)
    (hopen : w.row.status.isOpen = true) (hfresh : Fresh hi w) (hidle : ∀ k, w.locks k = none)
    (hs : Staged w) (hput : RePut F cfg sha256 put)
    (hrange : 0 ≤ put.chunkIndex ∧ put.chunkIndex < cfg.totalChunks) :
    Alone cfg t lo hi (fun _ w' =>
        (put.chunkIndex.toNat ∈ w.row.metadata.receivedChunks ∧ w' = w) ∨
        (put.chunkIndex.toNat ∉ w.row.metadata.receivedChunks ∧
          Stored cfg lo put.chunkIndex.toNat w w'))
      (storeMemoryUploadChunkStream cfg sha256 put) w := by
  obtain ⟨hterm, hfin⟩ := not_rejected_of_isOpen hopen
  have hlen := hput.expectedLength_eq hF
  have hindex : put.chunkIndex.toNat < cfg.totalChunks := by omega
  refine Prog.wp_perform _ _ _ fun _ _ => ?_
  refine Prog.wp_ite _ _ _ (fun h => absurd h hterm) fun _ => ?_
  refine Prog.wp_ite _ _ _ (fun h => absurd h hfin) fun _ => ?_
  refine Prog.wp_ite _ _ _ (fun h => absurd hput.mode h) fun _ => ?_
  refine Prog.wp_ite _ _ _ (fun h => by omega) fun _ => ?_
  refine Prog.wp_perform _ _ _ fun e he => ?_
  refine Prog.wp_ite _ _ _ (fun hexp => absurd hexp (hfresh.not_expired he)) fun _ => ?_
  refine Prog.wp_perform _ _ _ fun _ _ => ?_
  refine Prog.wp_ite _ _ _ (fun hbad => ?_) fun _ => ?_
  · have hstatus := integrity_staged h hs false
    split_ifs at hstatus
    · exact absurd hstatus hbad.2
    · exact absurd hstatus hbad.1
  · refine Prog.wp_ite _ _ _ (fun hbad => ?_) fun _ => ?_
    · obtain ⟨n, hn, hne⟩ := (Option.any_eq_true _ _).mp hbad.2
      rw [hput.length n hn, decide_eq_true_iff] at hne
      exact absurd hlen hne
    · rcases hput.sha with hsha | hsha | hsha
      · simp only [hsha, ShaHeader.sanitized]
        exact storeDeclared_alone hF h hopen hidle hs hput hindex (.inl rfl)
      · simp only [hsha, ShaHeader.sanitized]
        exact storeDeclared_alone hF h hopen hidle hs hput hindex (.inl rfl)
      · simp only [hsha, ShaHeader.sanitized]
        exact storeDeclared_alone hF h hopen hidle hs hput hindex (.inr rfl)

end Kairon.Upload

/-
Kairon/Upload/PutStores.lean

What one `PUT` of a chunk leaves behind: after a success the part file of the
index should hold the body of this request, after a failure the part file and
the receipts should be what they were.

The failure half holds from every state (`Untouched`).  The success half does
not: a receipt of the expected length whose digest is the declared one, or
any such receipt if no digest is declared, ends the request before the body
is read (`Receipted`).  `putReportsTruly_iff` says what has to be so on the disk
for that to be right.  The other way to succeed without writing is a part
file without a receipt that compares equal by length and SHA-256 (`Adopted`);
there only a collision goes wrong.

One request at a time: the locks and the clock are the environment's, the
rest of the state is not touched while the request runs.
-/
import Kairon.Lib.Sha256
import Kairon.Upload.Alone

namespace Kairon.Upload

open Concur

variable {D : Type} [DecidableEq D]

/-! ### The promise -/

/-- The part file of index `i`, if there was one, and the receipts are what
they were. -/
structure Untouched (i : ℕ) (w w' : World D) : Prop where
  file : ∀ b, w.disk.chunks.lookup i = some b → w'.disk.chunks.lookup i = some b
  receipts : w'.row.metadata.receivedChunks = w.row.metadata.receivedChunks

/-- What the answer to a `PUT` of `body` to index `i` promises. -/
def Promised (i : ℕ) (body : Bytes) (w : World D) : Except UploadError (Row D) → World D → Prop
  | .ok _, w' => w'.disk.chunks.lookup i = some body
  | .error _, w' => Untouched i w w'

/-- Whatever the environment does, the answer to the request is true. -/
def ReportsTruly (cfg : Session D) (sha256 : Bytes → D) (t : ℕ) (put : ChunkPut D)
    (w : World D) : Prop :=
  (storeMemoryUploadChunkStream cfg sha256 put).wp (machine cfg) t (fun _ => True)
    (Promised put.chunkIndex.toNat put.blocks.flatten w) w

/-! ### Where the body is not written -/

/-- The request passes the checks made before its chunk is looked up;
`declared` is the digest it declares. -/
structure Accepted (cfg : Session D) (sha256 : Bytes → D) (put : ChunkPut D) (w : World D)
    (declared : Option D) : Prop where
  isOpen : ¬ (w.row.status.isTerminal = true) ∧ ¬ (w.row.status.isFinalizing = true)
  mode : cfg.uploadMode = put.expectedMode
  index : 0 ≤ put.chunkIndex ∧ put.chunkIndex < cfg.totalChunks
  staging : (checkStagingIntegrity cfg sha256 (stagingView w) w.row false).status = .healthy ∨
    (checkStagingIntegrity cfg sha256 (stagingView w) w.row false).status = .extraChunks
  length : put.contentLengthIsPayload = true → ∀ n, put.contentLength = some n →
    (n : ℤ) = expectedLength cfg put.chunkIndex.toNat
  sha : put.chunkSha256.sanitized = .ok declared

/-- The index has a receipt of the expected length, and the request declares
no digest or the one of the receipt. -/
def Receipted (cfg : Session D) (put : ChunkPut D) (w : World D) (declared : Option D) : Prop :=
  ∃ r, w.row.metadata.receivedChunks.lookup put.chunkIndex.toNat = some r ∧
    (r.size : ℤ) = expectedLength cfg put.chunkIndex.toNat ∧
    ∀ d, declared = some d → r.sha256 = d

/-- The index has no receipt, and its part file `b` has the length and the
digest of the body that arrives. -/
structure Adopted (cfg : Session D) (sha256 : Bytes → D) (put : ChunkPut D) (w : World D)
    (declared : Option D) (b : Bytes) : Prop where
  unrecorded : w.row.metadata.receivedChunks.lookup put.chunkIndex.toNat = none
  free : w.locks (.chunk put.chunkIndex.toNat) = none ∧ w.locks .chunksMeta = none
  eof : put.streamEnd = .eof
  fits : (put.blocks.flatten.length : ℤ) = expectedLength cfg put.chunkIndex.toNat
  declared : ∀ d, declared = some d → d = sha256 put.blocks.flatten
  size : b.length = put.blocks.flatten.length
  sha : sha256 b = sha256 put.blocks.flatten

/-- A part file that the request leaves in place of its body holds the body. -/
def HoldsBody (cfg : Session D) (sha256 : Bytes → D) (put : ChunkPut D) (w : World D) : Prop :=
  ∀ declared b, Accepted cfg sha256 put w declared →
    w.disk.chunks.lookup put.chunkIndex.toNat = some b →
    Receipted cfg put w declared ∨ Adopted cfg sha256 put w declared b →
    b = put.blocks.flatten

/-! ### Rules for any environment -/

section Rules

variable {cfg : Session D} {t : ℕ} {A : Env → Prop} {α β : Type}
variable {Q : Except UploadError β → World D → Prop}

/-- Writing back the row that was just read. -/
theorem wp_commit {place : CommitPlace} {w : World D} {item new : Row D} {touch : Bool}
    {f : Unit → Handler D β} (hitem : item = w.row)
    (h : ∀ expires, (f ()).wp (machine cfg) t A Q
      { w with row := { new with expiresAt := expires } }) :
    (perform (.commit place (item.diff new touch)) >>= f).wp (machine cfg) t A Q w := by
  subst hitem
  refine Prog.wp_perform _ _ _ fun e _ => ?_
  have hrow := Row.apply_diff w.row new touch e.now cfg.ttlSeconds
  simp only [machine, exec, hrow]
  exact h _

omit [DecidableEq D] in
/-- A lock that is not free, or not to be had, raises; the postcondition does
not look at the locks. -/
theorem wp_withLock {k : LockKey} {body : Handler D β} {w : World D}
    (hraise : ∀ e, Q (.error e) w)
    (h : w.locks k = none → body.wp (machine cfg) t A
      (fun r w' => ∀ locks, Q r { w' with locks := locks })
      { w with locks := Function.update w.locks k (some t) }) :
    (withLock k body).wp (machine cfg) t A Q w := by
  refine Prog.wp_perform _ _ _ fun e _ => ?_
  simp only [machine, exec]
  by_cases hok : e.ok
  · by_cases hfree : w.locks k = none
    · simp only [hok, hfree, Bool.not_true, Bool.false_eq_true, if_false, if_true]
      refine (Prog.walk_followedBy _ _ _ _).mpr (Prog.wp_mono _ _ _ ?_ (h hfree))
      intro r w' hQ e' _
      have hunlock : ∃ locks, (exec cfg t (.unlock k) e' w').1 = { w' with locks := locks } := by
        simp only [exec]
        split_ifs
        · exact ⟨_, rfl⟩
        · exact ⟨w'.locks, rfl⟩
      obtain ⟨locks, hlocks⟩ := hunlock
      change Q r (exec cfg t (.unlock k) e' w').1
      rw [hlocks]
      exact hQ locks
    · simp only [hok, hfree, Bool.not_true, Bool.false_eq_true, if_false]
      exact hraise _
  · simp only [hok, Bool.not_false, if_true]
    exact hraise _

end Rules

/-! ### The parts of the handler -/

omit [DecidableEq D] in
/-- A promise looks at the part files and the receipts only. -/
theorem Promised.congr {i : ℕ} {body : Bytes} {r : Except UploadError (Row D)}
    {w w₁ w' w₁' : World D} (h : Promised i body w r w')
    (hfiles : w.disk.chunks = w₁.disk.chunks)
    (hreceipts : w.row.metadata.receivedChunks = w₁.row.metadata.receivedChunks)
    (hfiles' : w'.disk.chunks = w₁'.disk.chunks)
    (hreceipts' : w'.row.metadata.receivedChunks = w₁'.row.metadata.receivedChunks) :
    Promised i body w₁ r w₁' := by
  cases r with
  | ok row => exact (congrArg (Finmap.lookup i) hfiles').symm.trans h
  | error e =>
    refine ⟨fun b hb => ?_, ?_⟩
    · rw [← hfiles']
      refine h.file b ?_
      rw [hfiles, hb]
    · rw [← hreceipts', ← hreceipts]
      exact h.receipts

omit [DecidableEq D] in
/-- Raising is fine as long as neither files nor receipts were changed. -/
theorem wp_raise {cfg : Session D} {t : ℕ} {A : Env → Prop} {i : ℕ} {body : Bytes}
    {w w' : World D} (e : UploadError) (hfiles : w'.disk.chunks = w.disk.chunks)
    (hreceipts : w'.row.metadata.receivedChunks = w.row.metadata.receivedChunks) :
    (.raise e : Handler D (Row D)).wp (machine cfg) t A (Promised i body w) w' :=
  ⟨fun _ hb => hfiles ▸ hb, hreceipts⟩

section Parts

variable {cfg : Session D} {sha256 : Bytes → D} {t i : ℕ} {A : Env → Prop}

/-- Recording a chunk does not touch the files; if its lock is not to be had,
it does not touch the receipts either. -/
theorem recordChunkReceived_wp (size : ℕ) (sha : D) (status : Option UploadStatus)
    (w : World D) :
    (recordChunkReceived i size sha status).wp (machine cfg) t A
      (fun r w' => w'.disk = w.disk ∧ ((∃ row, r = .ok row ∧ w.locks .chunksMeta = none) ∨
          (∃ e, r = .error e) ∧
            w'.row.metadata.receivedChunks = w.row.metadata.receivedChunks)) w := by
  refine wp_withLock (fun e => ⟨rfl, .inr ⟨⟨e, rfl⟩, rfl⟩⟩) fun hfree => ?_
  refine Prog.wp_perform _ _ _ fun _ _ => ?_
  refine wp_commit rfl fun expires => ?_
  exact fun _ _ _ => ⟨rfl, .inl ⟨_, rfl, hfree⟩⟩

/-- What the `finally` block keeps. -/
structure Cleared (w w' : World D) : Prop where
  disk : w'.disk = w.disk
  locks : w'.locks = w.locks
  receipts : w'.row.metadata.receivedChunks = w.row.metadata.receivedChunks

theorem clearActive_wp (w : World D) : (clearActive i).wp (machine cfg) t A
      (fun r w' => (∃ row, r = .ok row) ∧ Cleared w w') w := by
  refine Prog.wp_perform _ _ _ fun _ _ => ?_
  refine wp_commit rfl fun expires => ?_
  exact fun _ _ => ⟨⟨_, rfl⟩, rfl, rfl, rfl⟩

variable {w : World D}

/-- A part file that is there already is kept, and only accepted without a
receipt if it compares equal. -/
theorem compareExisting_wp {item : Row D} {content b : Bytes}
    (hfile : w.disk.chunks.lookup i = some b)
    (hrecord : ∀ r, item.metadata.receivedChunks.lookup i = some r →
      ¬ (r.size = content.length ∧ r.sha256 = sha256 content))
    (hequal : item.metadata.receivedChunks.lookup i = none → w.locks .chunksMeta = none →
      b.length = content.length → sha256 b = sha256 content → b = content) :
    (compareExisting sha256 item i content).wp (machine cfg) t A
      (Promised i content w) w := by
  unfold compareExisting
  cases hrow : item.metadata.receivedChunks.lookup i with
  | some r =>
    refine Prog.wp_perform _ _ _ fun _ _ => ?_
    refine Prog.wp_ite _ _ _ (fun h => absurd h (hrecord r hrow)) fun _ => ?_
    exact wp_raise _ rfl rfl
  | none =>
    refine Prog.wp_perform _ _ _ fun _ _ => ?_
    simp only [machine_finalContent, hfile]
    refine Prog.wp_perform _ _ _ fun _ _ => ?_
    refine Prog.wp_ite _ _ _ (fun _ => ?_) fun hsize => ?_
    · exact wp_raise _ rfl rfl
    refine Prog.wp_ite _ _ _ (fun hsha => ?_) fun _ => ?_
    · refine Prog.wp_mono _ _ _ ?_ (recordChunkReceived_wp _ _ _ _)
      rintro r w' ⟨hdisk, ⟨row, rfl, hfree⟩ | ⟨⟨e, rfl⟩, hreceipts⟩⟩
      · change w'.disk.chunks.lookup i = some content
        rw [hdisk, ← hequal hrow hfree (not_not.mp hsize) hsha]
        exact hfile
      · refine ⟨fun b' hb' => ?_, hreceipts⟩
        rw [hdisk]
        exact hb'
    · exact wp_raise _ rfl rfl

/-- Where no part file is, the body's becomes it. -/
theorem renameAndRecord_wp {content : Bytes} (ht : t ∈ w.disk.temps)
    (hfile : w.disk.chunks.lookup i = none) :
    (renameAndRecord sha256 i content).wp (machine cfg) t A (Promised i content w) w := by
  refine Prog.wp_perform _ _ _ fun e _ => ?_
  simp only [machine, exec, ht, if_true]
  refine Prog.wp_mono _ _ _ ?_ (recordChunkReceived_wp _ _ _ _)
  rintro r w' ⟨hdisk, ⟨row, rfl, -⟩ | ⟨⟨e, rfl⟩, hreceipts⟩⟩
  · change w'.disk.chunks.lookup i = some content
    rw [hdisk]
    exact Finmap.lookup_insert _
  · refine ⟨fun b hb => ?_, hreceipts⟩
    rw [hfile] at hb
    cases hb

variable {declared : Option D}

/-- The body is received, verified, and stored or compared. -/
theorem storeBody_wp {item : Row D} {put : ChunkPut D} {len : ℤ}
    (hrecord : ∀ b r, w.disk.chunks.lookup i = some b →
      item.metadata.receivedChunks.lookup i = some r →
      ¬ ((r.size : ℤ) = len ∧ ∀ d, declared = some d → r.sha256 = d))
    (hequal : ∀ b, w.disk.chunks.lookup i = some b →
      item.metadata.receivedChunks.lookup i = none → w.locks .chunksMeta = none →
      put.streamEnd = .eof → (put.blocks.flatten.length : ℤ) = len →
      (∀ d, declared = some d → d = sha256 put.blocks.flatten) →
      b.length = put.blocks.flatten.length → sha256 b = sha256 put.blocks.flatten →
      b = put.blocks.flatten) :
    (storeBody sha256 item put i len declared).wp (machine cfg) t A
      (Promised i put.blocks.flatten w) w := by
  refine Prog.wp_perform _ _ _ fun _ _ => ?_
  refine Prog.wp_perform _ _ _ fun _ _ => ?_
  simp only [machine, exec, if_true, Bool.not_true, Bool.false_eq_true, if_false]
  cases hreceive : receiveBlocks len put.blocks [] with
  | error e =>
    refine Prog.wp_perform _ _ _ fun _ _ => ?_
    exact wp_raise _ rfl rfl
  | ok content =>
    have hcontent : content = put.blocks.flatten := by
      rw [receiveBlocks_ok hreceive, List.nil_append]
    subst hcontent
    refine Prog.wp_ite _ _ _ (fun _ => ?_) fun hend => ?_
    · exact wp_raise _ rfl rfl
    refine Prog.wp_ite _ _ _ (fun _ => ?_) fun hlen => ?_
    · refine Prog.wp_perform _ _ _ fun _ _ => ?_
      exact wp_raise _ rfl rfl
    refine Prog.wp_ite _ _ _ (fun _ => ?_) fun hsha => ?_
    · refine Prog.wp_perform _ _ _ fun _ _ => ?_
      exact wp_raise _ rfl rfl
    have heof : put.streamEnd = .eof := by
      cases h : put.streamEnd with
      | eof => rfl
      | broken => exact absurd h hend
    have hdeclared : ∀ d, declared = some d → d = sha256 put.blocks.flatten := by
      rintro d rfl
      by_contra hne
      exact hsha (by simp [hne])
    have hlen := not_not.mp hlen
    refine Prog.wp_perform _ _ _ fun _ _ => ?_
    simp only [exec]
    refine Prog.wp_ite _ _ _ (fun hsome => ?_) fun hnone => ?_
    · obtain ⟨b, hb⟩ := Option.isSome_iff_exists.mp hsome
      refine Prog.wp_mono _ _ _ (fun r w' h => h.congr rfl rfl rfl rfl)
        (compareExisting_wp (w := { w with disk := { w.disk with
          sessionRoot := true, chunksDir := true, temps := insert t w.disk.temps } }) hb ?_ ?_)
      · -- such a receipt would have ended the request before
        rintro r hr ⟨hsize, hdigest⟩
        refine hrecord b r hb hr ⟨by rw [hsize, hlen], fun d hd => ?_⟩
        rw [hdigest, hdeclared d hd]
      · exact fun hr hfree => hequal b hb hr hfree heof hlen hdeclared
    · exact Prog.wp_mono _ _ _ (fun r w' h => h.congr rfl rfl rfl rfl)
        (renameAndRecord_wp (w := { w with disk := { w.disk with
          sessionRoot := true, chunksDir := true, temps := insert t w.disk.temps } })
          (Finset.mem_insert_self _ _) (Option.not_isSome_iff_eq_none.mp hnone))

/-- Asking whether the chunk is already stored. -/
theorem wp_alreadyStored {β : Type} {Q : Except UploadError β → World D → Prop} {place : ReadPlace}
    {len : ℤ} {item : Row D} {p q : Handler D β} (hitem : item = w.row)
    (hp : ∀ r b, w.row.metadata.receivedChunks.lookup i = some r →
      w.disk.chunks.lookup i = some b → (r.size : ℤ) = len →
      (∀ d, declared = some d → r.sha256 = d) → p.wp (machine cfg) t A Q w)
    (hq : (∀ r b, w.row.metadata.receivedChunks.lookup i = some r →
      w.disk.chunks.lookup i = some b →
      ¬ ((r.size : ℤ) = len ∧ ∀ d, declared = some d → r.sha256 = d)) →
      q.wp (machine cfg) t A Q w) :
    (do if ← alreadyStored place item i len declared then p else q : Handler D β).wp
      (machine cfg) t A Q w := by
  subst hitem
  unfold alreadyStored
  cases hrow : w.row.metadata.receivedChunks.lookup i with
  | none => exact hq fun r b hr => by cases hrow.symm.trans hr
  | some r =>
    refine Prog.wp_perform _ _ _ fun _ _ => ?_
    have hdeclared : (declared.all fun d => decide (r.sha256 = d)) = true ↔
        ∀ d, declared = some d → r.sha256 = d := by
      cases declared <;> simp
    refine Prog.wp_ite _ _ _ (fun h => ?_) fun h => ?_
    · simp only [machine_chunkFile, Bool.and_eq_true, decide_eq_true_eq, hdeclared] at h
      obtain ⟨b, hb⟩ := Option.isSome_iff_exists.mp h.1.2
      exact hp r b hrow hb h.1.1 h.2
    · refine hq fun r' b hr' hb hboth => h ?_
      obtain rfl := Option.some.inj (hrow.symm.trans hr')
      simp only [machine_chunkFile, hb, Option.isSome_some, Bool.and_true, Bool.and_eq_true,
        decide_eq_true_eq, hdeclared]
      exact hboth

/-- The part under the lock of the index, when the chunk was not found
stored before. -/
theorem storeLocked_wp {put : ChunkPut D} {len : ℤ}
    (hrecord : ∀ r b, w.row.metadata.receivedChunks.lookup i = some r →
      w.disk.chunks.lookup i = some b →
      ¬ ((r.size : ℤ) = len ∧ ∀ d, declared = some d → r.sha256 = d))
    (hequal : ∀ b, w.disk.chunks.lookup i = some b →
      w.row.metadata.receivedChunks.lookup i = none → w.locks .chunksMeta = none →
      put.streamEnd = .eof → (put.blocks.flatten.length : ℤ) = len →
      (∀ d, declared = some d → d = sha256 put.blocks.flatten) →
      b.length = put.blocks.flatten.length → sha256 b = sha256 put.blocks.flatten →
      b = put.blocks.flatten) :
    (storeLocked sha256 put i len declared).wp (machine cfg) t A
      (Promised i put.blocks.flatten w) w := by
  refine Prog.wp_perform _ _ _ fun _ _ => ?_
  refine Prog.wp_ite _ _ _ (fun _ => wp_raise _ rfl rfl) fun _ => ?_
  simp only [machine_read]
  refine wp_alreadyStored rfl (fun r b hr hb hsize hsha => ?_) fun _ => ?_
  · exact absurd ⟨hsize, hsha⟩ (hrecord r b hr hb)
  refine wp_commit rfl fun expires => (Prog.walk_followedBy _ _ _ _).mpr ?_
  refine Prog.wp_mono _ _ _ ?_
    (storeBody_wp (fun b r hb hr => hrecord r b hr hb) hequal)
  intro r w₁ h
  refine Prog.wp_mono _ _ _ ?_ (clearActive_wp w₁)
  rintro r' w' ⟨⟨row, rfl⟩, hcleared⟩
  exact h.congr rfl rfl (congrArg Disk.chunks hcleared.disk).symm hcleared.receipts.symm

end Parts

/-! ### The whole request -/

section Request

variable {cfg : Session D} {sha256 : Bytes → D} {t : ℕ} {put : ChunkPut D} {w : World D}

omit [DecidableEq D] in
theorem chunksMeta_update (w : World D) (i t : ℕ) :
    Function.update w.locks (.chunk i) (some t) .chunksMeta = w.locks .chunksMeta :=
  Function.update_of_ne (by simp) _ _

/-- An answer is true if the part files it leaves in place hold the body. -/
theorem HoldsBody.reportsTruly (h : HoldsBody cfg sha256 put w) (t : ℕ) :
    ReportsTruly cfg sha256 t put w := by
  refine Prog.wp_perform _ _ _ fun _ _ => ?_
  refine Prog.wp_ite _ _ _ (fun _ => wp_raise _ rfl rfl) fun hterm => ?_
  refine Prog.wp_ite _ _ _ (fun _ => wp_raise _ rfl rfl) fun hfin => ?_
  refine Prog.wp_ite _ _ _ (fun _ => wp_raise _ rfl rfl) fun hmode => ?_
  refine Prog.wp_ite _ _ _ (fun _ => wp_raise _ rfl rfl) fun hindex => ?_
  refine Prog.wp_perform _ _ _ fun _ _ => ?_
  refine Prog.wp_ite _ _ _ (fun _ => wp_commit rfl fun _ => wp_raise _ rfl rfl) fun _ => ?_
  refine Prog.wp_perform _ _ _ fun _ _ => ?_
  refine Prog.wp_ite _ _ _ (fun _ => wp_commit rfl fun _ => wp_raise _ rfl rfl) fun hstaging => ?_
  refine Prog.wp_ite _ _ _ (fun _ => wp_raise _ rfl rfl) fun hlength => ?_
  cases hsha : put.chunkSha256.sanitized with
  | error e => exact wp_raise _ rfl rfl
  | ok declared =>
    have haccepted : Accepted cfg sha256 put w declared := by
      refine ⟨⟨hterm, hfin⟩, not_not.mp hmode, by omega, ?_, ?_, hsha⟩
      · rcases not_and_or.mp hstaging with hs | hs
        · exact .inl (not_not.mp hs)
        · exact .inr (not_not.mp hs)
      · intro hpayload n hn
        by_contra hne
        exact hlength ⟨hpayload, by simp [hn, hne]⟩
    simp only [machine_read]
    refine wp_alreadyStored rfl (fun r b hr hb hsize hdigest => ?_) fun hrecord => ?_
    · have hb' := h declared b haccepted hb (.inl ⟨r, hr, hsize, hdigest⟩)
      exact hb' ▸ hb
    refine wp_withLock (fun e => ⟨fun _ hb => hb, rfl⟩) fun hfree => ?_
    refine Prog.wp_mono _ _ _ ?_ (storeLocked_wp hrecord ?_)
    · exact fun r w' hr locks => hr.congr rfl rfl rfl rfl
    intro b hb hr hmeta heof hfits hdeclared hsize hdigest
    refine h declared b haccepted hb (.inr ⟨hr, ⟨hfree, ?_⟩, heof, hfits, hdeclared, hsize,
      hdigest⟩)
    exact (chunksMeta_update w put.chunkIndex.toNat t).symm.trans hmeta

variable {declared : Option D}

/-- An accepted request goes on to look up its chunk, as long as the session
does not expire. -/
theorem Accepted.wp (h : Accepted cfg sha256 put w declared)
    {A : Env → Prop} (hA : ∀ e, A e → e.now = 0)
    {Q : Except UploadError (Row D) → World D → Prop}
    (hrest : (do
      if ← alreadyStored .storeEntry w.row put.chunkIndex.toNat
          (expectedLength cfg put.chunkIndex.toNat) declared then pure w.row
      else withLock (.chunk put.chunkIndex.toNat) (storeLocked sha256 put put.chunkIndex.toNat
        (expectedLength cfg put.chunkIndex.toNat) declared)
      : Handler D (Row D)).wp (machine cfg) t A Q w) :
    (storeMemoryUploadChunkStream cfg sha256 put).wp (machine cfg) t A Q w := by
  refine Prog.wp_perform _ _ _ fun _ _ => ?_
  refine Prog.wp_ite _ _ _ (fun hbad => absurd hbad h.isOpen.1) fun _ => ?_
  refine Prog.wp_ite _ _ _ (fun hbad => absurd hbad h.isOpen.2) fun _ => ?_
  refine Prog.wp_ite _ _ _ (fun hbad => absurd h.mode hbad) fun _ => ?_
  refine Prog.wp_ite _ _ _ (fun hbad => ?_) fun _ => ?_
  · have := h.index
    omega
  refine Prog.wp_perform _ _ _ fun e he => ?_
  refine Prog.wp_ite _ _ _ (fun hbad => ?_) fun _ => ?_
  · obtain ⟨n, -, hn⟩ := (Option.any_eq_true _ _).mp hbad
    simp [hA e he] at hn
  refine Prog.wp_perform _ _ _ fun _ _ => ?_
  refine Prog.wp_ite _ _ _ (fun hbad => ?_) fun _ => ?_
  · exact absurd h.staging (not_or.mpr hbad)
  refine Prog.wp_ite _ _ _ (fun hbad => ?_) fun _ => ?_
  · obtain ⟨n, hn, hne⟩ := (Option.any_eq_true _ _).mp hbad.2
    exact absurd (h.length hbad.1 n hn) (of_decide_eq_true hne)
  simp only [h.sha]
  exact hrest

/-- A receipt ends the request with success, and nothing is written. -/
theorem Accepted.receipted (h : Accepted cfg sha256 put w declared)
    {b : Bytes} (hb : w.disk.chunks.lookup put.chunkIndex.toNat = some b)
    (hr : Receipted cfg put w declared) :
    Alone cfg t 0 0 (fun r w' => (∃ row, r = .ok row) ∧ w'.disk.chunks = w.disk.chunks)
      (storeMemoryUploadChunkStream cfg sha256 put) w := by
  refine h.wp (fun e he => Nat.le_zero.mp he.le_hi) ?_
  refine wp_alreadyStored rfl (fun _ _ _ _ _ _ => ⟨⟨_, rfl⟩, rfl⟩) fun hno => ?_
  obtain ⟨r, hlookup, hsize, hdigest⟩ := hr
  exact absurd ⟨hsize, hdigest⟩ (hno r b hlookup hb)

/-- A part file that compares equal is kept and recorded. -/
theorem Adopted.storeBody {b : Bytes} (h : Adopted cfg sha256 put w declared b)
    (hb : w.disk.chunks.lookup put.chunkIndex.toNat = some b) {item : Row D}
    (hitem : item.metadata.receivedChunks.lookup put.chunkIndex.toNat = none)
    {w₁ : World D} (hfiles : w₁.disk.chunks = w.disk.chunks)
    (hfree : w₁.locks .chunksMeta = none) :
    Alone cfg t 0 0 (fun r w' => (∃ row, r = .ok row) ∧ w'.disk.chunks = w.disk.chunks ∧
        w'.locks = w₁.locks)
      (storeBody sha256 item put put.chunkIndex.toNat
        (expectedLength cfg put.chunkIndex.toNat) declared) w₁ := by
  have hreceive : receiveBlocks (expectedLength cfg put.chunkIndex.toNat) put.blocks []
      = .ok put.blocks.flatten := by
    rw [receiveBlocks_fits _ (by rw [List.nil_append, h.fits]), List.nil_append]
  have hany : (declared.any fun d => decide (d ≠ sha256 put.blocks.flatten)) = false := by
    cases hdeclared : declared with
    | none => rfl
    | some d => simp [h.declared d hdeclared]
  rw [← hfiles] at hb
  refine Prog.wp_perform _ _ _ fun _ _ => ?_
  refine Prog.wp_perform _ _ _ fun _ _ => ?_
  simp only [machine, exec, if_true, Bool.not_true, Bool.false_eq_true, if_false, hreceive,
    h.eof, reduceCtorEq, h.fits, ne_eq, not_true_eq_false, hany]
  refine Prog.wp_perform _ _ _ fun _ _ => ?_
  simp only [exec, hb, Option.isSome_some, if_true, compareExisting, hitem]
  refine Prog.wp_perform _ _ _ fun _ _ => ?_
  simp only [exec, hb]
  refine Prog.wp_perform _ _ _ fun _ _ => ?_
  simp only [exec, h.size, h.sha, ne_eq, not_true_eq_false, if_false, if_true]
  refine alone_withLock hfree ?_
  refine Prog.wp_perform _ _ _ fun _ _ => ?_
  refine wp_commit rfl fun expires => ?_
  exact fun _ _ => ⟨rfl, ⟨_, rfl⟩, hfiles, rfl⟩

/-- A part file that compares equal ends the request with success. -/
theorem Accepted.adopted (h : Accepted cfg sha256 put w declared)
    {b : Bytes} (hb : w.disk.chunks.lookup put.chunkIndex.toNat = some b)
    (ha : Adopted cfg sha256 put w declared b) :
    Alone cfg t 0 0 (fun r w' => (∃ row, r = .ok row) ∧ w'.disk.chunks = w.disk.chunks)
      (storeMemoryUploadChunkStream cfg sha256 put) w := by
  refine h.wp (fun e he => Nat.le_zero.mp he.le_hi) ?_
  refine wp_alreadyStored rfl (fun _ _ _ _ _ _ => ⟨⟨_, rfl⟩, rfl⟩) fun _ => ?_
  refine alone_withLock ha.free.1 ?_
  refine Prog.wp_perform _ _ _ fun _ _ => ?_
  refine Prog.wp_ite _ _ _ (fun hbad => absurd hbad (not_or.mpr h.isOpen)) fun _ => ?_
  simp only [machine_read]
  refine wp_alreadyStored rfl (fun r _ hr _ _ _ => ?_) fun _ => ?_
  · cases ha.unrecorded.symm.trans hr
  refine wp_commit rfl fun expires => (Prog.walk_followedBy _ _ _ _).mpr ?_
  refine Prog.wp_mono _ _ _ ?_ (ha.storeBody hb ha.unrecorded rfl ?_)
  · rintro r w₁ ⟨⟨row, rfl⟩, hfiles, hlocks⟩
    refine Prog.wp_mono _ _ _ ?_ (clearActive_wp w₁)
    rintro r' w' ⟨⟨row', rfl⟩, hcleared⟩
    refine ⟨hcleared.locks.trans hlocks, ⟨row, rfl⟩, ?_⟩
    rw [hcleared.disk]
    exact hfiles
  · exact (chunksMeta_update w put.chunkIndex.toNat t).trans ha.free.2

/-- What a success leaves in place of the body is the part file that was
there. -/
theorem ReportsTruly.holdsBody (h : ReportsTruly cfg sha256 t put w) :
    HoldsBody cfg sha256 put w := by
  intro declared b haccepted hb hskips
  have hkeeps : Alone cfg t 0 0
      (fun r w' => (∃ row, r = .ok row) ∧ w'.disk.chunks = w.disk.chunks)
      (storeMemoryUploadChunkStream cfg sha256 put) w :=
    hskips.elim (haccepted.receipted hb) (haccepted.adopted hb)
  -- one run in which the clock stands still and the locks are to be had
  obtain ⟨_, w', ⟨⟨row, rfl⟩, hfiles⟩, hpromised⟩ :=
    Prog.exists_of_wp (machine cfg) t (Calm 0 0)
      (show Calm 0 0 ⟨0, true, none⟩ from ⟨rfl, rfl, le_rfl, le_rfl⟩) _ w hkeeps
      (Prog.wp_weaken _ _ (fun _ _ => trivial) _ h)
  have hbody : w'.disk.chunks.lookup put.chunkIndex.toNat = some put.blocks.flatten := hpromised
  rw [hfiles, hb] at hbody
  exact Option.some.inj hbody

/-- **A `PUT` answers truly exactly if the part files it leaves in place hold
its body.**  In particular no failure touches a part file or a receipt. -/
theorem putReportsTruly_iff (cfg : Session D) (sha256 : Bytes → D) (t : ℕ) (put : ChunkPut D)
    (w : World D) : ReportsTruly cfg sha256 t put w ↔ HoldsBody cfg sha256 put w :=
  ⟨fun h => h.holdsBody, fun h => h.reportsTruly t⟩

end Request

/-! ### A repeat with other bytes -/

/-- Eight bytes in one chunk. -/
def eightBytes : Session Bytes := ⟨8, 8, 1, none, .resumable, 86400⟩

/-- The chunk `"12345678"` was stored. -/
def digitsStored : World Bytes where
  row := {
    status := .uploading
    metadata := ⟨Finmap.singleton 0 ⟨8, Sha256.digest [49, 50, 51, 52, 53, 54, 55, 56]⟩, ∅, none⟩
    receivedChunkCount := 1
    bytesReceived := 8
    sha256 := none
    failure := none
    retryable := false
    expiresAt := none }
  disk := ⟨true, true, Finmap.singleton 0 [49, 50, 51, 52, 53, 54, 55, 56], ∅, ∅, none⟩
  locks := fun _ => none
  evidence := none

/-- Now the chunk comes again as `"abcdefgh"`. -/
def lettersPut : ChunkPut Bytes where
  chunkIndex := 0
  blocks := [[97, 98, 99, 100], [101, 102, 103, 104]]
  streamEnd := .eof
  contentLength := some 8
  contentLengthIsPayload := true
  chunkSha256 := .absent
  expectedMode := .resumable

/-- The repeat is accepted. -/
theorem lettersPut_accepted : Accepted eightBytes Sha256.digest lettersPut digitsStored none := by
  refine ⟨by decide, rfl, by decide, ?_, ?_, rfl⟩
  · decide
  · rintro - n hn
    obtain rfl := Option.some.inj hn
    decide

/-- **The other bytes are reported as stored**, and are not. -/
theorem repeat_not_reportsTruly :
    ¬ ReportsTruly eightBytes Sha256.digest 0 lettersPut digitsStored := by
  intro h
  have hbody := h.holdsBody none _ lettersPut_accepted rfl
    (.inl ⟨_, rfl, by decide, by simp⟩)
  exact absurd hbody (by decide)

end Kairon.Upload

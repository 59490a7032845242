/-
Kairon/Upload/Resume.lean

Can an upload be resumed after a crash?  The crash may come at any point of
any interleaving: the database keeps what was committed, the disk what was
written or renamed, the processes are gone and their locks run out.  The
client then sends every chunk again, in any order, and finalizes.

A store call that is killed between the commit of its record and the commit
that clears its active mark leaves the index both recorded and marked.  The
repeated `PUT` of that index takes the fast path for recorded chunks and
never clears the mark, so that finalize is refused for good
(`crash_not_resumable`).  `resumable_iff` says from which states the upload
can be resumed: those without such an index whose staging directory is
whole; once finalization has begun, every chunk must be there and unmarked.
-/
import Kairon.Upload.Alone

namespace Kairon.Upload

open Concur

variable {D : Type} [DecidableEq D]

/-! ### The recovery run -/

/-- Run a request whose outcome the client does not depend on. -/
def attempt {α : Type} (p : Handler D α) : Handler D Unit :=
  (p >>= fun _ => pure ()).handle fun _ => pure ()

/-- Send the chunks one after another, then finalize. -/
def recoveryRun (cfg : Session D) (sha256 : Bytes → D) (header : ShaHeader D) :
    List (ChunkPut D) → Handler D (Outcome D)
  | [] => finalizeMemoryUploadSession cfg sha256 header
  | put :: puts => do
      attempt (storeMemoryUploadChunkStream cfg sha256 put)
      recoveryRun cfg sha256 header puts

/-- Index `i` is among the chunks that are sent. -/
def Sent (puts : List (ChunkPut D)) (i : ℕ) : Prop := ∃ put ∈ puts, put.chunkIndex = i

/-- Every chunk of the client is sent, as the client cuts it. -/
structure Covers (F : Bytes) (cfg : Session D) (sha256 : Bytes → D)
    (puts : List (ChunkPut D)) : Prop where
  rePut : ∀ put ∈ puts, RePut F cfg sha256 put
  all : ∀ i, i * cfg.chunkSizeBytes < F.length → Sent puts i

/-- What a crash leaves behind once the locks of the dead have run out. -/
def crashed (w : World D) : World D := { w with locks := fun _ => none }

/-- Whatever the order of the chunks, the recovery run finalizes and the
canonical file is `F`. -/
def Recovers (F : Bytes) (cfg : Session D) (sha256 : Bytes → D) (t lo hi : ℕ)
    (w : World D) : Prop :=
  ∀ puts header, Covers F cfg sha256 puts → HonestHeader F cfg sha256 header →
    Alone cfg t lo hi (fun r w' => succeeded r ∧ w'.disk.canonical = some F)
      (recoveryRun cfg sha256 header puts) (crashed w)

/-- The states an upload can be resumed from. -/
structure Resumable (F : Bytes) (cfg : Session D) (w : World D) : Prop where
  exact : cfg.totalChunks = F.length ⌈/⌉ cfg.chunkSizeBytes
  staged : Staged w
  unmarked : w.row.status.isOpen = true →
    ∀ i ∈ w.row.metadata.receivedChunks, i ∉ w.row.metadata.activeChunks
  complete : w.row.status.isFinalizing = true → w.row.metadata.activeChunks = ∅ ∧
    ∀ i < cfg.totalChunks, i ∈ w.row.metadata.receivedChunks

/-! ### One chunk -/

section Run

variable {cfg : Session D} {sha256 : Bytes → D} {t lo hi : ℕ} {F : Bytes}

variable {w : World D}

omit [DecidableEq D] in
theorem alone_attempt {α β : Type} {Q : Except UploadError β → World D → Prop} {p : Handler D α}
    {f : Unit → Handler D β}
    (h : Alone cfg t lo hi (fun _ w' => Alone cfg t lo hi Q (f ()) w') p w) :
    Alone cfg t lo hi Q (attempt p >>= f) w := by
  refine Prog.wp_bind _ _ _ ((Prog.walk_handle _ _ _ _).mpr ((Prog.walk_bind _ _ _ _).mpr ?_))
  refine Prog.wp_mono _ _ _ ?_ h
  intro r w' hw'
  cases r with
  | ok a => exact hw'
  | error e => exact hw'

variable {put : ChunkPut D}

omit [DecidableEq D] in
theorem RePut.index_nonneg (h : RePut F cfg sha256 put) : 0 ≤ put.chunkIndex := by
  have hslice := h.slice
  unfold sliceChunk at hslice
  split at hslice
  · cases hslice
  · next hrange => exact (sliceRange_ok_iff.mp hrange).1

omit [DecidableEq D] in
theorem RePut.carries (h : RePut F cfg sha256 put) : put.Carries F cfg :=
  fun _ => h.slice

/-- A chunk outside the session's range is refused. -/
theorem store_out_of_range (hopen : w.row.status.isOpen = true) (hput : RePut F cfg sha256 put)
    (hrange : ¬ put.chunkIndex < cfg.totalChunks) :
    Alone cfg t lo hi (fun _ w' => w' = w) (storeMemoryUploadChunkStream cfg sha256 put) w := by
  obtain ⟨hterm, hfin⟩ := not_rejected_of_isOpen hopen
  refine Prog.wp_perform _ _ _ fun _ _ => ?_
  refine Prog.wp_ite _ _ _ (fun h => absurd h hterm) fun _ => ?_
  refine Prog.wp_ite _ _ _ (fun h => absurd h hfin) fun _ => ?_
  refine Prog.wp_ite _ _ _ (fun h => absurd hput.mode h) fun _ => ?_
  exact Prog.wp_ite _ _ _ (fun _ => rfl) fun h => by omega

/-- The invariant survives a store call run alone. -/
theorem store_faithful (h : Faithful F cfg sha256 w) (hput : RePut F cfg sha256 put) :
    Alone cfg t lo hi (fun _ w' => Faithful F cfg sha256 w')
      (storeMemoryUploadChunkStream cfg sha256 put) w :=
  Prog.wp_mono _ _ _ (fun _ _ hw => hw.2) (Prog.Ok.wp assemblyRely_refl _ _ h (store_assembly t hput.carries w))

/-! ### Sessions that are being finalized or over -/

variable {header : ShaHeader D}

variable {Q : Except UploadError (Outcome D) → World D → Prop}

/-- Refused chunks change nothing. -/
theorem recoveryRun_rejected
    (hstatus : w.row.status.isTerminal = true ∨ w.row.status.isFinalizing = true)
    (puts : List (ChunkPut D))
    (h : Alone cfg t lo hi Q (finalizeMemoryUploadSession cfg sha256 header) w) :
    Alone cfg t lo hi Q (recoveryRun cfg sha256 header puts) w := by
  induction puts with
  | nil => exact h
  | cons put puts ih =>
    refine alone_attempt (Prog.wp_mono _ _ _ ?_ (store_rejected hstatus put))
    rintro r w' rfl
    exact ih

/-! ### Sessions whose staging directory is not whole -/

/-- The first chunk fails the session, and finalize refuses it. -/
theorem recoveryRun_unstaged (hF : cfg.expectedBytes = F.length) (puts : List (ChunkPut D))
    (hputs : ∀ put ∈ puts, RePut F cfg sha256 put)
    (h : Faithful F cfg sha256 w) (hidle : ∀ k, w.locks k = none)
    (hopen : w.row.status.isOpen = true) (hfresh : Fresh hi w) (hs : ¬ Staged w) :
    Alone cfg t lo hi (fun r _ => ¬ succeeded r) (recoveryRun cfg sha256 header puts) w := by
  induction puts with
  | nil =>
    refine finalize_fails hF h (hidle _) ?_ (fun hready => hs hready.staged) header
    revert hopen
    cases w.row.status <;> decide
  | cons put puts ih =>
    have hput := hputs put (.head _)
    refine alone_attempt ?_
    by_cases hrange : put.chunkIndex < cfg.totalChunks
    · refine Prog.wp_mono _ _ _ ?_ (Prog.wp_and _ _ _ (store_faithful h hput)
        (store_unusable hopen hfresh hs hput ⟨hput.index_nonneg, hrange⟩))
      rintro r w' ⟨hw', hstatus, hmeta, hdisk, hlocks⟩
      have hs' : ¬ Staged w' := by
        rintro ⟨hroot, hdir, hfiles⟩
        rw [hdisk] at hroot hdir hfiles
        rw [hmeta] at hfiles
        exact hs ⟨hroot, hdir, hfiles⟩
      refine recoveryRun_rejected (.inl (by rw [hstatus]; rfl)) puts ?_
      refine finalize_fails hF hw' (hlocks ▸ hidle _) (by rw [hstatus]; rfl)
        (fun hready => hs' hready.staged) header
    · refine Prog.wp_mono _ _ _ ?_ (store_out_of_range hopen hput hrange)
      rintro r w' rfl
      exact ih fun p hp => hputs p (List.mem_cons_of_mem put hp)

/-! ### Open sessions -/

/-- Chunks can be stored, alone, until `hi`. -/
structure Storing (F : Bytes) (cfg : Session D) (sha256 : Bytes → D) (hi : ℕ) (w : World D) :
    Prop where
  faithful : Faithful F cfg sha256 w
  isOpen : w.row.status.isOpen = true
  idle : ∀ k, w.locks k = none
  staged : Staged w
  fresh : Fresh hi w

/-- After the chunks were sent: they are recorded, and the mark of every
chunk that had no record is gone. -/
structure Refreshed (cfg : Session D) (puts : List (ChunkPut D)) (w w' : World D) : Prop where
  received : ∀ j < cfg.totalChunks, j ∈ w'.row.metadata.receivedChunks ↔
    j ∈ w.row.metadata.receivedChunks ∨ Sent puts j
  active : ∀ j < cfg.totalChunks, j ∈ w'.row.metadata.activeChunks ↔
    j ∈ w.row.metadata.activeChunks ∧ (j ∈ w.row.metadata.receivedChunks ∨ ¬ Sent puts j)

variable {puts : List (ChunkPut D)}

omit [DecidableEq D] in
theorem sent_cons {j : ℕ} : Sent (put :: puts) j ↔ put.chunkIndex = j ∨ Sent puts j := by
  simp [Sent]

omit [DecidableEq D] in
/-- A chunk that changes nothing is outside the range or recorded already. -/
theorem Refreshed.skip {w w' : World D} (h : Refreshed cfg puts w w')
    (hskip : ∀ j < cfg.totalChunks, put.chunkIndex = j → j ∈ w.row.metadata.receivedChunks) :
    Refreshed cfg (put :: puts) w w' := by
  refine ⟨fun j hj => ?_, fun j hj => ?_⟩
  · have := hskip j hj
    rw [h.received j hj, sent_cons]
    tauto
  · have := hskip j hj
    rw [h.active j hj, sent_cons]
    tauto

omit [DecidableEq D] in
theorem Stored.refreshed {i : ℕ}
    {w w₁ w' : World D} (hstored : Stored cfg lo i w w₁) (hi : put.chunkIndex = i)
    (hnew : i ∉ w.row.metadata.receivedChunks) (h : Refreshed cfg puts w₁ w') :
    Refreshed cfg (put :: puts) w w' := by
  have hindex : ∀ j : ℕ, put.chunkIndex = j ↔ j = i := by
    intro j
    rw [hi]
    omega
  refine ⟨fun j hj => ?_, fun j hj => ?_⟩
  · rw [h.received j hj, hstored.received, sent_cons, hindex]
    tauto
  · rw [h.active j hj, hstored.active, hstored.received, sent_cons, hindex]
    by_cases hji : j = i
    · subst hji
      tauto
    · tauto

theorem recoveryRun_storing (hF : cfg.expectedBytes = F.length) (httl : hi ≤ lo + cfg.ttlSeconds)
    (puts : List (ChunkPut D))
    (hputs : ∀ put ∈ puts, RePut F cfg sha256 put) (h : Storing F cfg sha256 hi w)
    (hrest : ∀ w', Storing F cfg sha256 hi w' → Refreshed cfg puts w w' →
      Alone cfg t lo hi Q (finalizeMemoryUploadSession cfg sha256 header) w') :
    Alone cfg t lo hi Q (recoveryRun cfg sha256 header puts) w := by
  induction puts generalizing w with
  | nil =>
    refine hrest w h ⟨fun j _ => ?_, fun j _ => ?_⟩ <;> simp [Sent]
  | cons put puts ih =>
    have hput := hputs put (.head _)
    have ih := fun {w} => ih (fun p hp => hputs p (List.mem_cons_of_mem put hp)) (w := w)
    refine alone_attempt ?_
    by_cases hrange : put.chunkIndex < cfg.totalChunks
    · have hnonneg := hput.index_nonneg
      refine Prog.wp_mono _ _ _ ?_ (Prog.wp_and _ _ _ (store_faithful h.faithful hput)
        (store_stored hF h.faithful h.isOpen h.fresh h.idle h.staged hput
          ⟨hnonneg, hrange⟩))
      rintro r w₁ ⟨hw₁, ⟨hrec, rfl⟩ | ⟨hnew, hstored⟩⟩
      · refine ih h fun w' hw' href => hrest w' hw' (href.skip fun j _ hj => ?_)
        rw [hj] at hrec
        exact hrec
      · obtain ⟨now, hnow, hexp⟩ := hstored.expires
        have hw₁ : Storing F cfg sha256 hi w₁ := by
          refine ⟨hw₁, hstored.isOpen, fun k => by rw [hstored.locks]; exact h.idle k,
            ⟨hstored.root, hstored.dir, fun j hj => ?_⟩, fun x hx => ?_⟩
          · rw [hstored.files]
            exact ((hstored.received j).mp hj).imp id (h.staged.files j)
          · rw [hexp] at hx
            obtain rfl := Option.some.inj hx
            omega
        refine ih hw₁ fun w' hw' href => hrest w' hw' (hstored.refreshed ?_ hnew href)
        omega
    · refine Prog.wp_mono _ _ _ ?_ (store_out_of_range h.isOpen hput hrange)
      rintro r w₁ rfl
      refine ih h fun w' hw' href => hrest w' hw' (href.skip fun j hj hj' => ?_)
      omega

/-! ### From which states -/

omit [DecidableEq D] in
/-- With every chunk of the client sent again, an open session becomes ready
exactly if it was resumable. -/
theorem Refreshed.ready_iff (hc : 0 < cfg.chunkSizeBytes) (hn : 0 < cfg.totalChunks)
    (hcov : Covers F cfg sha256 puts) {w w' : World D}
    (h : Storing F cfg sha256 hi w) (hw' : Storing F cfg sha256 hi w')
    (href : Refreshed cfg puts w w') : FinalizeReady F cfg w' ↔ Resumable F cfg w := by
  obtain ⟨n, hn⟩ : ∃ n, cfg.totalChunks = n + 1 := ⟨cfg.totalChunks - 1, by omega⟩
  constructor
  · intro hready
    have hlast := hready.recorded n (by omega)
    obtain ⟨r, hr⟩ := Finmap.mem_iff.mp hlast
    obtain ⟨-, hlt, -⟩ := hw'.faithful.metadata.record n r hr
    refine ⟨?_, h.staged, ?_, ?_⟩
    · rw [hn, eq_ceilDiv_iff hc]
      exact ⟨hlt, hn ▸ hready.reach⟩
    · intro _ i hi hact
      obtain ⟨r, hr⟩ := Finmap.mem_iff.mp hi
      obtain ⟨hlt, -, -⟩ := h.faithful.metadata.record i r hr
      have : i ∈ w'.row.metadata.activeChunks := (href.active i hlt).mpr ⟨hact, .inl hi⟩
      rw [hready.idle] at this
      exact absurd this (Finset.notMem_empty i)
    · intro hfin
      exact absurd hfin (not_rejected_of_isOpen h.isOpen).2
  · intro hres
    obtain ⟨hlt, hle⟩ := (eq_ceilDiv_iff hc).mp (hn ▸ hres.exact)
    have hsent : ∀ i < cfg.totalChunks, Sent puts i := by
      intro i hi
      refine hcov.all i (lt_of_le_of_lt (Nat.mul_le_mul_right _ ?_) hlt)
      omega
    refine ⟨?_, hw'.staged, ?_, hn ▸ hle⟩
    · refine Finset.eq_empty_of_forall_notMem fun i hi => ?_
      have hlt := hw'.faithful.metadata.active i hi
      obtain ⟨hact, hrec | hnot⟩ := (href.active i hlt).mp hi
      · exact hres.unmarked h.isOpen i hrec hact
      · exact hnot (hsent i hlt)
    · intro i hi
      exact (href.received i hi).mpr (.inr (hsent i hi))

omit [DecidableEq D] in
/-- While finalization is under way, resumable means ready. -/
theorem ready_iff_of_isFinalizing (hc : 0 < cfg.chunkSizeBytes) (hn : 0 < cfg.totalChunks)
    (h : Faithful F cfg sha256 w) (hfin : w.row.status.isFinalizing = true) :
    FinalizeReady F cfg w ↔ Resumable F cfg w := by
  obtain ⟨n, hn⟩ : ∃ n, cfg.totalChunks = n + 1 := ⟨cfg.totalChunks - 1, by omega⟩
  constructor
  · intro hready
    obtain ⟨r, hr⟩ := Finmap.mem_iff.mp (hready.recorded n (by omega))
    obtain ⟨-, hlt, -⟩ := h.metadata.record n r hr
    refine ⟨?_, hready.staged, ?_, fun _ => ⟨hready.idle, hready.recorded⟩⟩
    · rw [hn, eq_ceilDiv_iff hc]
      exact ⟨hlt, hn ▸ hready.reach⟩
    · intro hopen
      exact absurd hfin (not_rejected_of_isOpen hopen).2
  · intro hres
    obtain ⟨hidle, hrec⟩ := hres.complete hfin
    obtain ⟨-, hle⟩ := (eq_ceilDiv_iff hc).mp (hn ▸ hres.exact)
    exact ⟨hidle, hres.staged, hrec, hn ▸ hle⟩

theorem finalize_produces (hF : cfg.expectedBytes = F.length) (h : Faithful F cfg sha256 w)
    (hfree : w.locks .finalize = none) (hstatus : w.row.status.isFinalizable = true)
    (hready : FinalizeReady F cfg w) (hheader : HonestHeader F cfg sha256 header) :
    Alone cfg t lo hi (fun r w' => succeeded r ∧ w'.disk.canonical = some F)
      (finalizeMemoryUploadSession cfg sha256 header) w := by
  refine Prog.wp_mono _ _ _ ?_ (Prog.wp_and _ _ _
    (finalize_succeeds hF h hfree hstatus hready hheader)
    (Prog.Ok.wp assemblyRely_refl _ _ h
      (finalize_published hF t header w)))
  rintro r w' ⟨⟨row, ev, rfl⟩, hpub, -⟩
  exact ⟨⟨row, ev, rfl⟩, hpub.1⟩

omit [DecidableEq D] in
theorem isFinalizable_of_isActive (h : w.row.status.isActive = true) :
    w.row.status.isFinalizable = true := by
  revert h
  cases w.row.status <;> decide

omit [DecidableEq D] in
/-- An active session takes chunks or is being finalized. -/
theorem isOpen_or_isFinalizing (h : w.row.status.isActive = true) :
    w.row.status.isOpen = true ∨ w.row.status.isFinalizing = true := by
  revert h
  cases w.row.status <;> decide

section Idle

variable (hF : cfg.expectedBytes = F.length) (hc : 0 < cfg.chunkSizeBytes)
  (hn : 0 < cfg.totalChunks) (httl : hi ≤ lo + cfg.ttlSeconds) {w : World D}
  (h : Faithful F cfg sha256 w) (hactive : w.row.status.isActive = true)
  (hidle : ∀ k, w.locks k = none) (hfresh : Fresh hi w) {puts : List (ChunkPut D)}
  (hcov : Covers F cfg sha256 puts)

include hF hc hn httl h hactive hidle hfresh hcov

theorem recoveryRun_succeeds {header : ShaHeader D}
    (hheader : HonestHeader F cfg sha256 header)
    (hres : Resumable F cfg w) :
    Alone cfg t lo hi (fun r w' => succeeded r ∧ w'.disk.canonical = some F)
      (recoveryRun cfg sha256 header puts) w := by
  rcases isOpen_or_isFinalizing hactive with hopen | hfin
  · have hw : Storing F cfg sha256 hi w := ⟨h, hopen, hidle, hres.staged, hfresh⟩
    refine recoveryRun_storing hF httl puts hcov.rePut hw fun w' hw' href => ?_
    refine finalize_produces hF hw'.faithful (hw'.idle _) ?_
      ((href.ready_iff hc hn hcov hw hw').mpr hres) hheader
    have := hw'.isOpen
    revert this
    cases w'.row.status <;> decide
  · refine recoveryRun_rejected (.inr hfin) puts ?_
    exact finalize_produces hF h (hidle _) (isFinalizable_of_isActive hactive)
      ((ready_iff_of_isFinalizing hc hn h hfin).mpr hres) hheader

theorem recoveryRun_fails (header : ShaHeader D) (hres : ¬ Resumable F cfg w) :
    Alone cfg t lo hi (fun r _ => ¬ succeeded r) (recoveryRun cfg sha256 header puts) w := by
  rcases isOpen_or_isFinalizing hactive with hopen | hfin
  · by_cases hs : Staged w
    · have hw : Storing F cfg sha256 hi w := ⟨h, hopen, hidle, hs, hfresh⟩
      refine recoveryRun_storing hF httl puts hcov.rePut hw fun w' hw' href => ?_
      refine finalize_fails hF hw'.faithful (hw'.idle _) ?_
        (fun hready => hres ((href.ready_iff hc hn hcov hw hw').mp hready)) header
      have := hw'.isOpen
      revert this
      cases w'.row.status <;> decide
    · exact recoveryRun_unstaged hF puts hcov.rePut h hidle hopen hfresh hs
  · refine recoveryRun_rejected (.inr hfin) puts ?_
    exact finalize_fails hF h (hidle _) (isFinalizable_of_isActive hactive)
      (fun hready => hres ((ready_iff_of_isFinalizing hc hn h hfin).mp hready)) header

end Idle

/-! ### One way to send every chunk again -/

/-- The client's `PUT` of chunk `i`. -/
def resend (F : Bytes) (cfg : Session D) (i : ℕ) : ChunkPut D where
  chunkIndex := i
  blocks := [slice F cfg.chunkSizeBytes i]
  streamEnd := .eof
  contentLength := none
  contentLengthIsPayload := true
  chunkSha256 := .absent
  expectedMode := cfg.uploadMode

def resendAll (F : Bytes) (cfg : Session D) : List (ChunkPut D) :=
  ((List.range F.length).filter fun i => i * cfg.chunkSizeBytes < F.length).map (resend F cfg)

theorem sliceChunk_eq {F : Bytes} {c i : ℕ} (h : i * c < F.length) :
    sliceChunk F i c = .ok (slice F c i) := by
  have hrange : sliceRange F.length i c = .ok (i * c, min F.length (i * c + c)) :=
    sliceRange_ok_iff.mpr ⟨by omega, by simpa using h, by simp⟩
  have htake : (F.drop (i * c)).take (min F.length (i * c + c) - i * c) = slice F c i := by
    rw [slice, List.take_eq_take_iff, List.length_drop]
    omega
  simp only [sliceChunk, hrange, htake]
  rw [if_neg]
  rw [not_not, slice_length]
  omega

omit [DecidableEq D] in
theorem covers_resendAll (hc : 0 < cfg.chunkSizeBytes) : Covers F cfg sha256 (resendAll F cfg) := by
  refine ⟨?_, ?_⟩
  · intro put hput
    simp only [resendAll, List.mem_map, List.mem_filter, decide_eq_true_eq] at hput
    obtain ⟨i, ⟨-, hlt⟩, rfl⟩ := hput
    refine ⟨?_, rfl, ?_, .inl rfl, rfl⟩
    · simpa [resend] using sliceChunk_eq hlt
    · intro n hn
      cases hn
  · intro i hlt
    refine ⟨resend F cfg i, List.mem_map.mpr ⟨i, List.mem_filter.mpr ⟨?_, ?_⟩, rfl⟩, rfl⟩
    · exact List.mem_range.mpr (lt_of_le_of_lt (Nat.le_mul_of_pos_right i hc) hlt)
    · exact decide_eq_true hlt

omit [DecidableEq D] in
theorem staged_crashed : Staged (crashed w) ↔ Staged w :=
  ⟨fun h => ⟨h.root, h.dir, h.files⟩, fun h => ⟨h.root, h.dir, h.files⟩⟩

omit [DecidableEq D] in
theorem resumable_crashed : Resumable F cfg (crashed w) ↔ Resumable F cfg w :=
  ⟨fun h => ⟨h.exact, staged_crashed.mp h.staged, h.unmarked, h.complete⟩,
    fun h => ⟨h.exact, staged_crashed.mpr h.staged, h.unmarked, h.complete⟩⟩

/-- An active session recovers from a crash exactly if it is resumable. -/
theorem recovers_iff (hF : cfg.expectedBytes = F.length) (hc : 0 < cfg.chunkSizeBytes)
    (hn : 0 < cfg.totalChunks) (hlo : lo ≤ hi) (httl : hi ≤ lo + cfg.ttlSeconds)
    (h : Faithful F cfg sha256 w) (hactive : w.row.status.isActive = true)
    (hfresh : Fresh hi w) : Recovers F cfg sha256 t lo hi w ↔ Resumable F cfg w := by
  constructor
  · intro hrec
    by_contra hres
    have hfails := recoveryRun_fails (t := t) (w := crashed w) hF hc hn httl (h.withLocks _) hactive
      (fun _ => rfl) hfresh (covers_resendAll hc) .blank
      (fun hr => hres (resumable_crashed.mp hr))
    obtain ⟨r, w', hr, hr'⟩ := Prog.exists_of_wp _ _ _
      (show Calm lo hi ⟨lo, true, none⟩ from ⟨rfl, rfl, le_rfl, hlo⟩) _ _
      (hrec (resendAll F cfg) .blank (covers_resendAll hc) (.inl rfl)) hfails
    exact hr' hr.1
  · intro hres puts header hcov hheader
    exact recoveryRun_succeeds (w := crashed w) hF hc hn httl (h.withLocks _) hactive (fun _ => rfl) hfresh hcov
      hheader (resumable_crashed.mpr hres)

end Run

/-! ### Every crash -/

section Crash

variable (sha256 : Bytes → D) (F : Bytes) (c : ℕ) (sha : Option D) (mode : UploadMode)
  (ttl now : ℕ)

/-- A state some run of an upload of `F` can crash in while the session is
active and does not expire before `hi`, the end of the recovery. -/
structure CrashPoint (lo hi : ℕ) (w : World D) : Prop where
  reached : ∃ conf : SessionConfig D, Config.Reach (machine (newSession F.length c sha mode ttl))
      (CarriesSlices F (newSession F.length c sha mode ttl) sha256)
      (Config.init (newWorld now ttl)) conf ∧ conf.state = w
  active : w.row.status.isActive = true
  window : lo ≤ hi
  ttl : hi ≤ lo + ttl
  fresh : Fresh hi w

/-- From every crash point the upload can be resumed. -/
def AlwaysResumable : Prop :=
  ∀ (t lo hi : ℕ) (w : World D), CrashPoint sha256 F c sha mode ttl now lo hi w →
    Recovers F (newSession F.length c sha mode ttl) sha256 t lo hi w

variable {sha256 F c sha mode ttl now}

theorem CrashPoint.recovers_iff {lo hi : ℕ} {w : World D}
    (h : CrashPoint sha256 F c sha mode ttl now lo hi w) (hc : 0 < c) (t : ℕ) :
    Recovers F (newSession F.length c sha mode ttl) sha256 t lo hi w ↔
      Resumable F (newSession F.length c sha mode ttl) w := by
  obtain ⟨conf, hreach, rfl⟩ := h.reached
  have hs := (Sound.init (faithful_newWorld F _ sha256 now ttl)).reach
    (assembly_compatible sha256 rfl) hreach
  exact Upload.recovers_iff rfl hc (lt_of_lt_of_le Nat.one_pos (le_max_left _ _)) h.window h.ttl
    hs.inv h.active h.fresh

end Crash

/-! ### Crashes of the small session -/

/-- The store of chunk 0 is killed after `n` operations. -/
def killedAfter (n : ℕ) : List (SessionAction ℕ) :=
  start (.store (putByte 0 97)) :: (List.replicate n (stepOf 0) ++ [.kill 0])

/-- The state it leaves behind. -/
def killedState (n : ℕ) : Option (World ℕ) :=
  ((Config.init (newWorld 0 300)).run (machine twoChunks) (killedAfter n)).map Config.state

theorem crashPoint_of_killedState {n : ℕ} {w : World ℕ} (h : killedState n = some w)
    (hactive : w.row.status.isActive = true) (hexp : w.row.expiresAt = some 300) :
    CrashPoint sampleDigest [97, 98] 1 none .resumable 300 0 0 300 w := by
  obtain ⟨conf, hrun, rfl⟩ := Option.map_eq_some_iff.mp h
  refine ⟨⟨conf, ?_, rfl⟩, hactive, by omega, by omega, ?_⟩
  · refine Config.Reach.of_run _ (killedAfter n) ?_ hrun
    intro a ha d
    simp only [killedAfter, List.mem_cons, List.mem_append, List.mem_replicate,
      List.not_mem_nil, or_false] at ha
    rcases ha with rfl | ⟨-, rfl⟩ | rfl
    · refine ⟨_, rfl, fun put hput => ?_⟩
      obtain rfl := Request.store.inj hput
      exact fun _ => by decide
    · trivial
    · trivial
  · intro x hx
    rw [hexp] at hx
    obtain rfl := Option.some.inj hx
    exact le_rfl

/-- Killed after it marked chunk 0: nothing is recorded. -/
theorem killedState_marked : (killedState 6).map (fun w =>
    (w.row.status.isActive, w.row.expiresAt, w.disk.sessionRoot, w.disk.chunksDir,
      decide (w.row.metadata.receivedChunks.keys = ∅), w.row.status.isFinalizing))
    = some (true, some 300, true, true, true, false) := by
  decide +kernel

/-- Killed after it recorded chunk 0: the mark is still there. -/
theorem killedState_recorded : (killedState 13).map (fun w =>
    (w.row.status.isActive, w.row.expiresAt, w.row.status.isOpen,
      (w.row.metadata.receivedChunks.lookup 0).isSome,
      decide (0 ∈ w.row.metadata.activeChunks)))
    = some (true, some 300, true, true, true) := by
  decide +kernel

/-! ### The result -/

/-- **An upload can be resumed after a crash** exactly from the states
`Resumable` describes. -/
theorem resumable_iff (sha256 : Bytes → D) {F : Bytes} {c : ℕ} (hc : 0 < c) (sha : Option D)
    (mode : UploadMode) (ttl now t lo hi : ℕ) {w : World D}
    (h : CrashPoint sha256 F c sha mode ttl now lo hi w) :
    Recovers F (newSession F.length c sha mode ttl) sha256 t lo hi w ↔
      Resumable F (newSession F.length c sha mode ttl) w :=
  h.recovers_iff hc t

/-- A call killed after it marked its chunk can be resumed. -/
theorem resumable_marked : ∃ w, killedState 6 = some w ∧
    Recovers [97, 98] twoChunks sampleDigest 0 0 300 w := by
  obtain ⟨w, hw, h⟩ := Option.map_eq_some_iff.mp killedState_marked
  simp only [Prod.mk.injEq, decide_eq_true_eq] at h
  obtain ⟨hactive, hexp, hroot, hdir, hempty, hfin⟩ := h
  have hnone : ∀ i, i ∉ w.row.metadata.receivedChunks := by
    intro i hi
    rw [← Finmap.mem_keys, hempty] at hi
    exact absurd hi (Finset.notMem_empty i)
  refine ⟨w, hw, (resumable_iff sampleDigest Nat.one_pos none .resumable 300 0 0 0 300
    (crashPoint_of_killedState hw hactive hexp)).mpr ⟨by decide +kernel, ⟨hroot, hdir, ?_⟩, ?_, ?_⟩⟩
  · exact fun i hi => absurd hi (hnone i)
  · exact fun _ i hi => absurd hi (hnone i)
  · intro h
    rw [hfin] at h
    cases h

/-- A call killed between the commit of its record and the commit that
clears its mark leaves an upload that cannot be finalized any more. -/
theorem crash_not_resumable : ¬ AlwaysResumable sampleDigest [97, 98] 1 none .resumable 300 0 := by
  intro h
  obtain ⟨w, hw, hstate⟩ := Option.map_eq_some_iff.mp killedState_recorded
  simp only [Prod.mk.injEq, decide_eq_true_eq] at hstate
  obtain ⟨hactive, hexp, hopen, hrec, hmark⟩ := hstate
  have hcrash := crashPoint_of_killedState hw hactive hexp
  have hres := (hcrash.recovers_iff Nat.one_pos 0).mp (h 0 0 300 w hcrash)
  exact hres.unmarked hopen 0 (Finmap.lookup_isSome.mp hrec) hmark

end Kairon.Upload

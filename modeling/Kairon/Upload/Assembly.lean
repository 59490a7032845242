/-
Kairon/Upload/Assembly.lean

What the stored chunks, and finally the canonical file, have to do with the
client's file `F`.  Every `PUT` carries the client's slice of its index;
everything else (order, retries, overlap of requests, failures, killed
processes) is arbitrary.

`Faithful F` is the invariant: a chunk file is the slice of its index, a
chunk record describes that slice, the canonical file, the session's
`sha256` and the evidence row are those of `F`.  It is kept by every
operation of every process.  The canonical file is only touched under the
session's `finalize` lock; `Kept` says what its holder can count on between
its operations.
-/
import Kairon.Upload.Create

namespace Kairon.Upload

open Concur

variable {D : Type}

/-! ### Slices -/

/-- Bytes `i * c` up to `(i + 1) * c` of a file. -/
def slice (F : Bytes) (c i : ℕ) : Bytes := (F.drop (i * c)).take c

/-- The slices put together. -/
theorem flatten_slices (F : Bytes) (c n : ℕ) :
    ((List.range n).map (slice F c)).flatten = F.take (n * c) := by
  induction n with
  | zero => simp
  | succ n ih =>
    rw [List.range_succ, List.map_append, List.flatten_append, ih, Nat.succ_mul, List.take_add]
    simp [slice]

theorem slice_length (F : Bytes) (c i : ℕ) : (slice F c i).length = min c (F.length - i * c) := by
  simp [slice]

/-- What the client sends as chunk `i` is the slice. -/
theorem sliceChunk_ok {F b : Bytes} {i : ℤ} {c : ℕ} (h : sliceChunk F i c = .ok b) :
    b = slice F c i.toNat ∧ i.toNat * c < F.length := by
  unfold sliceChunk at h
  split at h
  · cases h
  · next start stop hrange =>
      obtain ⟨-, hlt, hr⟩ := sliceRange_ok_iff.mp hrange
      obtain ⟨rfl, rfl⟩ := Prod.mk.inj hr
      split_ifs at h
      obtain rfl := Except.ok.inj h
      refine ⟨?_, hlt⟩
      rw [slice, List.take_eq_take_iff, List.length_drop]
      omega

/-- The receive loop returns what it was sent. -/
theorem receiveBlocks_ok {limit : ℤ} {blocks : List Bytes} {acc content : Bytes}
    (h : receiveBlocks limit blocks acc = .ok content) : content = acc ++ blocks.flatten := by
  induction blocks generalizing acc with
  | nil =>
    obtain rfl := Except.ok.inj h
    simp
  | cons b bs ih =>
    unfold receiveBlocks at h
    split_ifs at h with hb hlong
    · rw [ih h, hb]
      simp
    · rw [ih h]
      simp

/-! ### The invariant -/

section Invariant

variable (F : Bytes) (cfg : Session D) (sha256 : Bytes → D)

/-- Every record describes the slice of its index, and only chunks of the
session are marked active. -/
structure ValidMetadata (m : SessionMetadata D) : Prop where
  record : ∀ i r, m.receivedChunks.lookup i = some r → i < cfg.totalChunks ∧
    i * cfg.chunkSizeBytes < F.length ∧
    r = ⟨(slice F cfg.chunkSizeBytes i).length, sha256 (slice F cfg.chunkSizeBytes i)⟩
  active : ∀ i ∈ m.activeChunks, i < cfg.totalChunks

/-- Everything stored for the session comes from `F`. -/
structure Faithful (w : World D) : Prop where
  chunk : ∀ i b, w.disk.chunks.lookup i = some b → i < cfg.totalChunks ∧
    b = slice F cfg.chunkSizeBytes i
  metadata : ValidMetadata F cfg sha256 w.row.metadata
  canonical : ∀ b, w.disk.canonical = some b → b = F
  sha : ∀ d, w.row.sha256 = some d → d = sha256 F
  evidence : ∀ ev, w.evidence = some ev → ev = ⟨some (sha256 F), F.length⟩
  completed : w.row.status = .completed →
    w.disk.canonical = some F ∧ w.row.sha256 = some (sha256 F) ∧ w.evidence.isSome

theorem faithful_newWorld (now ttl : ℕ) : Faithful F cfg sha256 (newWorld now ttl) := by
  refine ⟨?_, ?_, ?_, ?_, ?_, ?_⟩
  · intro i b h
    cases h
  · refine ⟨fun i r h => ?_, fun i h => ?_⟩
    · cases h
    · simp [newWorld] at h
  · intro b h
    cases h
  · intro d h
    cases h
  · intro ev h
    cases h
  · intro h
    cases h

/-- What the holder of the `finalize` lock can count on. -/
structure Kept (w w' : World D) : Prop where
  canonical : w'.disk.canonical = w.disk.canonical
  evidence : w'.evidence = w.evidence
  status : w.row.status ≠ .completed → w'.row.status ≠ .completed
  sha : ∀ d, w.row.sha256 = some d → w'.row.sha256 = some d

def assemblyRely (t : ℕ) (_ : Op D) (w w' : World D) : Prop :=
  w.locks .finalize = some t → w'.locks .finalize = some t ∧ Kept w w'

theorem assemblyRely_refl (t : ℕ) (o : Op D) (w : World D) : assemblyRely t o w w :=
  fun h => ⟨h, ⟨rfl, rfl, fun h => h, fun _ h => h⟩⟩

/-- A step takes nothing away from the holder of the `finalize` lock. -/
def assemblyGuar (t : ℕ) (_ : Op D) (w w' : World D) : Prop :=
  ∀ u, u ≠ t → w.locks .finalize = some u → w'.locks .finalize = some u ∧ Kept w w'

/-- A commit that does not complete the session and writes what `F` allows. -/
structure Patch.Honest (p : Patch D) : Prop where
  status : p.status ≠ some .completed
  sha : ∀ x, p.sha256 = some x → x = some (sha256 F)
  metadata : ∀ m, p.metadata = some m → ValidMetadata F cfg sha256 m

/-- Operations any process may execute at any time; the canonical file and
the evidence row are not touched by them. -/
def Op.Plain : Op D → Prop
  | .commit _ p => p.Honest F cfg sha256
  | .replaceTemp i content => i < cfg.totalChunks ∧ content = slice F cfg.chunkSizeBytes i
  | .removeFinalRoot => False
  | .promote _ => False
  | .insertEvidence _ => False
  | _ => True

variable {F cfg sha256}

theorem Kept.refl (w : World D) : Kept w w := ⟨rfl, rfl, fun h => h, fun _ h => h⟩

theorem Kept.trans {w w' w'' : World D} (h : Kept w w') (h' : Kept w' w'') : Kept w w'' :=
  ⟨h'.canonical.trans h.canonical, h'.evidence.trans h.evidence,
    fun hs => h'.status (h.status hs), fun d hd => h'.sha d (h.sha d hd)⟩

/-- A step that changes neither the row, the chunk files, the canonical file
nor the evidence row. -/
theorem Faithful.frame {w w' : World D} (h : Faithful F cfg sha256 w) (hrow : w'.row = w.row)
    (hchunks : ∀ i b, w'.disk.chunks.lookup i = some b → w.disk.chunks.lookup i = some b ∨
      i < cfg.totalChunks ∧ b = slice F cfg.chunkSizeBytes i)
    (hcan : w'.disk.canonical = w.disk.canonical) (hev : w'.evidence = w.evidence) :
    Faithful F cfg sha256 w' ∧ Kept w w' := by
  refine ⟨⟨?_, ?_, ?_, ?_, ?_, ?_⟩, ⟨hcan, hev, ?_, ?_⟩⟩
  · intro i b hb
    rcases hchunks i b hb with hold | hnew
    · exact h.chunk i b hold
    · exact hnew
  · rw [hrow]
    exact h.metadata
  · rw [hcan]
    exact h.canonical
  · rw [hrow]
    exact h.sha
  · rw [hev]
    exact h.evidence
  · rw [hrow, hcan, hev]
    exact h.completed
  · rw [hrow]
    exact fun hs => hs
  · rw [hrow]
    exact fun _ hd => hd

/-- An honest commit. -/
theorem Faithful.commit {w : World D} (h : Faithful F cfg sha256 w) {p : Patch D}
    (hp : p.Honest F cfg sha256) (now ttl : ℕ) :
    Faithful F cfg sha256 { w with row := w.row.apply p now ttl } ∧
      Kept w { w with row := w.row.apply p now ttl } := by
  have hsha : ∀ d, w.row.sha256 = some d → (w.row.apply p now ttl).sha256 = some d := by
    intro d hd
    change p.sha256.getD w.row.sha256 = some d
    cases hx : p.sha256 with
    | none => exact hd
    | some x => rw [Option.getD_some, hp.sha x hx, h.sha d hd]
  have hstatus : (w.row.apply p now ttl).status = .completed → w.row.status = .completed := by
    intro hs
    change p.status.getD w.row.status = .completed at hs
    cases hx : p.status with
    | none =>
      rw [hx] at hs
      exact hs
    | some s =>
      rw [hx, Option.getD_some] at hs
      exact absurd (hx.trans (congrArg some hs)) hp.status
  refine ⟨⟨h.chunk, ?_, h.canonical, ?_, h.evidence, ?_⟩,
    ⟨rfl, rfl, fun hs hs' => hs (hstatus hs'), hsha⟩⟩
  · change ValidMetadata F cfg sha256 (p.metadata.getD w.row.metadata)
    cases hm : p.metadata with
    | none => exact h.metadata
    | some m => exact hp.metadata m hm
  · intro d hd
    change p.sha256.getD w.row.sha256 = some d at hd
    cases hx : p.sha256 with
    | none =>
      rw [hx] at hd
      exact h.sha d hd
    | some x =>
      rw [hx, Option.getD_some, hp.sha x hx] at hd
      exact (Option.some.inj hd).symm
  · intro hs
    obtain ⟨hcan, hd, hev⟩ := h.completed (hstatus hs)
    exact ⟨hcan, hsha _ hd, hev⟩

/-- A plain operation keeps the invariant and the canonical file. -/
theorem exec_plain (t : ℕ) {o : Op D} (ho : o.Plain F cfg sha256) (e : Env) {w : World D}
    (h : Faithful F cfg sha256 w) :
    Faithful F cfg sha256 (exec cfg t o e w).1 ∧ Kept w (exec cfg t o e w).1 := by
  have hsame : ∀ w' : World D, w'.row = w.row → w'.disk.chunks = w.disk.chunks →
      w'.disk.canonical = w.disk.canonical → w'.evidence = w.evidence →
      Faithful F cfg sha256 w' ∧ Kept w w' := by
    intro w' hrow hchunks hcan hev
    exact h.frame hrow (fun i b hb => .inl (hchunks ▸ hb)) hcan hev
  cases o with
  | commit place p => exact h.commit ho e.now cfg.ttlSeconds
  | replaceTemp i content =>
    simp only [exec]
    split_ifs
    · refine h.frame rfl (fun j b hb => ?_) rfl rfl
      by_cases hj : j = i
      · subst hj
        simp only [Finmap.lookup_insert, Option.some.injEq] at hb
        exact .inr ⟨ho.1, hb ▸ ho.2⟩
      · simp only [Finmap.lookup_insert_of_ne _ hj] at hb
        exact .inl hb
    · exact hsame _ rfl rfl rfl rfl
  | removeStaging place =>
    refine h.frame rfl (fun j b hb => ?_) rfl rfl
    cases hb
  | removeFinalRoot => exact ho.elim
  | promote content => exact ho.elim
  | insertEvidence ev => exact ho.elim
  | lock k | unlock k | openTemp | assemble n =>
    simp only [exec]
    split_ifs <;> exact hsame _ rfl rfl rfl rfl
  | _ => exact hsame _ rfl rfl rfl rfl

theorem plain_harmless {t : ℕ} {o : Op D} (ho : o.Plain F cfg sha256) :
    Harmless (machine cfg) (Faithful F cfg sha256) assemblyGuar t o := by
  intro w e h
  obtain ⟨hf, hk⟩ := exec_plain t ho e h
  exact ⟨hf, fun u hu hl => ⟨exec_locks_other cfg hu o e hl, hk⟩⟩

end Invariant

/-! ### Chunk stores -/

section Store

variable [DecidableEq D] (F : Bytes) (cfg : Session D) (sha256 : Bytes → D)

abbrev AssemblyOk {α : Type} (Q : Except UploadError α → World D → Prop) (t : ℕ)
    (p : Handler D α) (w : World D) : Prop :=
  p.Ok (machine cfg) (Faithful F cfg sha256) assemblyRely assemblyGuar Q t w

abbrev AssemblySafe {α : Type} (t : ℕ) (p : Handler D α) : Prop :=
  p.Safe (machine cfg) (Faithful F cfg sha256) assemblyRely assemblyGuar t

/-- A `PUT` whose stream is not cut off carries the client's slice of its
index. -/
def ChunkPut.Carries (put : ChunkPut D) : Prop :=
  put.streamEnd = .eof → sliceChunk F put.chunkIndex cfg.chunkSizeBytes = .ok put.blocks.flatten

variable {F cfg sha256}

/-- Writing a row back whose new values are allowed by `F`. -/
theorem honest_diff {item new : Row D} {touch : Bool}
    (hstatus : new.status = item.status ∨ new.status ≠ .completed)
    (hsha : new.sha256 = item.sha256 ∨ new.sha256 = some (sha256 F))
    (hmeta : ValidMetadata F cfg sha256 new.metadata) :
    (item.diff new touch).Honest F cfg sha256 := by
  refine ⟨?_, ?_, ?_⟩
  · intro h
    rcases hstatus with hsame | hother
    · simp [Row.diff, changed, hsame] at h
    · exact hother (changed_eq_some h).symm
  · intro x hx
    rcases hsha with hsame | hnew
    · simp [Row.diff, changed, hsame] at hx
    · rw [changed_eq_some hx, hnew]
  · intro m hm
    rw [changed_eq_some hm]
    exact hmeta

variable (F cfg) in
/-- Chunk `i` is one of the session's and one of the client's. -/
def InFile (i : ℕ) : Prop := i < cfg.totalChunks ∧ i * cfg.chunkSizeBytes < F.length

omit [DecidableEq D] in
theorem ValidMetadata.recorded {item : Row D} (h : ValidMetadata F cfg sha256 item.metadata)
    {i : ℕ} (hi : InFile F cfg i) (status : Option UploadStatus) :
    ValidMetadata F cfg sha256 (recordedRow item i (slice F cfg.chunkSizeBytes i).length
      (sha256 (slice F cfg.chunkSizeBytes i)) status).metadata := by
  refine ⟨fun j r hj => ?_, h.active⟩
  simp only [recordedRow] at hj
  by_cases hji : j = i
  · subst hji
    rw [Finmap.lookup_insert] at hj
    exact ⟨hi.1, hi.2, (Option.some.inj hj).symm⟩
  · rw [Finmap.lookup_insert_of_ne _ hji] at hj
    exact h.record j r hj

omit [DecidableEq D] in
theorem ValidMetadata.setActive {item : Row D} (h : ValidMetadata F cfg sha256 item.metadata)
    {i : ℕ} {b : Bool} (hi : b = true → i < cfg.totalChunks) :
    ValidMetadata F cfg sha256 (setActiveChunk item i b).metadata := by
  refine ⟨h.record, fun j hj => ?_⟩
  cases b with
  | false => exact h.active j (Finset.mem_of_mem_erase hj)
  | true =>
    rcases Finset.mem_insert.mp hj with rfl | hj
    · exact hi rfl
    · exact h.active j hj

omit [DecidableEq D] in
theorem withLock_assembly {α : Type} {t : ℕ} {k : LockKey} {body : Handler D α}
    (hbody : AssemblySafe F cfg sha256 t body) : AssemblySafe F cfg sha256 t (withLock k body) := by
  refine Prog.Safe.perform (plain_harmless trivial) fun _ _ _ => ?_
  split
  · exact hbody.followedBy (Prog.Safe.last (plain_harmless trivial))
  · exact Prog.Safe.raise _
  · exact Prog.Safe.raise _

/-- Recording a slice. -/
theorem recordChunkReceived_assembly (t : ℕ) {i : ℕ} (hi : InFile F cfg i)
    {status : Option UploadStatus} (hstatus : status = none ∨ status = some .uploading) :
    AssemblySafe F cfg sha256 t (recordChunkReceived i (slice F cfg.chunkSizeBytes i).length
      (sha256 (slice F cfg.chunkSizeBytes i)) status) := by
  refine withLock_assembly ?_
  refine Prog.Safe.perform (plain_harmless trivial) fun w _ hw => ?_
  have hhonest : (w.row.diff (recordedRow w.row i (slice F cfg.chunkSizeBytes i).length
      (sha256 (slice F cfg.chunkSizeBytes i)) status) true).Honest F cfg sha256 := by
    refine honest_diff ?_ (.inl rfl) (hw.metadata.recorded hi status)
    rcases hstatus with rfl | rfl
    · exact .inl rfl
    · exact .inr (by simp [recordedRow])
  refine Prog.Safe.perform (plain_harmless hhonest) fun _ _ _ => ?_
  exact Prog.Safe.last (plain_harmless trivial)

theorem clearActive_assembly (t i : ℕ) : AssemblySafe F cfg sha256 t (clearActive (D := D) i) := by
  refine Prog.Safe.perform (plain_harmless trivial) fun w _ hw => ?_
  have hhonest : (w.row.diff (setActiveChunk w.row i false) false).Honest F cfg sha256 :=
    honest_diff (.inl rfl) (.inl rfl) (hw.metadata.setActive fun h => nomatch h)
  refine Prog.Safe.perform (plain_harmless hhonest) fun _ _ _ => ?_
  exact Prog.Safe.last (plain_harmless trivial)

theorem compareExisting_assembly (t : ℕ) (item : Row D) {i : ℕ} (hi : InFile F cfg i) :
    AssemblySafe F cfg sha256 t
      (compareExisting sha256 item i (slice F cfg.chunkSizeBytes i)) := by
  unfold compareExisting
  split
  · refine Prog.Safe.perform (plain_harmless trivial) fun _ _ _ => ?_
    exact .ite (fun _ => Prog.Safe.pure _) (fun _ => Prog.Safe.raise _)
  · refine Prog.Safe.perform (plain_harmless trivial) fun w e _ => ?_
    split
    · exact Prog.Safe.perform (plain_harmless trivial) fun _ _ _ => Prog.Safe.raise _
    · refine Prog.Safe.perform (plain_harmless trivial) fun _ _ _ => ?_
      refine .ite (fun _ => Prog.Safe.raise _) fun _ => ?_
      refine .ite (fun _ => ?_) (fun _ => Prog.Safe.raise _)
      exact recordChunkReceived_assembly t hi (.inl rfl)

theorem renameAndRecord_assembly (t : ℕ) {i : ℕ} (hi : InFile F cfg i) : AssemblySafe F cfg sha256 t
      (renameAndRecord sha256 i (slice F cfg.chunkSizeBytes i)) := by
  refine Prog.Safe.perform (plain_harmless ⟨hi.1, rfl⟩) fun _ _ _ => ?_
  refine .ite (fun _ => recordChunkReceived_assembly t hi (.inr rfl)) fun _ => ?_
  refine Prog.Safe.perform (plain_harmless trivial) fun _ _ _ => ?_
  exact .ite (fun _ => Prog.Safe.raise _) (fun _ => Prog.Safe.raise _)

omit [DecidableEq D] in
theorem dropTemp_raise_assembly {α : Type} (t : ℕ) (e : UploadError) :
    AssemblySafe F cfg sha256 t (perform .dropTemp >>= fun _ => (.raise e : Handler D α)) :=
  Prog.Safe.perform (plain_harmless trivial) fun _ _ _ => Prog.Safe.raise _

variable {put : ChunkPut D}

/-- What gets past the receive loop and the checks is the slice. -/
theorem storeBody_assembly (t : ℕ) (item : Row D) (hput : put.Carries F cfg)
    (hi : put.chunkIndex.toNat < cfg.totalChunks) (len : ℤ) (declared : Option D) :
    AssemblySafe F cfg sha256 t
      (storeBody sha256 item put put.chunkIndex.toNat len declared) := by
  refine Prog.Safe.perform (plain_harmless trivial) fun _ _ _ => ?_
  refine Prog.Safe.perform (plain_harmless trivial) fun _ _ _ => ?_
  refine .ite (fun _ => Prog.Safe.raise _) fun _ => ?_
  split
  · exact dropTemp_raise_assembly t _
  · next content hcontent =>
      refine .ite (fun _ => Prog.Safe.raise _) fun hbroken => ?_
      refine .ite (fun _ => dropTemp_raise_assembly t _) fun _ => ?_
      refine .ite (fun _ => dropTemp_raise_assembly t _) fun _ => ?_
      have heof : put.streamEnd = .eof := by
        cases hs : put.streamEnd with
        | eof => rfl
        | broken => exact absurd hs hbroken
      obtain ⟨hslice, hfile⟩ := sliceChunk_ok (hput heof)
      obtain rfl : content = slice F cfg.chunkSizeBytes put.chunkIndex.toNat := by
        rw [receiveBlocks_ok hcontent, List.nil_append]
        exact hslice
      refine Prog.Safe.perform (plain_harmless trivial) fun _ _ _ => ?_
      refine .ite (fun _ => ?_) fun _ => ?_
      · exact compareExisting_assembly t item ⟨hi, hfile⟩
      · exact renameAndRecord_assembly t ⟨hi, hfile⟩

theorem alreadyStored_assembly (t : ℕ) (place : ReadPlace) (item : Row D) (i : ℕ) (len : ℤ)
    (declared : Option D) :
    AssemblySafe F cfg sha256 t (alreadyStored place item i len declared) := by
  unfold alreadyStored
  split
  · exact Prog.Safe.pure _
  · exact Prog.Safe.perform (plain_harmless trivial) fun _ _ _ => Prog.Safe.pure _

theorem storeLocked_assembly (t : ℕ) (hput : put.Carries F cfg)
    (hi : put.chunkIndex.toNat < cfg.totalChunks) (len : ℤ) (declared : Option D) :
    AssemblySafe F cfg sha256 t
      (storeLocked sha256 put put.chunkIndex.toNat len declared) := by
  refine Prog.Safe.perform (plain_harmless trivial) fun w _ hw => ?_
  refine .ite (fun _ => Prog.Safe.raise _) fun _ => ?_
  refine Prog.Safe.bind (alreadyStored_assembly t _ _ _ _ _) fun b => ?_
  refine .ite (fun _ => Prog.Safe.pure _) fun _ => ?_
  have hhonest : (w.row.diff (setActiveChunk w.row put.chunkIndex.toNat true)
      false).Honest F cfg sha256 :=
    honest_diff (.inl rfl) (.inl rfl) (hw.metadata.setActive fun _ => hi)
  refine Prog.Safe.perform (plain_harmless hhonest) fun _ _ _ => ?_
  exact (storeBody_assembly t w.row hput hi len declared).followedBy (clearActive_assembly t _)

theorem store_assembly (t : ℕ) (hput : put.Carries F cfg) :
    AssemblySafe F cfg sha256 t (storeMemoryUploadChunkStream cfg sha256 put) := by
  refine Prog.Safe.perform (plain_harmless trivial) fun w _ hw => ?_
  refine .ite (fun _ => Prog.Safe.raise _) fun _ => ?_
  refine .ite (fun _ => Prog.Safe.raise _) fun _ => ?_
  refine .ite (fun _ => Prog.Safe.raise _) fun _ => ?_
  refine .ite (fun _ => Prog.Safe.raise _) fun hrange => ?_
  have hi : put.chunkIndex.toNat < cfg.totalChunks := by omega
  refine Prog.Safe.perform (plain_harmless trivial) fun _ _ _ => ?_
  refine .ite (fun _ => ?_) fun _ => ?_
  · have hhonest : (w.row.diff (expiredRow w.row) false).Honest F cfg sha256 :=
      honest_diff (.inr (by simp [expiredRow])) (.inl rfl) hw.metadata
    exact Prog.Safe.perform (plain_harmless hhonest) fun _ _ _ => Prog.Safe.raise _
  · refine Prog.Safe.perform (plain_harmless trivial) fun _ _ _ => ?_
    refine .ite (fun _ => ?_) fun _ => ?_
    · exact Prog.Safe.perform (plain_harmless (honest_diff (.inr (by simp [unusableRow]))
        (.inl rfl) hw.metadata)) fun _ _ _ => Prog.Safe.raise _
    · refine .ite (fun _ => Prog.Safe.raise _) fun _ => ?_
      split
      · exact Prog.Safe.raise _
      · refine Prog.Safe.bind (alreadyStored_assembly t _ _ _ _ _) fun b => ?_
        refine .ite (fun _ => Prog.Safe.pure _) fun _ => ?_
        exact withLock_assembly (storeLocked_assembly t hput hi _ _)

end Store

end Kairon.Upload

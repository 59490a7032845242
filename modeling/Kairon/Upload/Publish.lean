/-
Kairon/Upload/Publish.lean

The finalization of a session, and with it the whole way of a file from the
client's slices to the canonical evidence file.

The finalizing process holds the session's `finalize` lock.  `OwnedSafe w₀`
walks over its program while it does: whatever the other processes do, the
canonical file, the evidence row and the hash stay as in the snapshot `w₀`
until the process itself changes them.

`faithful_upload_iff` puts the pieces together: the server's byte ranges
partition the file and agree with the client's slices, and every successful
finalization publishes exactly `F`, if and only if the number of chunks
computed through a binary64 is the exact one.
-/
import Mathlib.Data.Int.ConditionallyCompleteOrder
import Kairon.Upload.Assembly

namespace Kairon.Upload

open Concur

variable {D : Type} [DecidableEq D]

/-! ### Holding the lock -/

section Owned

variable (F : Bytes) (cfg : Session D) (sha256 : Bytes → D)

/-- Safe while the `finalize` lock is held and nothing else has changed what
it protects since `w₀`. -/
def OwnedSafe {α : Type} (w₀ : World D) (Q : Except UploadError α → World D → Prop) (t : ℕ)
    (p : Handler D α) : Prop :=
  ∀ w, w.locks .finalize = some t → Kept w₀ w → AssemblyOk F cfg sha256 Q t p w

variable {F cfg sha256} {α β : Type} {t : ℕ} {w₀ : World D}
variable {Q : Except UploadError β → World D → Prop}

omit [DecidableEq D] in
theorem OwnedSafe.plain {o : Op D} {f : Resp o → Handler D β} (ho : o.Plain F cfg sha256)
    (hne : o ≠ .unlock .finalize)
    (hf : ∀ w₁ e, Faithful F cfg sha256 w₁ → Kept w₀ w₁ → Kept w₀ (exec cfg t o e w₁).1 →
      OwnedSafe F cfg sha256 (exec cfg t o e w₁).1 Q t (f (exec cfg t o e w₁).2)) :
    OwnedSafe F cfg sha256 w₀ Q t (perform o >>= f) := by
  intro w hl hk w' hinv hr e
  obtain ⟨hl', hk'⟩ := hr hl
  obtain ⟨hinv', hguar⟩ := plain_harmless (t := t) ho w' e hinv
  have hkept := hk.trans hk'
  have hkept' := hkept.trans (exec_plain t ho e hinv).2
  refine ⟨hinv', hguar, ?_⟩
  exact hf w' e hinv hkept hkept' _ (exec_locks_self cfg hne e hl') (Kept.refl _)

omit [DecidableEq D] in
/-- An operation on what the lock protects. -/
theorem OwnedSafe.publish {o : Op D} {f : Resp o → Handler D β} (hne : o ≠ .unlock .finalize)
    (hf : ∀ w₁ e, Faithful F cfg sha256 w₁ → Kept w₀ w₁ →
      Faithful F cfg sha256 (exec cfg t o e w₁).1 ∧
      OwnedSafe F cfg sha256 (exec cfg t o e w₁).1 Q t (f (exec cfg t o e w₁).2)) :
    OwnedSafe F cfg sha256 w₀ Q t (perform o >>= f) := by
  intro w hl hk w' hinv hr e
  obtain ⟨hl', hk'⟩ := hr hl
  obtain ⟨hinv', hrest⟩ := hf w' e hinv (hk.trans hk')
  refine ⟨hinv', ?_, hrest _ (exec_locks_self cfg hne e hl') (Kept.refl _)⟩
  intro u hu hlu
  rw [hl'] at hlu
  exact absurd (Option.some.inj hlu).symm hu

omit [DecidableEq D] in
theorem OwnedSafe.ite {c : Prop} [Decidable c] {p q : Handler D β}
    (hp : c → OwnedSafe F cfg sha256 w₀ Q t p) (hq : ¬c → OwnedSafe F cfg sha256 w₀ Q t q) :
    OwnedSafe F cfg sha256 w₀ Q t (if c then p else q) :=
  fun w hl hk => .ite (fun h => hp h w hl hk) (fun h => hq h w hl hk)

/-! ### Registration -/

/-- After a registration the canonical file and the evidence are those of
`F`, and the lock is still held. -/
def registered (F : Bytes) (sha256 : Bytes → D) (t : ℕ) :
    Except UploadError (EvidenceRow D) → World D → Prop
  | .ok ev, w => w.locks .finalize = some t ∧ w.disk.canonical = some F ∧
      w.row.sha256 = some (sha256 F) ∧ ev = ⟨some (sha256 F), F.length⟩
  | .error _, _ => True

omit [DecidableEq D] in
/-- The canonical file is there, with its hash, and the session is not yet
completed. -/
structure Promoted (F : Bytes) (sha256 : Bytes → D) (w : World D) : Prop where
  canonical : w.disk.canonical = some F
  sha : w.row.sha256 = some (sha256 F)
  status : w.row.status ≠ .completed

variable {w w' : World D}

omit [DecidableEq D] in
theorem Promoted.kept (h : Promoted F sha256 w) (hk : Kept w w') : Promoted F sha256 w' :=
  ⟨hk.canonical.trans h.canonical, hk.sha _ h.sha, hk.status h.status⟩

variable {w : World D}

omit [DecidableEq D] in
/-- Completing a session whose file is promoted and whose evidence row is
there. -/
theorem Faithful.complete (h : Faithful F cfg sha256 w) {p : Patch D}
    (hsha : p.sha256 = none) (hmeta : p.metadata = none) (hp : Promoted F sha256 w)
    (hev : w.evidence.isSome) (now ttl : ℕ) :
    Faithful F cfg sha256 { w with row := w.row.apply p now ttl } := by
  refine ⟨h.chunk, ?_, h.canonical, ?_, h.evidence, fun _ => ⟨hp.canonical, ?_, hev⟩⟩
  · change ValidMetadata F cfg sha256 (p.metadata.getD w.row.metadata)
    rw [hmeta]
    exact h.metadata
  · change ∀ d, p.sha256.getD w.row.sha256 = some d → d = sha256 F
    rw [hsha]
    exact h.sha
  · change p.sha256.getD w.row.sha256 = some (sha256 F)
    rw [hsha]
    exact hp.sha

variable {w₀ : World D}

omit [DecidableEq D] in
/-- The commit of `completed`, and the return of the evidence row. -/
theorem complete_owned {p : Patch D} {ev : EvidenceRow D}
    (hsha : p.sha256 = none) (hmeta : p.metadata = none) (hp : Promoted F sha256 w₀)
    (hev : w₀.evidence.isSome) (hrow : ev = ⟨some (sha256 F), F.length⟩) :
    OwnedSafe F cfg sha256 w₀ (registered F sha256 t) t
      (perform (.commit .completed p) >>= fun _ => pure ev) := by
  refine OwnedSafe.publish (by simp) fun w₁ e hw₁ hk => ?_
  have hp₁ := hp.kept hk
  refine ⟨hw₁.complete hsha hmeta hp₁ (by rw [hk.evidence]; exact hev) _ _, ?_⟩
  intro w hl hk₂
  refine ⟨hl, hk₂.canonical.trans hp₁.canonical, hk₂.sha _ ?_, hrow⟩
  change p.sha256.getD w₁.row.sha256 = some (sha256 F)
  rw [hsha]
  exact hp₁.sha

theorem registerExisting_owned (hp : Promoted F sha256 w₀) (item : Row D)
    (hitem : ValidMetadata F cfg sha256 item.metadata) {existing : EvidenceRow D}
    (hev : w₀.evidence = some existing) (hrow : existing = ⟨some (sha256 F), F.length⟩) :
    OwnedSafe F cfg sha256 w₀ (registered F sha256 t) t
      (registerExisting cfg item existing) := by
  refine OwnedSafe.plain trivial (by simp) fun w₁ e _ hk _ => ?_
  refine OwnedSafe.ite (fun _ => ?_) fun _ => ?_
  · refine complete_owned ?_ ?_ (hp.kept hk) ?_ hrow
    · simp [Row.diff, changed, completedRow]
    · simp [Row.diff, changed, completedRow]
    · change w₁.evidence.isSome
      rw [hk.evidence, hev]
      rfl
  · refine OwnedSafe.plain (honest_diff (.inr (by simp)) (.inl rfl) hitem)
      (by simp) fun _ _ _ _ _ => ?_
    exact fun _ _ _ => trivial

omit [DecidableEq D] in
/-- The outcomes of the critical insert. -/
theorem exec_insertEvidence (cfg : Session D) (t : ℕ) (ev : EvidenceRow D) (e : Env) (w : World D) :
    exec cfg t (.insertEvidence ev) e w = (w, .integrityError) ∨
    exec cfg t (.insertEvidence ev) e w = ({ w with evidence := some ev }, .inserted) ∨
    exec cfg t (.insertEvidence ev) e w = (w, .failed) := by
  simp only [exec]
  split_ifs
  · exact .inl rfl
  · exact .inr (.inl rfl)
  · exact .inr (.inr rfl)

omit [DecidableEq D] in
/-- Evidence of `F` may be inserted. -/
theorem Faithful.insertEvidence (h : Faithful F cfg sha256 w) :
    Faithful F cfg sha256 { w with evidence := some ⟨some (sha256 F), F.length⟩ } := by
  refine ⟨h.chunk, h.metadata, h.canonical, h.sha, ?_, ?_⟩
  · intro ev hev
    exact (Option.some.inj hev).symm
  · intro hs
    exact ⟨(h.completed hs).1, (h.completed hs).2.1, rfl⟩

omit [DecidableEq D] in
/-- A failed registration. -/
theorem registerFailed_owned {p : Patch D} {e : UploadError} (hp : p.Honest F cfg sha256) :
    OwnedSafe F cfg sha256 w₀ (registered F sha256 t) t
      (perform (.commit .registerFailed p) >>= fun _ => .raise e) :=
  OwnedSafe.plain hp (by simp) fun _ _ _ _ _ => fun _ _ _ => trivial

theorem insertEvidenceRow_owned (hp : Promoted F sha256 w₀) :
    OwnedSafe F cfg sha256 w₀ (registered F sha256 t) t
      (insertEvidenceRow ⟨some (sha256 F), F.length⟩) := by
  refine OwnedSafe.publish (by simp) fun w₂ e₂ hw₂ hk₂ => ?_
  have hp₂ : Promoted F sha256 w₂ := hp.kept hk₂
  rcases exec_insertEvidence cfg t ⟨some (sha256 F), F.length⟩ e₂ w₂ with
    hexec | hexec | hexec <;> rw [hexec]
  · -- a parallel retry won the race
    refine ⟨hw₂, ?_⟩
    refine OwnedSafe.plain trivial (by simp) fun w₃ e₃ hw₃ hk₃ _ => ?_
    refine OwnedSafe.plain trivial (by simp) fun w₄ e₄ hw₄ hk₄ _ => ?_
    have hp₄ : Promoted F sha256 w₄ := (hp₂.kept hk₃).kept hk₄
    change OwnedSafe F cfg sha256 w₄ _ t (match w₄.evidence with | some _ => _ | none => _)
    cases hev : w₄.evidence with
    | some existing =>
      refine complete_owned ?_ ?_ hp₄ (by rw [hev]; rfl) (hw₄.evidence existing hev)
      · simp [Row.diff, changed]
      · simp [Row.diff, changed]
    | none =>
      refine registerFailed_owned (honest_diff (.inr ?_) (.inl rfl) hw₃.metadata)
      simp [registrationFailedRow]
  · refine ⟨hw₂.insertEvidence, ?_⟩
    exact complete_owned rfl rfl ⟨hp₂.canonical, hp₂.sha, hp₂.status⟩ rfl rfl
  · refine ⟨hw₂, registerFailed_owned ⟨?_, ?_, ?_⟩⟩
    · intro h
      cases h
    · intro x h
      cases h
    · intro m h
      cases h

theorem insertAndComplete_owned (hF : cfg.expectedBytes = F.length) (hp : Promoted F sha256 w₀) :
    OwnedSafe F cfg sha256 w₀ (registered F sha256 t) t (insertAndComplete cfg) := by
  refine OwnedSafe.plain trivial (by simp) fun w₁ e _ hk _ => ?_
  have hp₁ : Promoted F sha256 w₁ := hp.kept hk
  change OwnedSafe F cfg sha256 w₁ _ t (insertEvidenceRow ⟨w₁.row.sha256, cfg.expectedBytes⟩)
  rw [hp₁.sha, hF]
  exact insertEvidenceRow_owned hp₁

theorem registerMemoryEvidence_owned (hF : cfg.expectedBytes = F.length)
    (hp : Promoted F sha256 w₀) :
    OwnedSafe F cfg sha256 w₀ (registered F sha256 t) t (registerMemoryEvidence cfg sha256) := by
  refine OwnedSafe.plain trivial (by simp) fun w₁ _ hw₁ hk₁ _ => ?_
  refine OwnedSafe.plain trivial (by simp) fun w₂ _ hw₂ hk₂ _ => ?_
  have hp₂ : Promoted F sha256 w₂ := (hp.kept hk₁).kept hk₂
  change OwnedSafe F cfg sha256 w₂ _ t (match w₂.evidence with | some _ => _ | none => _)
  cases hev : w₂.evidence with
  | some existing =>
    exact registerExisting_owned hp₂ w₁.row hw₁.metadata hev (hw₂.evidence existing hev)
  | none =>
    refine OwnedSafe.ite (fun _ _ _ _ => trivial) fun _ => ?_
    split
    · exact fun _ _ _ => trivial
    · refine OwnedSafe.plain trivial (by simp) fun w₃ _ _ hk₃ _ => ?_
      have hp₃ : Promoted F sha256 w₃ := hp₂.kept hk₃
      split
      · exact fun _ _ _ => trivial
      · refine OwnedSafe.ite (fun _ _ _ _ => trivial) fun _ => ?_
        refine OwnedSafe.ite (fun _ _ _ _ => trivial) fun _ => ?_
        refine OwnedSafe.plain trivial (by simp) fun w₄ _ _ hk₄ _ => ?_
        split
        · refine OwnedSafe.plain (honest_diff (.inr ?_) (.inl rfl) hw₁.metadata)
            (by simp) fun _ _ _ _ _ => fun _ _ _ => trivial
          simp [registrationFailedRow]
        · refine OwnedSafe.plain (honest_diff (.inl rfl) (.inl rfl) hw₁.metadata)
            (by simp) fun w₅ _ _ _ hk₅ => ?_
          exact insertAndComplete_owned hF ((hp₃.kept hk₄).kept hk₅)

/-! ### Assembling and promoting -/

omit [DecidableEq D] in
theorem mapM_eq_map {α β : Type} {f : α → Option β} {g : α → β}
    (hf : ∀ a b, f a = some b → b = g a) (l : List α) {parts : List β}
    (h : l.mapM f = some parts) : parts = l.map g := by
  induction l generalizing parts with
  | nil =>
    obtain rfl := Option.some.inj h
    rfl
  | cons a l ih =>
    rw [List.mapM_cons] at h
    obtain ⟨b, hb, h⟩ := Option.bind_eq_some_iff.mp h
    obtain ⟨rest, hrest, h⟩ := Option.bind_eq_some_iff.mp h
    obtain rfl := Option.some.inj h
    rw [List.map_cons, hf a b hb, ih hrest]

omit [DecidableEq D] in
/-- Chunk files `0 .. n-1`, put together. -/
theorem Faithful.concatChunks (h : Faithful F cfg sha256 w) {n : ℕ}
    {content : Bytes} (hc : w.disk.concatChunks n = some content) :
    content = F.take (n * cfg.chunkSizeBytes) := by
  obtain ⟨parts, hparts, rfl⟩ := Option.map_eq_some_iff.mp hc
  rw [mapM_eq_map (fun i b hb => (h.chunk i b hb).2) _ hparts, flatten_slices]

/-- The duplicate path drops the canonical file of a session that is not
completed. -/
theorem onDuplicate_owned {α : Type} {Q : Except UploadError α → World D → Prop}
    (hQ : ∀ e w, Q (.error e) w) (hs : w₀.row.status ≠ .completed)
    {item : Row D} (hitem : ValidMetadata F cfg sha256 item.metadata)
    (ref : DuplicateRef) :
    OwnedSafe F cfg sha256 w₀ Q t (onDuplicate item (sha256 F) ref) := by
  refine OwnedSafe.plain trivial (by simp) fun w₁ e₁ _ _ hk₁ => ?_
  refine OwnedSafe.publish (by simp) fun w₂ _ hw₂ hk₂ => ?_
  have hs₂ : w₂.row.status ≠ .completed := hk₂.status (hk₁.status hs)
  refine ⟨⟨hw₂.chunk, hw₂.metadata, ?_, hw₂.sha, hw₂.evidence, fun h => absurd h hs₂⟩, ?_⟩
  · intro b hb
    cases hb
  · refine OwnedSafe.plain (honest_diff (.inr (by simp)) (.inr rfl)
      ⟨hitem.record, hitem.active⟩) (by simp) fun _ _ _ _ _ => fun _ _ _ => hQ _ _

omit [DecidableEq D] in
/-- What promoting the assembled file can do. -/
theorem exec_promote (cfg : Session D) (t : ℕ) (content : Bytes) (e : Env) (w : World D) :
    exec cfg t (.promote content) e w = (w, false) ∨
    exec cfg t (.promote content) e w = ({ w with disk := { w.disk with
      assemblies := w.disk.assemblies.erase t, canonical := some content } }, true) := by
  simp only [exec]
  split_ifs
  · exact .inr rfl
  · exact .inl rfl

/-- The hash is committed with the status `finalizing`. -/
theorem finalizing_sha (hk : Kept w w')
    (new : Row D) (hnew : new.sha256 = some (sha256 F)) (touch : Bool) (now ttl : ℕ) :
    (w'.row.apply (w.row.diff new touch) now ttl).sha256 = some (sha256 F) := by
  change (changed w.row.sha256 new.sha256).getD w'.row.sha256 = some (sha256 F)
  cases hc : changed w.row.sha256 new.sha256 with
  | some x => rw [Option.getD_some, changed_eq_some hc, hnew]
  | none =>
    have hsame := changed_getD w.row.sha256 new.sha256
    rw [hc, Option.getD_none, hnew] at hsame
    exact hk.sha _ hsame

theorem promoteAndRegister_owned (hF : cfg.expectedBytes = F.length)
    (hw₀ : Faithful F cfg sha256 w₀) (hs : w₀.row.status ≠ .completed) :
    OwnedSafe F cfg sha256 w₀ (registered F sha256 t) t
      (promoteAndRegister cfg sha256 w₀.row F) := by
  refine OwnedSafe.plain (honest_diff (.inr (by simp)) (.inr rfl) hw₀.metadata)
    (by simp) fun w₁ e₁ _ hk₁ hk₁' => ?_
  have hsha := finalizing_sha hk₁ { w₀.row with
    sha256 := some (sha256 F), status := .finalizing, bytesReceived := F.length
    receivedChunkCount := cfg.totalChunks } rfl true e₁.now cfg.ttlSeconds
  refine OwnedSafe.publish (by simp) fun w₂ e₂ hw₂ hk₂ => ?_
  have hs₂ : w₂.row.status ≠ .completed := hk₂.status (hk₁'.status hs)
  have hsha₂ : w₂.row.sha256 = some (sha256 F) := hk₂.sha _ hsha
  rcases exec_promote cfg t F e₂ w₂ with hexec | hexec <;> rw [hexec]
  · exact ⟨hw₂, fun _ _ _ => trivial⟩
  · refine ⟨⟨hw₂.chunk, hw₂.metadata, ?_, hw₂.sha, hw₂.evidence, fun h => absurd h hs₂⟩, ?_⟩
    · intro b hb
      exact (Option.some.inj hb).symm
    · refine OwnedSafe.plain trivial (by simp) fun w₃ e₃ _ hk₃ _ => ?_
      refine OwnedSafe.ite (fun _ _ _ _ => trivial) fun _ => ?_
      have hp₃ : Promoted F sha256 w₃ := 
        ⟨hk₃.canonical, hk₃.sha _ hsha₂, hk₃.status hs₂⟩
      intro w hl hk
      refine (Prog.walk_bind _ _ _ _).mpr ?_
      refine (registerMemoryEvidence_owned hF hp₃ w hl hk).mono ?_
      rintro (e | ev) w' hpost
      · trivial
      · obtain ⟨hl', hcan, hsha', hev⟩ := hpost
        have hrest : OwnedSafe F cfg sha256 w' (registered F sha256 t) t
            (perform (.removeStaging .registered) >>= fun _ => pure ev) := by
          refine OwnedSafe.plain trivial (by simp) fun w₅ e₅ _ _ hk₅ => ?_
          exact fun w₆ hl₆ hk₆ => ⟨hl₆, (hk₆.canonical.trans hk₅.canonical).trans hcan,
            hk₆.sha _ (hk₅.sha _ hsha'), hev⟩
        exact hrest w' hl' (Kept.refl w')

theorem runChunkedFinalize_owned (hF : cfg.expectedBytes = F.length)
    (hs : w₀.row.status ≠ .completed) {item : Row D}
    (hitem : ValidMetadata F cfg sha256 item.metadata) (expectedSha : Option D) :
    OwnedSafe F cfg sha256 w₀ (registered F sha256 t) t
      (runChunkedFinalize cfg sha256 item expectedSha) := by
  refine OwnedSafe.plain (honest_diff (.inr (by simp)) (.inl rfl) hitem)
    (by simp) fun w₁ _ _ _ hk₁ => ?_
  refine OwnedSafe.plain trivial (by simp) fun w₂ e₂ hw₂ _ hk₂ => ?_
  split
  · exact fun _ _ _ => trivial
  · next content hcontent =>
      refine OwnedSafe.ite (fun _ _ _ _ => trivial) fun hlen => ?_
      refine OwnedSafe.ite (fun _ _ _ _ => trivial) fun _ => ?_
      obtain rfl : content = F := by
        have htake : content = F.take (cfg.totalChunks * cfg.chunkSizeBytes) := by
          simp only [exec] at hcontent
          split_ifs at hcontent
          exact hw₂.concatChunks hcontent
        have hlen : content.length = F.length := (not_not.mp hlen).trans hF
        rw [htake, List.length_take] at hlen
        rw [htake, List.take_of_length_le (by omega)]
      refine OwnedSafe.plain trivial (by simp) fun w₃ _ hw₃ hk₃ _ => ?_
      have hs₃ : w₃.row.status ≠ .completed := hk₃.status (hk₂.status (hk₁.status hs))
      refine OwnedSafe.plain trivial (by simp) fun w₄ _ hw₄ hk₄ _ => ?_
      split
      · exact onDuplicate_owned (fun _ _ => trivial) (hk₄.status hs₃) hw₃.metadata _
      · intro w hl hk
        exact promoteAndRegister_owned hF hw₃ hs₃ w hl (hk₄.trans hk)

/-! ### Finalize -/

/-- What a successful finalization leaves behind: the canonical file is `F`
and every recorded hash is its hash. -/
def published (F : Bytes) (sha256 : Bytes → D) : Except UploadError (Outcome D) → World D → Prop
  | .ok (row, some ev), w => w.disk.canonical = some F ∧ w.row.sha256 = some (sha256 F) ∧
      row.sha256 = some (sha256 F) ∧ ev = ⟨some (sha256 F), F.length⟩
  | _, _ => True

omit [DecidableEq D] in
theorem published.kept {r : Except UploadError (Outcome D)}
    (h : published F sha256 r w) (hk : Kept w w') : published F sha256 r w' := by
  unfold published at h ⊢
  split
  · exact ⟨hk.canonical.trans h.1, hk.sha _ h.2.1, h.2.2.1, h.2.2.2⟩
  · trivial

/-- `published`, with the lock still held on success. -/
def publishedLocked (F : Bytes) (sha256 : Bytes → D) (t : ℕ)
    (r : Except UploadError (Outcome D)) (w : World D) : Prop :=
  published F sha256 r w ∧ ∀ row ev, r = .ok (row, some ev) → w.locks .finalize = some t

omit [DecidableEq D] in
theorem publishedLocked_of_error {e : UploadError} :
    publishedLocked F sha256 t (.error e) w := ⟨trivial, fun _ _ h => nomatch h⟩

omit [DecidableEq D] in
theorem publishedLocked_of_none {row : Row D} : publishedLocked F sha256 t (.ok (row, none)) w :=
  ⟨trivial, fun _ _ h => nomatch h⟩

omit [DecidableEq D] in
theorem finalizeFailed_assembly {α : Type} {Q : Except UploadError α → World D → Prop}
    (e : UploadError) (hQ : ∀ w, Q (.error e) w) (w : World D) :
    AssemblyOk F cfg sha256 Q t (finalizeFailed e) w := by
  unfold finalizeFailed
  split
  · exact hQ w
  · refine Prog.Ok.harmless (plain_harmless trivial) fun w₁ _ _ _ => ?_
    refine Prog.Ok.harmless (plain_harmless ⟨?_, ?_, ?_⟩) fun w₂ _ _ _ => hQ _
    · intro h
      cases h
    · intro x h
      cases h
    · intro m h
      cases h

theorem finalizeUnfinished_owned (hF : cfg.expectedBytes = F.length)
    (hs : w₀.row.status ≠ .completed) {item : Row D}
    (hitem : ValidMetadata F cfg sha256 item.metadata)
    (expectedSha : ShaHeader D) :
    OwnedSafe F cfg sha256 w₀ (publishedLocked F sha256 t) t
      (finalizeUnfinished cfg sha256 item expectedSha) := by
  refine OwnedSafe.plain trivial (by simp) fun w₁ _ _ hk₁ _ => ?_
  refine OwnedSafe.ite (fun _ => ?_) fun _ => ?_
  · refine OwnedSafe.plain (honest_diff (.inr (by simp)) (.inl rfl) hitem)
      (by simp) fun _ _ _ _ _ => fun _ _ _ => publishedLocked_of_error
  · split
    · exact fun _ _ _ => publishedLocked_of_error
    · refine OwnedSafe.ite (fun _ _ _ _ => publishedLocked_of_error) fun _ => ?_
      refine OwnedSafe.plain trivial (by simp) fun w₂ _ _ hk₂ _ => ?_
      refine OwnedSafe.ite (fun _ _ _ _ => publishedLocked_of_error) fun _ => ?_
      have hs₂ : w₂.row.status ≠ .completed := hk₂.status (hk₁.status hs)
      intro w hl hk
      refine (Prog.walk_bind _ _ _ _).mpr ((Prog.walk_handle _ _ _ _).mpr ?_)
      refine (runChunkedFinalize_owned hF hs₂ hitem _ w hl hk).mono ?_
      rintro (e | ev) w' hpost
      · change AssemblyOk F cfg sha256 (Prog.bindPost _ _ (publishedLocked F sha256 t)) t
          (finalizeFailed e) w'
        refine finalizeFailed_assembly e (fun _ => ?_) w'
        exact publishedLocked_of_error
      · obtain ⟨hl', hcan, hsha, hev⟩ := hpost
        have hrest : OwnedSafe F cfg sha256 w' (publishedLocked F sha256 t) t
            (perform (.read .finalized) >>= fun item => pure (item, some ev)) := by
          refine OwnedSafe.plain trivial (by simp) fun w₅ e₅ _ hk₅ _ => ?_
          intro w₆ hl₆ hk₆
          have hsha₅ : w₅.row.sha256 = some (sha256 F) := hk₅.sha _ hsha
          exact ⟨⟨(hk₆.canonical.trans hk₅.canonical).trans hcan, hk₆.sha _ hsha₅, hsha₅, hev⟩,
            fun _ _ _ => hl₆⟩
        exact hrest w' hl' (Kept.refl w')

/-- A finalize call keeps the invariant; if it succeeds, `F` is published. -/
theorem finalize_published (hF : cfg.expectedBytes = F.length) (t : ℕ)
    (expectedSha : ShaHeader D) (w : World D) :
    AssemblyOk F cfg sha256 (published F sha256) t
      (finalizeMemoryUploadSession cfg sha256 expectedSha) w := by
  refine withLock_ok (plain_harmless trivial) (fun _ => ⟨trivial, trivial⟩) ?_ w
  intro w₁ _ hl₁
  refine (Prog.walk_followedBy _ _ _ _).mpr ?_
  have hbody : OwnedSafe F cfg sha256 w₁ (publishedLocked F sha256 t) t (do
      let item ← perform (.read .finalizeEntry)
      if item.status = .completed then do
        let evidence ← perform .evidence
        pure (item, evidence)
      else if item.status ∈ [.cancelled, .expired, .inconsistent] then pure (item, none)
      else if item.metadata.activeChunks ≠ ∅ then
        .raise (.chunksActive item.metadata.activeChunks)
      else finalizeUnfinished cfg sha256 item expectedSha) := by
    refine OwnedSafe.plain trivial (by simp) fun w₂ _ hw₂ _ _ => ?_
    refine OwnedSafe.ite (fun hcompleted => ?_) fun hcompleted => ?_
    · obtain ⟨hcan, hsha, -⟩ := hw₂.completed hcompleted
      refine OwnedSafe.plain trivial (by simp) fun w₃ _ hw₃ hk₃ _ => ?_
      intro w₄ hl₄ hk₄
      change publishedLocked F sha256 t (.ok (w₂.row, w₃.evidence)) w₄
      cases hev : w₃.evidence with
      | none => exact publishedLocked_of_none
      | some ev =>
        refine ⟨⟨(hk₄.canonical.trans hk₃.canonical).trans hcan,
          hk₄.sha _ (hk₃.sha _ hsha), hsha, hw₃.evidence ev hev⟩, fun _ _ _ => hl₄⟩
    · refine OwnedSafe.ite (fun _ _ _ _ => publishedLocked_of_none) fun _ => ?_
      refine OwnedSafe.ite (fun _ _ _ _ => publishedLocked_of_error) fun _ => ?_
      exact finalizeUnfinished_owned hF hcompleted hw₂.metadata expectedSha
  refine (hbody w₁ hl₁ (Kept.refl w₁)).mono ?_
  -- releasing the lock changes nothing of what was published
  intro r w₂ hpost w₃ hw₃ hr e
  obtain ⟨hinv, hguar⟩ := plain_harmless (t := t) (o := .unlock .finalize) trivial w₃ e hw₃
  refine ⟨hinv, hguar, ?_⟩
  have hunlock := (exec_plain t (o := .unlock .finalize) trivial e hw₃).2
  cases r with
  | error e => trivial
  | ok out =>
    obtain ⟨row, ev⟩ := out
    cases ev with
    | none => trivial
    | some ev => exact (hpost.1.kept (hr (hpost.2 row ev rfl)).2).kept hunlock

end Owned

/-! ### Whole runs -/

section Runs

variable (F : Bytes) (cfg : Session D) (sha256 : Bytes → D)

/-- The requests of a client that uploads `F`: every `PUT` carries the
client's slice of its index. -/
def CarriesSlices (_ : SessionConfig D) : SessionAction D → Prop
  | .spawn p => ∃ r : Request D, p = r.handler cfg sha256 ∧
      ∀ put, r = .store put → put.Carries F cfg
  | _ => True

/-- Whenever a finalize call returns its evidence, the canonical file is `F`,
has the expected length, and every recorded hash is the hash of `F`. -/
def PublishesFile (w₀ : World D) : Prop :=
  ∀ (c c' : SessionConfig D) (t : ℕ) (e : Env) (row : Row D) (ev : EvidenceRow D),
    Config.Reach (machine cfg) (CarriesSlices F cfg sha256) (Config.init w₀) c →
    c.act (machine cfg) (.step t e) = some c' →
    c'.threads t = some (.ret (row, some ev)) →
    c'.state.disk.canonical = some F ∧ F.length = cfg.expectedBytes ∧
      c'.state.row.sha256 = some (sha256 F) ∧ row.sha256 = some (sha256 F) ∧
      ev = ⟨some (sha256 F), F.length⟩

variable {F cfg sha256}

theorem cancel_assembly (t : ℕ) (reason : Option String) :
    AssemblySafe F cfg sha256 t (cancelMemoryUploadSession (D := D) reason) := by
  refine Prog.Safe.perform (plain_harmless trivial) fun w _ hw => ?_
  refine .ite (fun _ => Prog.Safe.raise _) fun _ => ?_
  refine .ite (fun _ => Prog.Safe.pure _) fun _ => ?_
  refine Prog.Safe.perform (plain_harmless (honest_diff (.inr (by simp)) (.inl rfl)
    hw.metadata)) fun _ _ _ => ?_
  exact Prog.Safe.perform (plain_harmless trivial)
    fun _ _ _ => Prog.Safe.last (plain_harmless trivial)

theorem cleanupExpired_assembly (t : ℕ) (stale : Bool) :
    AssemblySafe F cfg sha256 t (cleanupExpiredSession (D := D) stale) := by
  refine Prog.Safe.perform (plain_harmless trivial) fun _ _ _ => ?_
  refine Prog.Safe.perform (plain_harmless trivial) fun w _ hw => ?_
  refine .ite (fun _ => ?_) fun _ => ?_
  · refine Prog.Safe.perform (plain_harmless (honest_diff (.inr (by simp)) (.inl rfl)
      hw.metadata)) fun _ _ _ => ?_
    exact Prog.Safe.perform (plain_harmless trivial) fun _ _ _ => Prog.Safe.pure _
  · refine Prog.Safe.perform (plain_harmless trivial) fun _ _ _ => ?_
    refine .ite (fun _ => ?_) fun _ => Prog.Safe.pure _
    exact Prog.Safe.perform (plain_harmless trivial) fun _ _ _ => Prog.Safe.pure _

omit [DecidableEq D] in
theorem cleanupStaging_assembly (t : ℕ) :
    AssemblySafe F cfg sha256 t (cleanupMemoryUploadStaging (D := D)) := by
  refine Prog.Safe.perform (plain_harmless trivial) fun _ _ _ => ?_
  refine .ite (fun _ => Prog.Safe.pure _) fun _ => ?_
  exact Prog.Safe.perform (plain_harmless trivial) fun _ _ _ => Prog.Safe.pure _

omit [DecidableEq D] in
/-- A request that returns no evidence. -/
theorem published_of_row {t : ℕ} {p : Handler D (Row D)} (hp : AssemblySafe F cfg sha256 t p)
    (w : World D) : AssemblyOk F cfg sha256 (published F sha256) t
      (p >>= fun row => pure (row, none)) w := by
  refine (Prog.walk_bind _ _ _ _).mpr ((hp w).mono ?_)
  intro r w' _
  cases r with
  | error e => trivial
  | ok row => trivial

theorem handler_published (hF : cfg.expectedBytes = F.length) (t : ℕ) (r : Request D)
    (hput : ∀ put, r = .store put → put.Carries F cfg) (w : World D) :
    AssemblyOk F cfg sha256 (published F sha256) t (r.handler cfg sha256) w := by
  cases r with
  | store put => exact published_of_row (store_assembly t (hput put rfl)) w
  | finalize expectedSha => exact finalize_published hF t expectedSha w
  | cancel reason => exact published_of_row (cancel_assembly t reason) w
  | cleanupExpired stale => exact published_of_row (cleanupExpired_assembly t stale) w
  | cleanupStaging => exact published_of_row (cleanupStaging_assembly t) w

theorem assembly_compatible (sha256 : Bytes → D) (hF : cfg.expectedBytes = F.length) :
    Compatible (machine cfg) (Faithful F cfg sha256) assemblyRely assemblyGuar
      (fun _ => published F sha256) (CarriesSlices F cfg sha256) where
  refl := assemblyRely_refl
  trans := by
    intro t o w w' w'' h h' hl
    obtain ⟨hl', hk⟩ := h hl
    obtain ⟨hl'', hk'⟩ := h' hl'
    exact ⟨hl'', hk.trans hk'⟩
  step := fun _ _ _ _ u _ _ _ htu _ _ _ hg hl => hg u (Ne.symm htu) hl
  reap_inv := fun _ _ h => ⟨h.chunk, h.metadata, h.canonical, h.sha, h.evidence, h.completed⟩
  reap := fun _ _ _ _ htu _ hl =>
    ⟨reap_locks_other (Ne.symm htu) hl, ⟨rfl, rfl, fun h => h, fun _ h => h⟩⟩
  spawn := by
    rintro c p ⟨r, rfl, hput⟩ _
    exact handler_published hF c.next r hput c.state

/-- Every run publishes nothing but `F`. -/
theorem publishesFile (hF : cfg.expectedBytes = F.length) {w₀ : World D}
    (hw₀ : Faithful F cfg sha256 w₀) : PublishesFile F cfg sha256 w₀ := by
  intro c c' t e row ev hreach hact hret
  have hc := assembly_compatible sha256 hF
  have hs : Sound (machine cfg) (Faithful F cfg sha256) assemblyRely assemblyGuar
      (fun _ => published F sha256) c := (Sound.init hw₀).reach hc hreach
  obtain ⟨o, k, ht, rfl⟩ := Config.act_step _ hact
  obtain ⟨-, -, hok⟩ := hs.guar hc ht e
  simp only [Function.update_self, Option.some.injEq] at hret
  rw [hret] at hok
  obtain ⟨hcan, hsha, hrow, hev⟩ := hok
  exact ⟨hcan, hF.symm, hsha, hrow, hev⟩

end Runs

/-! ### Byte ranges -/

section Ranges

omit [DecidableEq D]

/-- The bytes the server expects as chunk `i`. -/
def serverRange (cfg : Session D) (i : ℕ) : Set ℤ :=
  Set.Ico ((i : ℤ) * cfg.chunkSizeBytes) (i * cfg.chunkSizeBytes + expectedLength cfg i)

/-- The server's ranges cover `[0, expected_bytes)`, each byte once, and
nothing else. -/
def RangesPartition (cfg : Session D) : Prop :=
  (∀ b ∈ Set.Ico (0 : ℤ) cfg.expectedBytes, ∃! i, i < cfg.totalChunks ∧ b ∈ serverRange cfg i) ∧
  ∀ i < cfg.totalChunks, serverRange cfg i ⊆ Set.Ico 0 cfg.expectedBytes

/-- The server's ranges are those the client cuts out. -/
def RangesCoincide (fileSize : ℕ) (cfg : Session D) : Prop :=
  ∀ i < cfg.totalChunks, ∃ stop : ℕ,
    sliceRange fileSize i cfg.chunkSizeBytes = .ok (i * cfg.chunkSizeBytes, stop) ∧
    (stop : ℤ) = i * cfg.chunkSizeBytes + expectedLength cfg i

variable {cfg : Session D}

theorem mem_serverRange {i : ℕ} {b : ℤ} : b ∈ serverRange cfg i ↔ (i : ℤ) * cfg.chunkSizeBytes ≤ b ∧
      b < i * cfg.chunkSizeBytes + cfg.chunkSizeBytes ∧ b < cfg.expectedBytes := by
  simp only [serverRange, expectedLength, Set.mem_Ico]
  omega

/-- The last of `n` chunks begins inside the file and ends at or after its
end exactly when `n` is the exact ceiling. -/
theorem eq_ceilDiv_iff {e c n : ℕ} (hc : 0 < c) :
    n + 1 = e ⌈/⌉ c ↔ n * c < e ∧ e ≤ (n + 1) * c := by
  constructor
  · intro h
    have hle : e ≤ c * (n + 1) := (ceilDiv_le_iff_le_mul hc).mp h.ge
    have hlt : ¬ e ≤ c * n := fun hle' => by
      have := (ceilDiv_le_iff_le_mul hc).mpr hle'
      omega
    rw [Nat.mul_comm n c, Nat.mul_comm (n + 1) c]
    exact ⟨not_le.mp hlt, hle⟩
  · rintro ⟨hlt, hle⟩
    exact (Binary64.ceilDiv_unit hc hlt hle).symm

theorem rangesCoincide_iff {n : ℕ} (hn : cfg.totalChunks = n + 1) :
    RangesCoincide cfg.expectedBytes cfg ↔ n * cfg.chunkSizeBytes < cfg.expectedBytes := by
  constructor
  · intro h
    obtain ⟨stop, hslice, -⟩ := h n (by omega)
    obtain ⟨-, hlt, -⟩ := sliceRange_ok_iff.mp hslice
    simpa using hlt
  · intro h i hi
    have hmul : i * cfg.chunkSizeBytes ≤ n * cfg.chunkSizeBytes :=
      Nat.mul_le_mul_right _ (by omega)
    refine ⟨min cfg.expectedBytes (i * cfg.chunkSizeBytes + cfg.chunkSizeBytes), ?_, ?_⟩
    · refine sliceRange_ok_iff.mpr ⟨Int.natCast_nonneg i, ?_, rfl⟩
      simpa using lt_of_le_of_lt hmul h
    · rw [expectedLength]
      push_cast
      omega

/-- The byte `b` lies in the range of chunk `b / c` and in no other. -/
theorem mem_serverRange_iff_div (hc : 0 < cfg.chunkSizeBytes) {i b : ℕ} :
    (b : ℤ) ∈ serverRange cfg i ↔ i = b / cfg.chunkSizeBytes ∧ b < cfg.expectedBytes := by
  rw [mem_serverRange, eq_comm, Nat.div_eq_iff hc]
  have hsucc : (i + 1) * cfg.chunkSizeBytes = i * cfg.chunkSizeBytes + cfg.chunkSizeBytes :=
    Nat.succ_mul _ _
  constructor
  · rintro ⟨hlo, hhi, hb⟩
    refine ⟨⟨?_, ?_⟩, ?_⟩ <;> zify <;> omega
  · rintro ⟨⟨hlo, hhi⟩, hb⟩
    zify at hlo hhi hb
    refine ⟨?_, ?_, ?_⟩ <;> omega

theorem rangesPartition_iff (he : 0 < cfg.expectedBytes) (hc : 0 < cfg.chunkSizeBytes) :
    RangesPartition cfg ↔ cfg.expectedBytes ≤ cfg.totalChunks * cfg.chunkSizeBytes := by
  constructor
  · rintro ⟨hcover, -⟩
    -- the chunk that holds the last byte is one of the session's
    have hlast : ((cfg.expectedBytes - 1 : ℕ) : ℤ) ∈ Set.Ico (0 : ℤ) cfg.expectedBytes :=
      ⟨Int.natCast_nonneg _, by omega⟩
    obtain ⟨i, ⟨hi, hmem⟩, -⟩ := hcover _ hlast
    obtain ⟨rfl, -⟩ := (mem_serverRange_iff_div hc).mp hmem
    rw [Nat.div_lt_iff_lt_mul hc] at hi
    omega
  · intro hle
    refine ⟨?_, ?_⟩
    · rintro b ⟨hb0, hb⟩
      lift b to ℕ using hb0
      have hb : b < cfg.expectedBytes := by omega
      refine ⟨b / cfg.chunkSizeBytes, ⟨?_, (mem_serverRange_iff_div hc).mpr ⟨rfl, hb⟩⟩, ?_⟩
      · rw [Nat.div_lt_iff_lt_mul hc]
        omega
      · rintro i ⟨-, hi⟩
        exact ((mem_serverRange_iff_div hc).mp hi).1
    · rintro i - b hb
      obtain ⟨hlo, -, hhi⟩ := mem_serverRange.mp hb
      refine ⟨le_trans ?_ hlo, hhi⟩
      positivity

/-- The ranges are right exactly when the number of chunks is the exact
ceiling. -/
theorem ranges_iff (cfg : Session D) (he : 0 < cfg.expectedBytes) (hc : 0 < cfg.chunkSizeBytes)
    (hn : 0 < cfg.totalChunks) :
    RangesPartition cfg ∧ RangesCoincide cfg.expectedBytes cfg ↔
      cfg.totalChunks = cfg.expectedBytes ⌈/⌉ cfg.chunkSizeBytes := by
  obtain ⟨n, hn⟩ : ∃ n, cfg.totalChunks = n + 1 := ⟨cfg.totalChunks - 1, by omega⟩
  rw [rangesPartition_iff he hc, rangesCoincide_iff hn, hn, eq_ceilDiv_iff hc]
  exact and_comm

theorem totalChunksOf_eq_iff {e c : ℕ} (he : 0 < e) :
    totalChunksOf e c = e ⌈/⌉ c ↔ Binary64.ceilTrueDiv e c = e ⌈/⌉ c := by
  have hpos := Binary64.ceilTrueDiv_pos (b := c) he
  rw [totalChunksOf, max_eq_right hpos]

end Ranges

/-! ### End to end -/

/-- An upload of `F` in chunks of `c` bytes does what it should: the ranges
are right and only `F` is ever published. -/
def FaithfulUpload (sha256 : Bytes → D) (F : Bytes) (c : ℕ) (sha : Option D)
    (mode : UploadMode) (ttl now : ℕ) : Prop :=
  RangesPartition (newSession F.length c sha mode ttl) ∧
  RangesCoincide F.length (newSession F.length c sha mode ttl) ∧
  PublishesFile F (newSession F.length c sha mode ttl) sha256 (newWorld now ttl)

/-- **A chunked upload is faithful end to end** if and only if the number of
chunks that Python's true division gives is the exact one. -/
theorem faithful_upload_iff (sha256 : Bytes → D) {F : Bytes} (hF : 0 < F.length) {c : ℕ}
    (hc : 0 < c) (sha : Option D) (mode : UploadMode) (ttl now : ℕ) :
    FaithfulUpload sha256 F c sha mode ttl now ↔
      Binary64.ceilTrueDiv F.length c = F.length ⌈/⌉ c := by
  have hranges := ranges_iff (newSession F.length c sha mode ttl) hF hc
    (lt_of_lt_of_le Nat.one_pos (le_max_left _ _))
  have hrun : PublishesFile F (newSession F.length c sha mode ttl) sha256 (newWorld now ttl) :=
    publishesFile rfl (faithful_newWorld F _ sha256 now ttl)
  rw [← totalChunksOf_eq_iff hF]
  constructor
  · rintro ⟨hpart, hcoin, -⟩
    exact hranges.mp ⟨hpart, hcoin⟩
  · intro h
    obtain ⟨hpart, hcoin⟩ := hranges.mpr h
    exact ⟨hpart, hcoin, hrun⟩

/-- A two-byte file in one-byte chunks. -/
theorem faithful_upload_two_bytes : FaithfulUpload sampleDigest [97, 98] 1 none .resumable 300 0 :=
  (faithful_upload_iff sampleDigest (by decide) (by decide) none .resumable 300 0).mpr
    (Binary64.ceilTrueDiv_eq (by decide) (by decide))

/-- With `2^53 + 1` bytes and the default chunk size of 64 MiB the last byte
belongs to no chunk. -/
theorem last_byte_uncovered :
    ¬ FaithfulUpload sampleDigest (List.replicate (2 ^ 53 + 1) 0) (2 ^ 26) none
      .resumable 86400 0 := by
  rintro ⟨hpart, -, -⟩
  have hle := (rangesPartition_iff (by rw [newSession, List.length_replicate]; decide)
    (by decide)).mp hpart
  simp only [newSession, List.length_replicate] at hle
  revert hle
  decide

end Kairon.Upload

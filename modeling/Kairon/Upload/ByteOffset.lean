/-
Kairon/Upload/ByteOffset.lean

Byte-offset uploads of `evidence_upload_session`.  The length of the staged
file lives twice, on the disk and as `bytes_received` in the row, and an
append is accepted only at an offset equal to both.  There are two appends:
the one for a file object writes to the staged file directly, the one for a
request stream collects the body in a temporary file and copies it over.

Two error paths leave the lengths apart.  A file-object append that meets
the size limit after it has written a block keeps the block and does not
count it; a copy that fails after its first byte keeps what was copied and
counts nothing.  `stays_consistent` says that these are all: as long as no
step does that (`Spoils`), the staged file is the concatenation of what was
counted, and an append at `bytes_received` is never refused for its offset.
-/
import Kairon.Upload.Session

namespace Kairon.Upload.ByteOffset

/-! ### The session -/

/-- `EvidenceUploadSessionStatus`. -/
inductive Status
  | created | uploading | interrupted | preflightRunning | staged
  | promoted | cancelled | expired | failed
  deriving DecidableEq

/-- The statuses both appends and finalize work on. -/
def Status.uploadable (s : Status) : Bool := s ∈ [created, uploading, interrupted]

/-- `UploadSessionError`, by code. -/
inductive UploadSessionError
  | sessionNotUploading (status : Status)
  | offsetMismatch (expectedOffset : ℕ) (receivedOffset : ℤ)
  | uploadSizeLimit
  | sessionLockUnavailable
  | sessionBusy
  | unifiedSessionWrongEndpoint
  | uploadIncomplete (bytesReceived expectedBytes : ℕ)

/-- What an operation raises: an error of its own, or another exception, by
class name. -/
inductive Failure
  | session (e : UploadSessionError)
  | other (className : String)

/-- What the operations read and never write. -/
structure Limits (D : Type) where
  maxBytes : ℕ
  expectedSize : Option ℕ
  clientSha256 : Option D
  unified : Bool

/-- The columns the operations write; `R` are the preflight reports. -/
structure Row (D R : Type) where
  status : Status
  bytesReceived : ℕ
  sizeBytes : ℕ
  failureMessage : Option String
  sha256 : Option D
  clientSha256Mismatch : Bool
  preflightReport : Option R

/-- The committed row and the staged file. -/
structure State (D R : Type) where
  row : Row D R
  staged : Option Bytes

variable {D R : Type}

/-- The staged file, empty if it is not there. -/
def State.content (s : State D R) : Bytes := s.staged.getD []

/-- The session after `create_resumable_upload_session`. -/
def created : State D R where
  row :=
    { status := .created
      bytesReceived := 0
      sizeBytes := 0
      failureMessage := none
      sha256 := none
      clientSha256Mismatch := false
      preflightReport := none }
  staged := none

/-! ### Writing -/

/-- A size that neither append may reach. -/
def Limits.exceeded (lim : Limits D) (nextSize : ℕ) : Bool :=
  decide (nextSize > lim.maxBytes) || lim.expectedSize.any fun n => decide (nextSize > n)

/-- How writing a file can fail: when it is opened, or in a write, flush or
sync, after `n` bytes have reached it. -/
inductive Fault
  | onOpen (className : String)
  | after (n : ℕ) (className : String)

/-- The receive loop of both appends, with what reaches the file it writes.
`ending` is the exception the body ends with, if any. -/
def receiveLoop (lim : Limits D) (ending : Option String) :
    ℕ → Option (ℕ × String) → List Bytes → Bytes × Except Failure ℕ
  | written, fault, [] =>
    match ending, fault with
    | some cls, _ => ([], .error (.other cls))
    | none, some (0, cls) => ([], .error (.other cls))
    | none, _ => ([], .ok written)
  | written, fault, chunk :: rest =>
    if lim.exceeded (written + chunk.length) then ([], .error (.session .uploadSizeLimit))
    else match fault with
    | none =>
      let r := receiveLoop lim ending (written + chunk.length) none rest
      (chunk ++ r.1, r.2)
    | some (n, cls) =>
      if n < chunk.length then (chunk.take n, .error (.other cls))
      else
        let r := receiveLoop lim ending (written + chunk.length)
          (some (n - chunk.length, cls)) rest
        (chunk ++ r.1, r.2)

/-- Open a file and run the loop. -/
def receive (lim : Limits D) (ending : Option String) (written : ℕ) (fault : Option Fault)
    (blocks : List Bytes) : Bytes × Except Failure ℕ :=
  match fault with
  | none => receiveLoop lim ending written none blocks
  | some (.onOpen cls) => ([], .error (.other cls))
  | some (.after n cls) => receiveLoop lim ending written (some (n, cls)) blocks

/-! ### The operations -/

/-- What successive calls of `body.read` return before the end of the file. -/
structure Reads where
  blocks : List Bytes
  nonempty : ∀ b ∈ blocks, b ≠ []
  atMost : ∀ b ∈ blocks, b.length ≤ 1024 * 1024

/-- The row of an interrupted append. -/
def Row.interrupted (row : Row D R) (cls : String) : Row D R :=
  { row with
    status := .interrupted
    failureMessage := some ("Upload interrupted: " ++ cls) }

/-- The row of a successful append. -/
def Row.appended (row : Row D R) (written : ℕ) : Row D R :=
  { row with
    bytesReceived := written
    sizeBytes := written
    status := .uploading
    failureMessage := none }

/-- The checks both appends make, and the size they start from. -/
def checkAppend (s : State D R) (offset : ℤ) : Except UploadSessionError ℕ :=
  if !s.row.status.uploadable then .error (.sessionNotUploading s.row.status)
  else if offset ≠ s.content.length ∨ offset ≠ s.row.bytesReceived then
    .error (.offsetMismatch s.content.length offset)
  else .ok s.content.length

/-- The staged file after `reached` was written to its end; it is only
created by opening it. -/
def State.extended (s : State D R) (fault : Option Fault) (reached : Bytes) : Option Bytes :=
  match fault with
  | some (.onOpen _) => s.staged
  | _ => some (s.content ++ reached)

/-- `append_resumable_upload_chunk`. -/
def appendResumableUploadChunk (lim : Limits D) (s : State D R) (offset : ℤ) (body : Reads)
    (ending : Option String) (fault : Option Fault) : State D R × Except Failure (Row D R) :=
  match checkAppend s offset with
  | .error e => (s, .error (.session e))
  | .ok currentSize =>
    let (reached, result) := receive lim ending currentSize fault body.blocks
    let staged := s.extended fault reached
    match result with
    | .error (.session e) => ({ s with staged := staged }, .error (.session e))
    | .error (.other cls) =>
      let size := (staged.map List.length).getD currentSize
      let row := { s.row.interrupted cls with bytesReceived := size }
      (⟨row, staged⟩, .error (.other cls))
    | .ok written => (⟨s.row.appended written, staged⟩, .ok (s.row.appended written))

/-- The outcome of `redis_upload_lock`. -/
inductive Lock
  | acquired | busy | unavailable

/-- Copy the temporary file to the end of the staged file. -/
def copyOver (s : State D R) (temp : Bytes) : Option Fault → Option Bytes × Option String
  | none => (some (s.content ++ temp), none)
  | some (.onOpen cls) => (s.staged, some cls)
  | some (.after n cls) =>
    if n ≤ temp.length then (some (s.content ++ temp.take n), some cls)
    else (some (s.content ++ temp), none)

/-- `_append_resumable_upload_chunk_stream_locked`. -/
def appendStreamLocked (lim : Limits D) (s : State D R) (offset : ℤ) (chunks : List Bytes)
    (ending : Option String) (tempFault copyFault : Option Fault) :
    State D R × Except Failure (Row D R) :=
  if lim.unified then (s, .error (.session .unifiedSessionWrongEndpoint))
  else match checkAppend s offset with
  | .error e => (s, .error (.session e))
  | .ok currentSize =>
    let stop (staged : Option Bytes) (cls : String) :
        State D R × Except Failure (Row D R) :=
      (⟨{ s.row.interrupted cls with bytesReceived := currentSize, sizeBytes := currentSize },
        staged⟩, .error (.other cls))
    let (temp, result) := receive lim ending currentSize tempFault (chunks.filter (· ≠ []))
    match result with
    | .error (.session e) => (s, .error (.session e))
    | .error (.other cls) => stop s.staged cls
    | .ok written =>
      match copyOver s temp copyFault with
      | (staged, some cls) => stop staged cls
      | (staged, none) => (⟨s.row.appended written, staged⟩, .ok (s.row.appended written))

/-- `append_resumable_upload_chunk_stream`. -/
def appendResumableUploadChunkStream (lim : Limits D) (s : State D R) (offset : ℤ)
    (chunks : List Bytes) (ending : Option String) (lock : Lock)
    (tempFault copyFault : Option Fault) : State D R × Except Failure (Row D R) :=
  match lock with
  | .unavailable => (s, .error (.session .sessionLockUnavailable))
  | .busy => (s, .error (.session .sessionBusy))
  | .acquired => appendStreamLocked lim s offset chunks ending tempFault copyFault

/-- How hashing and `run_preflight` end; when they raise, the pending hash is
committed if a stage was reported before. -/
inductive Preflight (R : Type)
  | report (r : R)
  | raised (className : String) (stageReported : Bool)

section Finalize

variable [DecidableEq D] (sha256 : Bytes → D)

/-- The row with the authoritative hash. -/
def Row.hashed (lim : Limits D) (row : Row D R) (digest : D) : Row D R :=
  { row with
    sha256 := some digest
    clientSha256Mismatch := row.clientSha256Mismatch ||
      lim.clientSha256.any fun d => decide (d ≠ digest) }

/-- The row with the report of a preflight. -/
def Row.reported (row : Row D R) (r : R) : Row D R :=
  { row with preflightReport := some r, failureMessage := none }

/-- `_finalize_resumable_upload_session_locked`. -/
def finalizeLocked (lim : Limits D) (s : State D R) (preflight : Preflight R) :
    State D R × Except Failure (Row D R) :=
  if lim.unified then (s, .error (.session .unifiedSessionWrongEndpoint))
  else if s.row.status = .staged then
    match preflight with
    | .raised cls _ => (s, .error (.other cls))
    | .report r => ({ s with row := s.row.reported r }, .ok (s.row.reported r))
  else if !s.row.status.uploadable then
    (s, .error (.session (.sessionNotUploading s.row.status)))
  else
    let size := s.content.length
    match lim.expectedSize.filter (size ≠ ·) with
    | some expected =>
      let row := { s.row with
        status := .interrupted
        bytesReceived := size
        sizeBytes := size
        failureMessage :=
          some "Upload is incomplete. Resume from the confirmed offset before finalizing." }
      ({ s with row := row }, .error (.session (.uploadIncomplete size expected)))
    | none =>
      let running := { s.row with
        status := .preflightRunning
        bytesReceived := size
        sizeBytes := size }
      let hashed := running.hashed lim (sha256 s.content)
      match preflight with
      | .raised cls reported =>
        ({ s with row := if reported then hashed else running }, .error (.other cls))
      | .report r =>
        let row := { hashed.reported r with status := .staged }
        ({ s with row := row }, .ok row)

/-- `finalize_resumable_upload_session`. -/
def finalizeResumableUploadSession (lim : Limits D) (s : State D R) (lock : Lock) (wait : Bool)
    (preflight : Preflight R) : State D R × Except Failure (Row D R) :=
  match lock with
  | .unavailable => (s, .error (.session .sessionLockUnavailable))
  | .busy => (s, .error (.session .sessionBusy))
  | .acquired =>
    if wait ∧ s.row.preflightReport.isSome ∧ s.row.status = .staged then (s, .ok s.row)
    else finalizeLocked sha256 lim s preflight

/-- A request, with what happens around it. -/
inductive Operation (R : Type)
  | append (offset : ℤ) (body : Reads) (ending : Option String) (fault : Option Fault)
  | appendStream (offset : ℤ) (chunks : List Bytes) (ending : Option String) (lock : Lock)
      (tempFault copyFault : Option Fault)
  | finalize (lock : Lock) (wait : Bool) (preflight : Preflight R)

/-- The bytes a request sends. -/
def Operation.body : Operation R → Bytes
  | append _ body _ _ => body.blocks.flatten
  | appendStream _ chunks _ _ _ _ => chunks.flatten
  | finalize _ _ _ => []

def perform (lim : Limits D) (s : State D R) : Operation R → State D R × Except Failure (Row D R)
  | .append offset body ending fault => appendResumableUploadChunk lim s offset body ending fault
  | .appendStream offset chunks ending lock tempFault copyFault =>
    appendResumableUploadChunkStream lim s offset chunks ending lock tempFault copyFault
  | .finalize lock wait preflight =>
    finalizeResumableUploadSession sha256 lim s lock wait preflight

def step (lim : Limits D) (s : State D R) (op : Operation R) : State D R :=
  (perform sha256 lim s op).1

end Finalize

/-! ### Steps that spoil the session -/

/-- A file-object append that meets the limit after it has written a block,
the write of which did not fail. -/
structure OversizeAfterWrite (lim : Limits D) (s : State D R) (body : Reads)
    (fault : Option Fault) : Prop where
  opened : ∀ cls, fault ≠ some (.onOpen cls)
  split : ∃ before chunk after, body.blocks = before ++ chunk :: after ∧ before ≠ [] ∧
    lim.exceeded (s.content.length + before.flatten.length) = false ∧
    lim.exceeded (s.content.length + before.flatten.length + chunk.length) = true ∧
    ∀ n cls, fault = some (.after n cls) → before.flatten.length ≤ n

/-- A copy that fails after it has copied a byte. -/
def CopyBroken (chunks : List Bytes) (copyFault : Option Fault) : Prop :=
  ∃ n cls, copyFault = some (.after n cls) ∧ 0 < n ∧ n ≤ chunks.flatten.length

/-- The steps after which the staged file is longer than `bytes_received`. -/
def Spoils (lim : Limits D) (s : State D R) : Operation R → Prop
  | .append offset body _ fault =>
    checkAppend s offset = .ok s.content.length ∧ OversizeAfterWrite lim s body fault
  | .appendStream offset chunks ending lock tempFault copyFault =>
    lock = .acquired ∧ lim.unified = false ∧ checkAppend s offset = .ok s.content.length ∧
    ending = none ∧ (∀ cls, tempFault ≠ some (.onOpen cls)) ∧
    (∀ n cls, tempFault = some (.after n cls) → chunks.flatten.length < n) ∧
    lim.exceeded (s.content.length + chunks.flatten.length) = false ∧
    CopyBroken chunks copyFault
  | .finalize _ _ _ => False

/-! ### The receive loop -/

section Loop

variable {lim : Limits D}

/-- What a run of the receive loop can have done. -/
inductive Received (lim : Limits D) (ending : Option String) (written : ℕ)
    (fault : Option (ℕ × String)) (blocks : List Bytes) : Bytes × Except Failure ℕ → Prop
  | all (hend : ending = none)
      (hfault : ∀ n cls, fault = some (n, cls) → blocks.flatten.length < n)
      (hfit : blocks ≠ [] → lim.exceeded (written + blocks.flatten.length) = false) :
      Received lim ending written fault blocks
        (blocks.flatten, .ok (written + blocks.flatten.length))
  | stopped {reached : Bytes} (cls : String) (h : reached <+: blocks.flatten) :
      Received lim ending written fault blocks (reached, .error (.other cls))
  | oversize {before : List Bytes} {chunk : Bytes} {after : List Bytes}
      (h : blocks = before ++ chunk :: after)
      (hfit : before ≠ [] → lim.exceeded (written + before.flatten.length) = false)
      (hover : lim.exceeded (written + before.flatten.length + chunk.length) = true)
      (hfault : ∀ n cls, fault = some (n, cls) → before.flatten.length ≤ n) :
      Received lim ending written fault blocks
        (before.flatten, .error (.session .uploadSizeLimit))

/-- One block is written, and the rest received. -/
theorem Received.cons {ending : Option String} {written : ℕ}
    {fault fault' : Option (ℕ × String)} {chunk : Bytes} {rest : List Bytes}
    {r : Bytes × Except Failure ℕ} (hfit : lim.exceeded (written + chunk.length) = false)
    (hfault : ∀ n cls, fault = some (n, cls) →
      chunk.length ≤ n ∧ fault' = some (n - chunk.length, cls))
    (h : Received lim ending (written + chunk.length) fault' rest r) :
    Received lim ending written fault (chunk :: rest) (chunk ++ r.1, r.2) := by
  have hlen : ∀ l : List Bytes, written + (chunk :: l).flatten.length
      = written + chunk.length + l.flatten.length := by
    intro l
    rw [List.flatten_cons, List.length_append, Nat.add_assoc]
  have hfit' : ∀ l : List Bytes,
      (l ≠ [] → lim.exceeded (written + chunk.length + l.flatten.length) = false) →
      lim.exceeded (written + (chunk :: l).flatten.length) = false := by
    intro l hl
    rw [hlen]
    cases l with
    | nil => simpa using hfit
    | cons b bs => exact hl (List.cons_ne_nil b bs)
  cases h with
  | all hend hnone hall =>
    have hrec : Received lim ending written fault (chunk :: rest) _ :=
      .all hend ?_ fun _ => hfit' rest hall
    · rw [hlen] at hrec
      exact hrec
    · intro n cls hn
      obtain ⟨hle, hf'⟩ := hfault n cls hn
      have := hnone _ _ hf'
      rw [List.flatten_cons, List.length_append]
      omega
  | stopped cls h =>
    refine .stopped cls ?_
    rw [List.flatten_cons]
    exact (List.prefix_append_right_inj _).mpr h
  | @oversize before b after h hbefore hover hreach =>
    have hrec : Received lim ending written fault (chunk :: rest)
        ((chunk :: before).flatten, _) :=
      .oversize (congrArg (chunk :: ·) h) (fun _ => hfit' before hbefore)
        (by rw [hlen]; exact hover) ?_
    · exact hrec
    · intro n cls hn
      obtain ⟨hle, hf'⟩ := hfault n cls hn
      have := hreach _ _ hf'
      rw [List.flatten_cons, List.length_append]
      omega

theorem receiveLoop_received (ending : Option String) (written : ℕ)
    (fault : Option (ℕ × String)) (blocks : List Bytes) :
    Received lim ending written fault blocks
      (receiveLoop lim ending written fault blocks) := by
  induction blocks generalizing written fault with
  | nil =>
    unfold receiveLoop
    split
    · exact .stopped _ List.nil_prefix
    · exact .stopped _ List.nil_prefix
    · next hzero =>
        refine .all rfl ?_ fun h => absurd rfl h
        rintro (- | n) cls rfl
        · exact absurd rfl (hzero cls)
        · exact Nat.succ_pos n
  | cons chunk rest ih =>
    unfold receiveLoop
    split
    · next hover =>
        have hrec : Received lim ending written fault (chunk :: rest) (([] : List Bytes).flatten, _) :=
          .oversize rfl (fun h => absurd rfl h) hover fun n _ _ => Nat.zero_le n
        exact hrec
    · next hfit =>
        rw [Bool.not_eq_true] at hfit
        split
        · exact (ih _ none).cons hfit fun n cls h => nomatch h
        · next n cls =>
            split
            · refine .stopped _ ((List.take_prefix _ _).trans ?_)
              rw [List.flatten_cons]
              exact List.prefix_append _ _
            · next hn =>
                refine (ih _ (some (n - chunk.length, cls))).cons hfit fun m cls' h => ?_
                obtain ⟨rfl, rfl⟩ := Prod.mk.inj (Option.some.inj h)
                exact ⟨by omega, rfl⟩

/-- The failure of a write, if the file could be opened. -/
def Fault.write : Option Fault → Option (ℕ × String)
  | some (.after n cls) => some (n, cls)
  | _ => none

theorem Fault.write_eq {fault : Option Fault} {n : ℕ} {cls : String} :
    Fault.write fault = some (n, cls) ↔ fault = some (.after n cls) := by
  rcases fault with - | ⟨cls'⟩ | ⟨m, cls'⟩ <;> simp [Fault.write]

theorem receive_received (lim : Limits D) (ending : Option String) (written : ℕ) (fault : Option Fault)
    (blocks : List Bytes) :
    Received lim ending written (Fault.write fault) blocks
        (receive lim ending written fault blocks) ∧
      ((∃ cls, fault = some (.onOpen cls)) →
        ∃ cls, receive lim ending written fault blocks = ([], .error (.other cls))) := by
  rcases fault with - | ⟨cls⟩ | ⟨n, cls⟩
  · exact ⟨receiveLoop_received _ _ _ _, fun ⟨_, h⟩ => nomatch h⟩
  · exact ⟨.stopped _ List.nil_prefix, fun _ => ⟨cls, rfl⟩⟩
  · exact ⟨receiveLoop_received _ _ _ _, fun ⟨_, h⟩ => nomatch h⟩

end Loop

/-! ### One step -/

/-- The staged file is as long as the row says. -/
def Consistent (s : State D R) : Prop := s.content.length = s.row.bytesReceived

/-- A prefix of the body was appended and counted, all of it on success. -/
def Advances (s : State D R) (body : Bytes) (out : State D R × Except Failure (Row D R)) :
    Prop :=
  ∃ part, part <+: body ∧ out.1.content = s.content ++ part ∧ Consistent out.1 ∧
    (out.2.isOk = true → part = body)

/-- Nothing changed, and the request failed. -/
theorem Advances.unchanged {s s' : State D R} (h : Consistent s) (body : Bytes) {e : Failure}
    (hcontent : s'.content = s.content) (hbytes : s'.row.bytesReceived = s.row.bytesReceived) :
    Advances s body (s', .error e) := by
  refine ⟨[], List.nil_prefix, by rw [List.append_nil, hcontent], ?_, fun h => nomatch h⟩
  change s'.content.length = s'.row.bytesReceived
  rw [hcontent, hbytes]
  exact h

variable {out : State D R × Except Failure (Row D R)}

theorem Advances.consistent {s : State D R} {body : Bytes} (h : Advances s body out) :
    Consistent out.1 := by
  obtain ⟨-, -, -, h, -⟩ := h
  exact h

/-- What was appended is what was counted. -/
theorem Advances.content_eq {s : State D R} {body : Bytes} (h : Advances s body out)
    (hs : Consistent s) :
    out.1.content = s.content ++ body.take (out.1.row.bytesReceived - s.row.bytesReceived) ∧
      (out.2.isOk = true → body.take (out.1.row.bytesReceived - s.row.bytesReceived) = body) := by
  obtain ⟨part, hpart, hcontent, hcons, hok⟩ := h
  have hlen : out.1.row.bytesReceived - s.row.bytesReceived = part.length := by
    rw [← hcons, ← hs, hcontent, List.length_append]
    omega
  rw [hlen, ← List.prefix_iff_eq_take.mp hpart]
  exact ⟨hcontent, hok⟩

theorem checkAppend_ok {s : State D R} {offset : ℤ} {n : ℕ} (h : checkAppend s offset = .ok n) :
    n = s.content.length := by
  unfold checkAppend at h
  split_ifs at h
  exact (Except.ok.inj h).symm

/-- On a consistent session an append at `bytes_received` is not refused for
its offset. -/
theorem checkAppend_bytesReceived {s : State D R} (h : Consistent s) (m : ℕ) (n : ℤ) :
    checkAppend s s.row.bytesReceived ≠ .error (.offsetMismatch m n) := by
  unfold checkAppend
  rw [Consistent] at h
  split_ifs with hstatus hoffset
  · simp
  · omega
  · simp

theorem State.extended_eq (s : State D R) {fault : Option Fault}
    (h : ∀ cls, fault ≠ some (.onOpen cls)) (reached : Bytes) :
    s.extended fault reached = some (s.content ++ reached) := by
  rcases fault with - | ⟨cls⟩ | ⟨n, cls⟩
  · rfl
  · exact absurd rfl (h cls)
  · rfl

section Step

variable {lim : Limits D} {s : State D R}

theorem append_advances (h : Consistent s) (offset : ℤ) (body : Reads)
    (ending : Option String) (fault : Option Fault)
    (hns : checkAppend s offset = .ok s.content.length → ¬ OversizeAfterWrite lim s body fault) :
    Advances s body.blocks.flatten
      (appendResumableUploadChunk lim s offset body ending fault) := by
  unfold appendResumableUploadChunk
  cases hcheck : checkAppend s offset with
  | error e => exact .unchanged h _ rfl rfl
  | ok n =>
    obtain rfl := checkAppend_ok hcheck
    obtain ⟨hrec, hopen⟩ := receive_received lim ending s.content.length fault
      body.blocks
    by_cases hop : ∃ cls, fault = some (.onOpen cls)
    · obtain ⟨cls', hcls'⟩ := hopen hop
      obtain ⟨cls, rfl⟩ := hop
      simp only [hcls']
      refine .unchanged h _ rfl ?_
      change (s.staged.map List.length).getD s.content.length = s.row.bytesReceived
      rw [← h, State.content]
      cases s.staged <;> rfl
    · cases hrun : receive lim ending s.content.length fault body.blocks with
      | mk reached result =>
        rw [hrun] at hrec
        simp only [hrun, s.extended_eq fun cls hcls => hop ⟨cls, hcls⟩]
        cases hrec with
        | all hend hfault hfit =>
          refine ⟨body.blocks.flatten, List.prefix_rfl, rfl, ?_, fun _ => rfl⟩
          exact List.length_append
        | stopped cls hpre =>
          exact ⟨reached, hpre, rfl, rfl, fun h => nomatch h⟩
        | @oversize before chunk after hsplit hfit hover hfault =>
          cases before with
          | nil =>
            refine .unchanged h _ ?_ rfl
            exact List.append_nil _
          | cons b bs =>
            have hne := List.cons_ne_nil b bs
            refine absurd ⟨fun cls hcls => hop ⟨cls, hcls⟩, _, chunk, after, hsplit, hne,
              hfit hne, hover, fun n cls hn => ?_⟩ (hns hcheck)
            exact hfault n cls (Fault.write_eq.mpr hn)

theorem flatten_filter_ne_nil (chunks : List Bytes) :
    (chunks.filter (· ≠ [])).flatten = chunks.flatten := by
  induction chunks with
  | nil => rfl
  | cons c cs ih => cases c <;> simp_all

/-- The copy is done, has not begun, or stops after some of its bytes. -/
theorem copyOver_cases (s : State D R) (temp : Bytes) (copyFault : Option Fault) :
    copyOver s temp copyFault = (some (s.content ++ temp), none) ∨
    (∃ staged cls, copyOver s temp copyFault = (staged, some cls) ∧ staged.getD [] = s.content) ∨
    ∃ n cls, copyFault = some (.after n cls) ∧ 0 < n ∧ n ≤ temp.length := by
  rcases copyFault with - | ⟨cls⟩ | ⟨n, cls⟩
  · exact .inl rfl
  · exact .inr (.inl ⟨_, cls, rfl, rfl⟩)
  · by_cases hn : n ≤ temp.length
    · rcases Nat.eq_zero_or_pos n with rfl | hpos
      · refine .inr (.inl ⟨some (s.content ++ temp.take 0), cls, ?_, List.append_nil _⟩)
        simp [copyOver]
      · exact .inr (.inr ⟨n, cls, rfl, hpos, hn⟩)
    · exact .inl (if_neg hn)

theorem appendStream_advances (h : Consistent s) (offset : ℤ) (chunks : List Bytes)
    (ending : Option String) (lock : Lock) (tempFault copyFault : Option Fault)
    (hns : ¬ Spoils (R := R) lim s
      (.appendStream offset chunks ending lock tempFault copyFault)) :
    Advances s chunks.flatten
      (appendResumableUploadChunkStream lim s offset chunks ending lock tempFault copyFault) := by
  unfold appendResumableUploadChunkStream
  cases lock with
  | unavailable | busy => exact .unchanged h _ rfl rfl
  | acquired =>
    unfold appendStreamLocked
    cases hunified : lim.unified with
    | true => exact .unchanged h _ rfl rfl
    | false =>
      simp only [Bool.false_eq_true, if_false]
      cases hcheck : checkAppend s offset with
      | error e => exact .unchanged h _ rfl rfl
      | ok n =>
        obtain rfl := checkAppend_ok hcheck
        obtain ⟨hrec, hopen⟩ := receive_received lim ending s.content.length
          tempFault (chunks.filter (· ≠ []))
        cases hrun : receive lim ending s.content.length tempFault
            (chunks.filter (· ≠ [])) with
        | mk temp result =>
          rw [hrun] at hrec hopen
          simp only [hrun]
          cases hrec with
          | stopped cls hpre => exact .unchanged h _ rfl h
          | oversize => exact .unchanged h _ rfl rfl
          | all hend hfault hfit =>
            simp only [flatten_filter_ne_nil] at hfault hfit ⊢
            have htemp : ∀ cls, tempFault ≠ some (.onOpen cls) := by
              intro cls hcls
              obtain ⟨cls', h'⟩ := hopen ⟨cls, hcls⟩
              exact nomatch congrArg Prod.snd h'
            rcases copyOver_cases s chunks.flatten copyFault with
              hcopy | ⟨staged, cls, hcopy, hstaged⟩ | ⟨n, cls, hcopy, hpos, hle⟩
            · rw [hcopy]
              refine ⟨chunks.flatten, List.prefix_rfl, rfl, ?_, fun _ => rfl⟩
              exact List.length_append
            · rw [hcopy]
              exact .unchanged h _ hstaged h
            · refine absurd ⟨rfl, hunified, hcheck, hend, htemp, fun m cls' hm => ?_, ?_,
                n, cls, hcopy, hpos, hle⟩ hns
              · exact hfault m cls' (Fault.write_eq.mpr hm)
              · refine hfit fun hnil => ?_
                rw [← flatten_filter_ne_nil, hnil] at hle
                exact absurd hle (by simpa using hpos.ne')

variable [DecidableEq D] {sha256 : Bytes → D}

omit [DecidableEq D] in
/-- A finalize call leaves the file alone and counts what is there. -/
theorem Advances.finalized {s' : State D R} {r : Except Failure (Row D R)}
    (hcontent : s'.content = s.content) (hbytes : s'.row.bytesReceived = s.content.length) :
    Advances s [] (s', r) :=
  ⟨[], List.nil_prefix, by rw [List.append_nil, hcontent],
    (congrArg List.length hcontent).trans hbytes.symm, fun _ => rfl⟩

theorem finalize_advances (h : Consistent s) (lock : Lock) (wait : Bool)
    (preflight : Preflight R) :
    Advances s [] (finalizeResumableUploadSession sha256 lim s lock wait preflight) := by
  unfold finalizeResumableUploadSession
  cases lock with
  | unavailable | busy => exact .finalized rfl h.symm
  | acquired =>
    simp only
    split
    · exact .finalized rfl h.symm
    · unfold finalizeLocked
      split
      · exact .finalized rfl h.symm
      · split
        · cases preflight <;> exact .finalized rfl h.symm
        · split
          · exact .finalized rfl h.symm
          · cases hsize : lim.expectedSize.filter (s.content.length ≠ ·) with
            | some expected =>
              simp only [hsize]
              exact .finalized rfl rfl
            | none =>
              simp only [hsize]
              rcases preflight with ⟨r⟩ | ⟨cls, - | -⟩ <;> exact .finalized rfl rfl

theorem step_advances (sha256 : Bytes → D) (h : Consistent s) (op : Operation R) (hns : ¬ Spoils lim s op) :
    Advances s op.body (perform sha256 lim s op) := by
  cases op with
  | append offset body ending fault =>
    exact append_advances h offset body ending fault fun hcheck hover => hns ⟨hcheck, hover⟩
  | appendStream offset chunks ending lock tempFault copyFault =>
    exact appendStream_advances h offset chunks ending lock tempFault copyFault hns
  | finalize lock wait preflight => exact finalize_advances h lock wait preflight

end Step

/-! ### Runs -/

section Run

variable [DecidableEq D] (sha256 : Bytes → D) (lim : Limits D)

def run (s : State D R) (ops : List (Operation R)) : State D R := ops.foldl (step sha256 lim) s

/-- The part of its body that a request adds to `bytes_received`. -/
def counted (s : State D R) (op : Operation R) : Bytes :=
  op.body.take ((step sha256 lim s op).row.bytesReceived - s.row.bytesReceived)

/-- What the requests of a run add to `bytes_received`, in order. -/
def countedBytes (s : State D R) : List (Operation R) → Bytes
  | [] => []
  | op :: ops => counted sha256 lim s op ++ countedBytes (step sha256 lim s op) ops

/-- Every step of a run meets a condition on the state before it. -/
def Along (P : State D R → Operation R → Prop) (s : State D R) : List (Operation R) → Prop
  | [] => True
  | op :: ops => P s op ∧ Along P (step sha256 lim s op) ops

/-- An operation that is an append at this offset. -/
def Operation.offset? : Operation R → Option ℤ
  | append offset _ _ _ => some offset
  | appendStream offset _ _ _ _ _ => some offset
  | finalize _ _ _ => none

/-- After every run on a new session whose steps all meet `P`: the lengths
agree, the staged file is the concatenation of what was counted, a
successful request counts its whole body, and no append at `bytes_received`
is refused for its offset. -/
def StaysConsistent (P : State D R → Operation R → Prop) : Prop :=
  ∀ ops, Along sha256 lim P created ops → let s := run sha256 lim created ops
    s.content.length = s.row.bytesReceived ∧
    s.content = countedBytes sha256 lim created ops ∧
    (∀ op, P s op → (perform sha256 lim s op).2.isOk = true → counted sha256 lim s op = op.body) ∧
    ∀ op, op.offset? = some (s.row.bytesReceived : ℤ) →
      ∀ m n, (perform sha256 lim s op).2 ≠ .error (.session (.offsetMismatch m n))

variable {sha256 lim}

omit [DecidableEq D] in
theorem receive_ne_offsetMismatch {ending : Option String} {written : ℕ}
    {fault : Option Fault} {blocks : List Bytes} {e : UploadSessionError}
    (h : (receive lim ending written fault blocks).2 = .error (.session e)) :
    e = .uploadSizeLimit := by
  have hrec := (receive_received lim ending written fault blocks).1
  generalize receive lim ending written fault blocks = r at h hrec
  cases hrec <;> simp_all

/-- Only the check of an append refuses an offset. -/
theorem offsetMismatch_of_perform {s : State D R} {op : Operation R} {m : ℕ} {n : ℤ}
    (h : (perform sha256 lim s op).2 = .error (.session (.offsetMismatch m n))) :
    ∃ offset, op.offset? = some offset ∧ checkAppend s offset = .error (.offsetMismatch m n) := by
  cases op with
  | append offset body ending fault =>
    refine ⟨offset, rfl, ?_⟩
    simp only [perform, appendResumableUploadChunk] at h
    cases hcheck : checkAppend s offset with
    | error e =>
      simp only [hcheck] at h
      cases h
      rfl
    | ok size =>
      simp only [hcheck] at h
      split at h
      · next e he =>
          cases h
          exact nomatch receive_ne_offsetMismatch he
      · cases h
      · cases h
  | appendStream offset chunks ending lock tempFault copyFault =>
    refine ⟨offset, rfl, ?_⟩
    simp only [perform, appendResumableUploadChunkStream, appendStreamLocked] at h
    cases lock with
    | unavailable => cases h
    | busy => cases h
    | acquired =>
      simp only at h
      split at h
      · cases h
      · cases hcheck : checkAppend s offset with
        | error e =>
          simp only [hcheck] at h
          cases h
          rfl
        | ok size =>
          simp only [hcheck] at h
          split at h
          · next e he =>
              cases h
              exact nomatch receive_ne_offsetMismatch he
          · cases h
          · split at h <;> cases h
  | finalize lock wait preflight =>
    simp only [perform, finalizeResumableUploadSession, finalizeLocked] at h
    repeat' split at h
    all_goals cases h

theorem consistent_run {s : State D R} (h : Consistent s) (ops : List (Operation R))
    (hops : Along sha256 lim (fun s op => ¬ Spoils lim s op) s ops) :
    Consistent (run sha256 lim s ops) ∧
      (run sha256 lim s ops).content = s.content ++ countedBytes sha256 lim s ops := by
  induction ops generalizing s with
  | nil => exact ⟨h, (List.append_nil _).symm⟩
  | cons op ops ih =>
    obtain ⟨hop, hrest⟩ := hops
    have hadv := step_advances sha256 h op hop
    obtain ⟨hcons, hcontent⟩ := ih (s := step sha256 lim s op) hadv.consistent hrest
    have hstep : (step sha256 lim s op).content = s.content ++ counted sha256 lim s op :=
      (hadv.content_eq h).1
    refine ⟨hcons, hcontent.trans ?_⟩
    rw [hstep, countedBytes, List.append_assoc]

/-- **A byte-offset upload stays consistent** on every run none of whose steps
stops after it has written bytes that it does not count. -/
theorem stays_consistent (sha256 : Bytes → D) (lim : Limits D) :
    StaysConsistent (R := R) sha256 lim fun s op => ¬ Spoils lim s op := by
  intro ops hops s
  obtain ⟨hcons, hcontent⟩ := consistent_run (s := created) rfl ops hops
  refine ⟨hcons, hcontent, ?_, ?_⟩
  · intro op hop hok
    exact ((step_advances sha256 hcons op hop).content_eq hcons).2 hok
  · intro op hoffset m n herr
    obtain ⟨offset, ho, hcheck⟩ := offsetMismatch_of_perform herr
    obtain rfl := Option.some.inj (ho.symm.trans hoffset)
    exact checkAppend_bytesReceived hcons m n hcheck

end Run

/-! ### A session that cannot be resumed at its offset -/

/-- An upload of two bytes. -/
def twoBytes : Limits ℕ where
  maxBytes := 1024
  expectedSize := some 2
  clientSha256 := none
  unified := false

/-- The disk is full after the first of two bytes was copied. -/
def brokenCopy : Operation Unit :=
  .appendStream 0 [[97, 98]] none .acquired none (some (.after 1 "OSError"))

/-- The copied byte stays in the staged file and is not counted. -/
theorem copied_byte_uncounted :
    ¬ StaysConsistent (R := Unit) (fun _ => 0) twoBytes fun _ _ => True := by
  intro h
  have hlen := (h [brokenCopy] ⟨trivial, trivial⟩).1
  revert hlen
  decide

end Kairon.Upload.ByteOffset

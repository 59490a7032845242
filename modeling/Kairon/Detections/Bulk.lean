/-
Kairon/Detections/Bulk.lean

Creating detections, one by one and in bulk (`core/detections.py`).

`create_detection_if_missing` looks a detection up in the table as it stands;
`create_detections_bulk_if_missing` looks everything up in the table as it was
before the first write, because its session does not flush, and writes the
payloads with a fingerprint before the others.  So the bulk path is a loop of
writes with lookups made beforehand (`Upsert.putAll`), whatever the payloads
are, and the question is when the other path is the same loop:

  * `Alike`  : the two lookups of a payload come to the same;
  * `Calm`   : they do for every payload of the list, in the table that the
    one-by-one path has reached, the order of writing does not matter, and the
    inserted fingerprints are new;
  * `agree_of_calm` : then both paths leave the same detections.

`repeated_payload` is one payload twice, of which the bulk path makes two rows.
-/
import Kairon.Lib.Upsert
import Kairon.Search.Syntax

namespace Kairon.Detections

open Search (Text strip)
open Upsert

/-! ### Rows and payloads -/

/-- A row of `detection_results`.  `seen` are the other values that a revival overwrites, `kept`
those that only an insertion sets, both with their empty collections filled in. -/
structure Detection (V W : Type) where
  caseId : Text
  evidenceId : Option Text
  artifactId : Option Text
  ruleId : Option Text
  ruleSetId : Option Text
  engine : Text
  sourceEngine : Option Text
  ruleName : Text
  eventId : Option Text
  opensearchId : Option Text
  targetPath : Option Text
  status : Text
  fingerprint : Option Text
  deleted : Bool
  seen : V
  kept : W

/-- A detection payload; `status` is missing where it is `none`. -/
structure Payload (V W : Type) where
  evidenceId : Option Text
  artifactId : Option Text
  ruleId : Option Text
  ruleSetId : Option Text
  engine : Text
  sourceEngine : Option Text
  ruleName : Text
  eventId : Option Text
  opensearchId : Option Text
  targetPath : Option Text
  status : Option Text
  fingerprint : Option Text
  seen : V
  kept : W

def stale : Text := "stale".toList

def new : Text := "new".toList

/-- Python's `a or b` of a text that may be missing. -/
def orElse (a : Option Text) (b : Text) : Text :=
  match a with
  | some (c :: s) => c :: s
  | _ => b

/-- The evidences and artifacts of the database; an artifact belongs to an evidence. -/
structure References where
  evidences : List Text
  artifacts : List (Text × Text)
  known : ∀ a ∈ artifacts, a.2 ∈ evidences

/-- The evidence of an artifact, if there is such an artifact. -/
def References.evidenceOf (refs : References) (artifactId : Text) : Option Text :=
  (refs.artifacts.find? fun a => a.1 = artifactId).map Prod.snd

/-- `_normalize_detection_foreign_keys`. -/
def normalizeForeignKeys (refs : References) (evidenceId artifactId : Option Text) :
    Option Text × Option Text :=
  match evidenceId, artifactId.bind refs.evidenceOf with
  | none, none => (none, none)
  | none, some owner => (some owner, artifactId)
  | some e, none => if e ∈ refs.evidences then (some e, none) else (none, none)
  | some e, some owner =>
    if e ∈ refs.evidences then (some e, if e = owner then artifactId else none)
    else (none, none)

section

variable {V W : Type}

/-- `str(payload.get("dedup_fingerprint") or "").strip()`. -/
def Payload.stripped (p : Payload V W) : Text := strip (p.fingerprint.getD [])

def Payload.hasFingerprint (p : Payload V W) : Bool := p.stripped ≠ []

/-! ### Lookups -/

/-- The rows that `get_detection_unique` looks at. -/
def sameRule (caseId : Text) (p : Payload V W) (row : Detection V W) : Bool :=
  row.caseId = caseId ∧ row.ruleName = p.ruleName ∧ row.deleted = false

/-- Its filters where no row has the fingerprint. -/
def sameTarget (p : Payload V W) (row : Detection V W) : Bool :=
  (p.ruleId.all fun id => row.ruleId = some id) &&
  (p.ruleSetId.all fun id => row.ruleSetId = some id) &&
  (match p.opensearchId, p.eventId, p.targetPath with
    | some id, _, _ => decide (row.opensearchId = some id)
    | none, some id, _ => decide (row.eventId = some id)
    | none, none, some path => decide (row.targetPath = some path)
    | none, none, none => true)

/-- `get_detection_unique`: the place of the first row that matches. -/
def getDetectionUnique (caseId : Text) (rows : List (Detection V W)) (p : Payload V W) :
    Option ℕ :=
  (p.fingerprint.bind fun f =>
    rows.findIdx? fun row => sameRule caseId p row && decide (row.fingerprint = some f)).or
      (rows.findIdx? fun row => sameRule caseId p row && sameTarget p row)

/-- The fingerprint of a row that `get_existing_detection_keys` may find. -/
def liveFingerprint (caseId : Text) (row : Detection V W) : Option Text :=
  if row.caseId = caseId ∧ row.deleted = false then row.fingerprint else none

/-- `get_existing_detection_keys` for one fingerprint: of several rows the last. -/
def getExistingDetection (caseId : Text) (rows : List (Detection V W)) (fingerprint : Text) :
    Option ℕ :=
  lastAt (liveFingerprint caseId) rows fingerprint

/-! ### Writing -/

/-- `_build_detection_payload`. -/
def buildPayload (refs : References) (p : Payload V W) : Payload V W :=
  let keys := normalizeForeignKeys refs p.evidenceId p.artifactId
  { p with evidenceId := keys.1, artifactId := keys.2, status := some (orElse p.status new) }

/-- `DetectionResult(**payload)`. -/
def detectionOf (caseId : Text) (p : Payload V W) : Detection V W where
  caseId := caseId
  evidenceId := p.evidenceId
  artifactId := p.artifactId
  ruleId := p.ruleId
  ruleSetId := p.ruleSetId
  engine := p.engine
  sourceEngine := p.sourceEngine
  ruleName := p.ruleName
  eventId := p.eventId
  opensearchId := p.opensearchId
  targetPath := p.targetPath
  status := p.status.getD new
  fingerprint := p.fingerprint
  deleted := false
  seen := p.seen
  kept := p.kept

/-- `_apply_detection_payload_to_existing`. -/
def applyPayload (existing : Detection V W) (p : Payload V W) : Detection V W :=
  { existing with
    status := orElse p.status (orElse (some existing.status) new)
    eventId := p.eventId
    opensearchId := p.opensearchId
    evidenceId := p.evidenceId
    artifactId := p.artifactId
    targetPath := p.targetPath
    seen := p.seen }

/-- A row that was found takes the payload over if it is stale. -/
def revive (p : Payload V W) (row : Detection V W) : Detection V W :=
  if row.status = stale then applyPayload row p else row

/-- The values with which `create_detection_if_missing` writes a payload. -/
def singlePayload (refs : References) (p : Payload V W) : Payload V W :=
  let keys := normalizeForeignKeys refs p.evidenceId p.artifactId
  { p with
    evidenceId := keys.1
    artifactId := keys.2
    sourceEngine := some (orElse p.sourceEngine p.engine)
    status := some (p.status.getD new) }

/-- `create_detection_if_missing`: what it looks up is in the database, what it writes to is in
the session; the two are the same where every call commits. -/
def createDetectionIfMissing (refs : References) (caseId : Text)
    (stored session : List (Detection V W)) (p : Payload V W) : List (Detection V W) × Bool :=
  match getDetectionUnique caseId stored p with
  | some i => (session.modify i (revive (singlePayload refs p)), false)
  | none => (session ++ [detectionOf caseId (singlePayload refs p)], true)

/-- The rows after a call, with the counts that it reports. -/
structure Outcome (V W : Type) where
  rows : List (Detection V W)
  created : ℕ
  duplicates : ℕ
  revivedStale : ℕ

/-- One payload with a fingerprint in the bulk path. -/
def bulkStep (caseId : Text) (stored : List (Detection V W)) (out : Outcome V W)
    (p : Payload V W) : Outcome V W :=
  match getExistingDetection caseId stored p.stripped with
  | some i =>
    { rows := out.rows.modify i (revive p)
      created := out.created
      duplicates := out.duplicates + 1
      revivedStale := out.revivedStale +
        if (out.rows[i]?.map Detection.status) = some stale then 1 else 0 }
  | none =>
    { out with
      rows := out.rows ++ [detectionOf caseId p]
      created := out.created + 1 }

/-- One call of `create_detection_if_missing` in a loop that counts. -/
def countStep (out : Outcome V W) (result : List (Detection V W) × Bool) : Outcome V W :=
  { out with
    rows := result.1
    created := out.created + if result.2 then 1 else 0
    duplicates := out.duplicates + if result.2 then 0 else 1 }

/-- `create_detections_bulk_if_missing`. -/
def createDetectionsBulk (refs : References) (caseId : Text) (stored : List (Detection V W))
    (payloads : List (Payload V W)) : Outcome V W :=
  let prepared := payloads.map (buildPayload refs)
  let fingerprintPayloads := prepared.filter Payload.hasFingerprint
  let fallbackPayloads := prepared.filter fun p => !p.hasFingerprint
  let written := fingerprintPayloads.foldl (bulkStep caseId stored) ⟨stored, 0, 0, 0⟩
  fallbackPayloads.foldl
    (fun out p => countStep out (createDetectionIfMissing refs caseId stored out.rows p)) written

/-- `create_detection_if_missing` for every payload in order, with a commit after each. -/
def createEach (refs : References) (caseId : Text) (stored : List (Detection V W))
    (payloads : List (Payload V W)) : Outcome V W :=
  payloads.foldl
    (fun out p => countStep out (createDetectionIfMissing refs caseId out.rows out.rows p))
    ⟨stored, 0, 0, 0⟩

/-! ### The bulk path as a loop of writes -/

/-- The row that the bulk path finds for a payload. -/
def bulkFound (caseId : Text) (stored : List (Detection V W)) (p : Payload V W) : Option ℕ :=
  if p.hasFingerprint then getExistingDetection caseId stored p.stripped
  else getDetectionUnique caseId stored p

/-- What the bulk path makes of a row that it found. -/
def bulkUpdate (refs : References) (p : Payload V W) (row : Detection V W) : Detection V W :=
  revive (buildPayload refs p) row

/-- The row that the bulk path inserts. -/
def bulkInsert (refs : References) (caseId : Text) (p : Payload V W) : Detection V W :=
  if p.hasFingerprint then detectionOf caseId (buildPayload refs p)
  else detectionOf caseId (singlePayload refs (buildPayload refs p))

variable (refs : References) (caseId : Text)

theorem normalizeForeignKeys_twice (evidenceId artifactId : Option Text) :
    normalizeForeignKeys refs (normalizeForeignKeys refs evidenceId artifactId).1
      (normalizeForeignKeys refs evidenceId artifactId).2
      = normalizeForeignKeys refs evidenceId artifactId := by
  have howner : ∀ owner, artifactId.bind refs.evidenceOf = some owner → owner ∈ refs.evidences := by
    intro owner h
    obtain ⟨id, -, hid⟩ := Option.bind_eq_some_iff.1 h
    obtain ⟨a, ha, rfl⟩ := Option.map_eq_some_iff.1 hid
    exact refs.known a (List.mem_of_find?_eq_some ha)
  rcases hfound : artifactId.bind refs.evidenceOf with - | owner
  · rcases evidenceId with - | e
    · simp [normalizeForeignKeys, hfound]
    · by_cases he : e ∈ refs.evidences
      · simp [normalizeForeignKeys, hfound, he]
      · simp [normalizeForeignKeys, hfound, he]
  · have hknown := howner owner hfound
    rcases evidenceId with - | e
    · simp [normalizeForeignKeys, hfound, hknown]
    · by_cases he : e ∈ refs.evidences
      · by_cases heq : e = owner
        · simp [normalizeForeignKeys, hfound, hknown, heq]
        · simp [normalizeForeignKeys, hfound, he, heq]
      · simp [normalizeForeignKeys, hfound, he]

/-- A payload that was prepared is written in the same way as before. -/
theorem revive_singlePayload_buildPayload (p : Payload V W) :
    revive (singlePayload refs (buildPayload refs p)) = revive (buildPayload refs p) := by
  have hkeys := normalizeForeignKeys_twice refs p.evidenceId p.artifactId
  funext row
  unfold revive
  split_ifs
  · simp only [applyPayload, singlePayload, buildPayload, hkeys, Option.getD_some]
  · rfl

/-- An outcome after the writes of some payloads: its rows are those of the loop, and its counts
say how many of the payloads found a row. -/
structure Writes (stored : List (Detection V W)) (items : List (Payload V W))
    (out : Outcome V W) : Prop where
  rows : out.rows = putAll (bulkFound caseId stored) (bulkUpdate refs) (bulkInsert refs caseId)
    stored items
  created : out.created = (fresh (bulkFound caseId stored) items).length
  total : out.created + out.duplicates = items.length

variable {refs caseId} {stored : List (Detection V W)} {items : List (Payload V W)}
  {out next : Outcome V W} {p : Payload V W}

theorem Writes.start : Writes refs caseId stored [] ⟨stored, 0, 0, 0⟩ := ⟨rfl, rfl, rfl⟩

/-- A payload that finds its row is counted as a duplicate. -/
theorem Writes.found (h : Writes refs caseId stored items out) {i : ℕ}
    (hfound : bulkFound caseId stored p = some i)
    (hrows : next.rows = out.rows.modify i (bulkUpdate refs p))
    (hcreated : next.created = out.created) (hduplicates : next.duplicates = out.duplicates + 1) :
    Writes refs caseId stored (items ++ [p]) next := by
  refine ⟨?_, ?_, ?_⟩
  · rw [hrows, h.rows, putAll, putAll, List.foldl_append, List.foldl_cons, List.foldl_nil, put,
      hfound]
  · rw [hcreated, h.created, fresh, fresh, List.filter_append]
    simp [hfound]
  · rw [hcreated, hduplicates, List.length_append, ← h.total]
    rfl

/-- Any other payload is appended. -/
theorem Writes.created_of_none (h : Writes refs caseId stored items out)
    (hfound : bulkFound caseId stored p = none)
    (hrows : next.rows = out.rows ++ [bulkInsert refs caseId p])
    (hcreated : next.created = out.created + 1) (hduplicates : next.duplicates = out.duplicates) :
    Writes refs caseId stored (items ++ [p]) next := by
  have htotal := h.total
  refine ⟨?_, ?_, ?_⟩
  · rw [hrows, h.rows, putAll, putAll, List.foldl_append, List.foldl_cons, List.foldl_nil, put,
      hfound]
  · rw [hcreated, h.created, fresh, fresh, List.filter_append]
    simp [hfound]
  · rw [hcreated, hduplicates, List.length_append, List.length_singleton]
    omega

theorem Writes.bulkStep (h : Writes refs caseId stored items out) (hp : p.hasFingerprint = true) :
    Writes refs caseId stored (items ++ [p])
      (bulkStep caseId stored out (buildPayload refs p)) := by
  have hlookup : bulkFound caseId stored p
      = getExistingDetection caseId stored (buildPayload refs p).stripped := if_pos hp
  unfold Detections.bulkStep
  rcases hfound : getExistingDetection caseId stored (buildPayload refs p).stripped with - | i
  · refine h.created_of_none (hlookup.trans hfound) ?_ rfl rfl
    rw [bulkInsert, if_pos hp]
  · exact h.found (hlookup.trans hfound) rfl rfl rfl

theorem Writes.fallbackStep (h : Writes refs caseId stored items out)
    (hp : p.hasFingerprint = false) :
    Writes refs caseId stored (items ++ [p])
      (countStep out (createDetectionIfMissing refs caseId stored out.rows
        (buildPayload refs p))) := by
  have hneg : ¬ p.hasFingerprint = true := by rw [hp]; exact Bool.false_ne_true
  have hlookup : bulkFound caseId stored p
      = getDetectionUnique caseId stored (buildPayload refs p) := if_neg hneg
  unfold createDetectionIfMissing
  rcases hfound : getDetectionUnique caseId stored (buildPayload refs p) with - | i
  · refine h.created_of_none (hlookup.trans hfound) ?_ rfl rfl
    rw [bulkInsert, if_neg hneg]
    rfl
  · refine h.found (hlookup.trans hfound) ?_ rfl rfl
    show out.rows.modify i (revive (singlePayload refs (buildPayload refs p))) = _
    rw [revive_singlePayload_buildPayload]
    rfl

/-- The payloads in the order in which the bulk path writes them. -/
def bulkOrder (payloads : List (Payload V W)) : List (Payload V W) :=
  payloads.filter Payload.hasFingerprint ++ payloads.filter fun p => !p.hasFingerprint

variable {ps : List (Payload V W)}

/-- A loop whose every step writes its payload writes all of them. -/
theorem Writes.foldl {step : Outcome V W → Payload V W → Outcome V W}
    (hstep : ∀ p ∈ ps, ∀ items out, Writes refs caseId stored items out →
      Writes refs caseId stored (items ++ [p]) (step out p))
    (h : Writes refs caseId stored items out) :
    Writes refs caseId stored (items ++ ps) (ps.foldl step out) := by
  induction ps generalizing items out with
  | nil => simpa using h
  | cons p ps ih =>
    rw [List.foldl_cons, List.append_cons]
    exact ih (fun q hq => hstep q (.tail _ hq)) (hstep p (.head _) _ _ h)

/-- The bulk path is a loop of writes, the payloads with a fingerprint first. -/
theorem writes_createDetectionsBulk (payloads : List (Payload V W)) :
    Writes refs caseId stored (bulkOrder payloads)
      (createDetectionsBulk refs caseId stored payloads) := by
  have hfingerprints : (payloads.map (buildPayload refs)).filter Payload.hasFingerprint
      = (payloads.filter Payload.hasFingerprint).map (buildPayload refs) := List.filter_map ..
  have hfallbacks : ((payloads.map (buildPayload refs)).filter fun p => !p.hasFingerprint)
      = (payloads.filter fun p => !p.hasFingerprint).map (buildPayload refs) := List.filter_map ..
  unfold createDetectionsBulk
  simp only [hfingerprints, hfallbacks, List.foldl_map]
  refine Writes.foldl (fun p hp items out h => h.fallbackStep ?_) ?_
  · simpa using (List.mem_filter.1 hp).2
  · have hfirst : Writes refs caseId stored ([] ++ payloads.filter Payload.hasFingerprint)
        ((payloads.filter Payload.hasFingerprint).foldl
          (fun out p => Detections.bulkStep caseId stored out (buildPayload refs p))
          ⟨stored, 0, 0, 0⟩) :=
      Writes.foldl (fun p hp items out h => h.bulkStep (List.mem_filter.1 hp).2) Writes.start
    exact hfirst

/-! ### The one-by-one path as the same loop -/

variable (refs caseId stored)

/-- The lookup of a payload in the rows that the one-by-one path has reached comes to the same as
the lookup of the bulk path in the stored rows. -/
inductive Alike (rows : List (Detection V W)) (p : Payload V W) : Prop
  /-- Neither finds a row, and the payload is inserted with the same values. -/
  | inserted (single : getDetectionUnique caseId rows p = none)
      (bulk : bulkFound caseId stored p = none) (status : p.status ≠ some [])
      (source : p.hasFingerprint = true → p.sourceEngine = some (orElse p.sourceEngine p.engine))
  /-- Both find a row that is not stale. -/
  | idle (i j : ℕ) (single : getDetectionUnique caseId rows p = some i)
      (bulk : bulkFound caseId stored p = some j)
      (here : ∀ row, rows[i]? = some row → row.status ≠ stale)
      (there : ∀ row, stored[j]? = some row → row.status ≠ stale)
  /-- Both find the same row, and if it is stale it is revived to the same status. -/
  | same (i : ℕ) (single : getDetectionUnique caseId rows p = some i)
      (bulk : bulkFound caseId stored p = some i)
      (status : ∀ row, rows[i]? = some row → row.status = stale → p.status ≠ some [])

/-- `Alike`, for every payload in the rows that the payloads before it have left. -/
def AllAlike : List (Detection V W) → List (Payload V W) → Prop
  | _, [] => True
  | rows, p :: ps =>
    Alike caseId stored rows p ∧ AllAlike (createDetectionIfMissing refs caseId rows rows p).1 ps

variable {refs caseId stored}

theorem findIdx?_lt {α : Type} {f : α → Bool} {l : List α} {i : ℕ} (h : l.findIdx? f = some i) :
    i < l.length := (List.findIdx?_eq_some_iff_getElem.1 h).1

theorem getDetectionUnique_lt {rows : List (Detection V W)} {i : ℕ}
    (h : getDetectionUnique caseId rows p = some i) : i < rows.length := by
  unfold getDetectionUnique at h
  rcases Option.or_eq_some_iff.1 h with h | ⟨-, h⟩
  · obtain ⟨f, -, hf⟩ := Option.bind_eq_some_iff.1 h
    exact findIdx?_lt hf
  · exact findIdx?_lt h

theorem bulkFound_lt {i : ℕ} (h : bulkFound caseId stored p = some i) : i < stored.length := by
  unfold bulkFound at h
  split_ifs at h
  · exact lastAt_lt h
  · exact getDetectionUnique_lt h

variable {row : Detection V W}

theorem bulkUpdate_of_ne (p : Payload V W) (h : row.status ≠ stale) :
    bulkUpdate refs p row = row := if_neg h

/-- No payload changes a row that is not stale. -/
theorem overwritten_of_ne (items : List (Payload V W)) (i : ℕ) (h : row.status ≠ stale) :
    overwritten (bulkFound caseId stored) (bulkUpdate refs) items i row = row := by
  unfold overwritten
  induction items.filter fun b => bulkFound caseId stored b = some i with
  | nil => rfl
  | cons q rest ih => rw [List.foldl_cons, bulkUpdate_of_ne q h, ih]

theorem Writes.getElem?_of_ne (h : Writes refs caseId stored items out) {i : ℕ}
    (hrow : stored[i]? = some row) (hstale : row.status ≠ stale) : out.rows[i]? = some row := by
  rw [h.rows, getElem?_putAll_old (fun q _ j hj => bulkFound_lt hj) hrow,
    overwritten_of_ne items i hstale]

theorem modify_congr {α : Type} {f g : α → α} {l : List α} {i : ℕ}
    (h : ∀ a, l[i]? = some a → f a = g a) : l.modify i f = l.modify i g := by
  apply List.ext_getElem?
  intro j
  rw [List.getElem?_modify, List.getElem?_modify]
  by_cases hij : i = j
  · subst hij
    rcases hrow : l[i]? with - | a
    · rfl
    · simp [h a hrow]
  · simp [hij]

theorem modify_eq_self {α : Type} {f : α → α} {l : List α} {i : ℕ}
    (h : ∀ a, l[i]? = some a → f a = a) : l.modify i f = l := by
  rw [modify_congr (g := id) h, List.modify_id]

theorem orElse_getD_new {status : Option Text} (h : status ≠ some []) :
    status.getD new = orElse status new := by
  rcases status with - | ⟨- | ⟨c, s⟩⟩
  · rfl
  · exact absurd rfl h
  · rfl

variable {p : Payload V W}

theorem singlePayload_status (h : p.status ≠ some []) :
    (singlePayload refs p).status = (buildPayload refs p).status :=
  congrArg some (orElse_getD_new h)

/-- With a status that is not blank both paths insert the same row. -/
theorem detectionOf_singlePayload (hstatus : p.status ≠ some [])
    (hsource : p.hasFingerprint = true → p.sourceEngine = some (orElse p.sourceEngine p.engine)) :
    detectionOf caseId (singlePayload refs p) = bulkInsert refs caseId p := by
  have hkeys := normalizeForeignKeys_twice refs p.evidenceId p.artifactId
  have hnew := orElse_getD_new hstatus
  unfold bulkInsert
  split_ifs with hp
  · simp only [detectionOf, singlePayload, buildPayload, hnew, Option.getD_some]
    rw [← hsource hp]
  · simp only [detectionOf, singlePayload, buildPayload, hkeys, hnew, Option.getD_some]

theorem revive_singlePayload (hstatus : row.status = stale → p.status ≠ some []) :
    revive (singlePayload refs p) row = bulkUpdate refs p row := by
  unfold bulkUpdate revive
  split_ifs with hstale
  · rw [applyPayload, applyPayload, singlePayload_status (hstatus hstale)]
    rfl
  · rfl

/-- A payload whose lookups are alike is written by the one-by-one path as by the loop. -/
theorem Writes.singleStep (h : Writes refs caseId stored items out)
    (halike : Alike caseId stored out.rows p) :
    Writes refs caseId stored (items ++ [p])
      (countStep out (createDetectionIfMissing refs caseId out.rows out.rows p)) := by
  unfold createDetectionIfMissing
  cases halike with
  | inserted single bulk status source =>
    rw [single]
    refine h.created_of_none bulk ?_ rfl rfl
    rw [← detectionOf_singlePayload status source]
    rfl
  | idle i j single bulk here there =>
    rw [single]
    refine h.found bulk ?_ rfl rfl
    -- neither row changes
    have hj := bulkFound_lt bulk
    have hrow := h.getElem?_of_ne (List.getElem?_eq_getElem hj)
      (there _ (List.getElem?_eq_getElem hj))
    have hhere : out.rows.modify i (revive (singlePayload refs p)) = out.rows :=
      modify_eq_self fun row hrow' => if_neg (here row hrow')
    have hthere : out.rows.modify j (bulkUpdate refs p) = out.rows := by
      refine modify_eq_self fun row hrow' => bulkUpdate_of_ne p ?_
      rw [hrow] at hrow'
      exact Option.some.inj hrow' ▸ there _ (List.getElem?_eq_getElem hj)
    exact hhere.trans hthere.symm
  | same i single bulk status =>
    rw [single]
    refine h.found bulk ?_ rfl rfl
    exact modify_congr fun row hrow => revive_singlePayload (status row hrow)

theorem writes_createEach_from
    (h : Writes refs caseId stored items out) (halike : AllAlike refs caseId stored out.rows ps) :
    Writes refs caseId stored (items ++ ps) (ps.foldl
      (fun out p => countStep out (createDetectionIfMissing refs caseId out.rows out.rows p))
      out) := by
  induction ps generalizing items out with
  | nil => simpa using h
  | cons p ps ih =>
    rw [List.foldl_cons, List.append_cons]
    exact ih (h.singleStep halike.1) halike.2

/-! ### Two orders of writing -/

theorem perm_bulkOrder (payloads : List (Payload V W)) : (bulkOrder payloads).Perm payloads :=
  List.filter_append_perm _ payloads

variable {payloads : List (Payload V W)}

/-- Where no payload without a fingerprint comes before one with it, the bulk path keeps the
order. -/
theorem bulkOrder_eq
    (h : payloads.Pairwise fun p q => p.hasFingerprint = false → q.hasFingerprint = false) :
    bulkOrder payloads = payloads := by
  induction payloads with
  | nil => rfl
  | cons p ps ih =>
    obtain ⟨hp, hps⟩ := List.pairwise_cons.1 h
    have ih := ih hps
    unfold bulkOrder at ih ⊢
    by_cases hfirst : p.hasFingerprint = true
    · rw [List.filter_cons_of_pos hfirst, List.filter_cons_of_neg (by simp [hfirst]),
        List.cons_append, ih]
    · have hnone : ps.filter Payload.hasFingerprint = [] :=
        List.filter_eq_nil_iff.2 fun q hq => by simp [hp q hq (Bool.eq_false_iff.2 hfirst)]
      rw [hnone, List.nil_append] at ih
      rw [List.filter_cons_of_neg hfirst, hnone, List.nil_append,
        List.filter_cons_of_pos (by simp [hfirst]), ih]

theorem filter_bulkOrder (keep : Payload V W → Bool) (payloads : List (Payload V W)) :
    (bulkOrder payloads).filter keep = bulkOrder (payloads.filter keep) := by
  unfold bulkOrder
  rw [List.filter_append, List.filter_comm, List.filter_comm keep]

/-- No payload without a fingerprint finds a stale row before one with a fingerprint does. -/
def OrderKept (caseId : Text) (stored : List (Detection V W)) (payloads : List (Payload V W)) :
    Prop :=
  payloads.Pairwise fun p q =>
    p.hasFingerprint = false → q.hasFingerprint = true → ∀ i row,
      bulkFound caseId stored p = some i → bulkFound caseId stored q = some i →
        stored[i]? = some row → row.status ≠ stale

/-- The stored rows do not see the difference between the two orders. -/
theorem overwritten_bulkOrder (h : OrderKept caseId stored payloads)
    {i : ℕ} (hrow : stored[i]? = some row) :
    overwritten (bulkFound caseId stored) (bulkUpdate refs) (bulkOrder payloads) i row
      = overwritten (bulkFound caseId stored) (bulkUpdate refs) payloads i row := by
  by_cases hstale : row.status = stale
  · have hsame : bulkOrder (payloads.filter fun p => bulkFound caseId stored p = some i)
        = payloads.filter fun p => bulkFound caseId stored p = some i := by
      refine bulkOrder_eq (List.pairwise_filter.2 (List.Pairwise.imp ?_ h))
      intro p q hpq hp hq hpfirst
      by_contra hqfirst
      exact hpq hpfirst (by simpa using hqfirst) i row (by simpa using hp) (by simpa using hq)
        hrow hstale
    rw [overwritten, overwritten, filter_bulkOrder, hsame]
  · rw [overwritten_of_ne _ i hstale, overwritten_of_ne _ i hstale]

/-! ### Fingerprints -/

/-- The key of a live row with a fingerprint: its case and its fingerprint. -/
def liveKey (row : Detection V W) : Option (Text × Text) :=
  if row.deleted then none
  else (row.fingerprint.filter fun f => strip f ≠ []).map fun f => (row.caseId, f)

/-- The key of the row that is inserted for a payload. -/
def payloadKey (caseId : Text) (p : Payload V W) : Option (Text × Text) :=
  (p.fingerprint.filter fun f => strip f ≠ []).map fun f => (caseId, f)

/-- At most one non-deleted detection for each case and fingerprint. -/
def Unique (rows : List (Detection V W)) : Prop := (rows.filterMap liveKey).Nodup

theorem liveKey_bulkInsert (p : Payload V W) :
    liveKey (bulkInsert refs caseId p) = payloadKey caseId p := by
  unfold bulkInsert
  split_ifs <;> rfl

theorem liveKey_bulkUpdate (p : Payload V W) (row : Detection V W) :
    liveKey (bulkUpdate refs p row) = liveKey row := by
  unfold bulkUpdate revive
  split_ifs <;> rfl

theorem liveKey_overwritten (items : List (Payload V W)) (i : ℕ) (row : Detection V W) :
    liveKey (overwritten (bulkFound caseId stored) (bulkUpdate refs) items i row)
      = liveKey row := by
  unfold overwritten
  induction items.filter fun b => bulkFound caseId stored b = some i generalizing row with
  | nil => rfl
  | cons q rest ih => rw [List.foldl_cons, ih, liveKey_bulkUpdate]

/-- The stored rows with what was written to them, and behind them the new ones. -/
theorem Writes.rows_eq (h : Writes refs caseId stored items out) :
    out.rows = stored.mapIdx (overwritten (bulkFound caseId stored) (bulkUpdate refs) items) ++
      (fresh (bulkFound caseId stored) items).map (bulkInsert refs caseId) :=
  h.rows.trans (putAll_eq fun _ _ _ hj => bulkFound_lt hj)

/-- The keys after the writes: those of the stored rows, and those of the inserted payloads. -/
theorem Writes.keys (h : Writes refs caseId stored items out) :
    out.rows.filterMap liveKey = stored.filterMap liveKey ++
      (fresh (bulkFound caseId stored) items).filterMap (payloadKey caseId) := by
  have hold : (stored.mapIdx (overwritten (bulkFound caseId stored) (bulkUpdate refs) items)).map
      liveKey = stored.map liveKey := by
    apply List.ext_getElem?
    intro i
    rw [List.getElem?_map, List.getElem?_mapIdx, List.getElem?_map, Option.map_map]
    exact Option.map_congr fun row _ => liveKey_overwritten items i row
  have hinserted : liveKey ∘ bulkInsert refs caseId (V := V) (W := W) = payloadKey caseId :=
    funext liveKey_bulkInsert
  have hid : ∀ rows : List (Detection V W),
      rows.filterMap liveKey = (rows.map liveKey).filterMap id := by
    intro rows
    rw [List.filterMap_map]
    rfl
  rw [h.rows_eq, List.filterMap_append, hid, hold, ← hid, List.filterMap_map, hinserted]

/-! ### Many calls -/

/-- Calls of the bulk path for cases, one after the other. -/
def bulkCalls (refs : References) (rows : List (Detection V W))
    (calls : List (Text × List (Payload V W))) : List (Detection V W) :=
  calls.foldl (fun rows call => (createDetectionsBulk refs call.1 rows call.2).rows) rows

/-- **No number of bulk calls removes a detection, changes its fingerprint or touches one that is
not stale.** -/
theorem detections_survive (refs : References) (rows : List (Detection V W))
    (calls : List (Text × List (Payload V W))) (i : ℕ) (row : Detection V W)
    (h : rows[i]? = some row) : ∃ row', (bulkCalls refs rows calls)[i]? = some row' ∧
      liveKey row' = liveKey row ∧ (row.status ≠ stale → row' = row) := by
  induction calls generalizing rows row with
  | nil => exact ⟨row, h, rfl, fun _ => rfl⟩
  | cons call calls ih =>
    have hwrites := @writes_createDetectionsBulk V W refs call.1 rows call.2
    have hnext : (createDetectionsBulk refs call.1 rows call.2).rows[i]? = some
        (overwritten (bulkFound call.1 rows) (bulkUpdate refs) (bulkOrder call.2) i row) := by
      rw [hwrites.rows]
      exact getElem?_putAll_old (fun q _ j hj => bulkFound_lt hj) h
    obtain ⟨row', hrow', hkey, hsame⟩ := ih _ _ hnext
    refine ⟨row', hrow', hkey.trans (liveKey_overwritten _ i row), fun hstale => ?_⟩
    rw [overwritten_of_ne _ i hstale] at hsame
    exact hsame hstale

/-! ### Agreement -/

variable (refs caseId stored)

/-- Both paths leave the same detections (the stored ones in their places, the new ones in some
order), report the same counts, and keep fingerprints unique. -/
structure Agree (payloads : List (Payload V W)) : Prop where
  stored_rows : (createDetectionsBulk refs caseId stored payloads).rows.take stored.length
    = (createEach refs caseId stored payloads).rows.take stored.length
  new_rows : ((createDetectionsBulk refs caseId stored payloads).rows.drop stored.length).Perm
    ((createEach refs caseId stored payloads).rows.drop stored.length)
  created : (createDetectionsBulk refs caseId stored payloads).created
    = (createEach refs caseId stored payloads).created
  duplicates : (createDetectionsBulk refs caseId stored payloads).duplicates
    = (createEach refs caseId stored payloads).duplicates
  unique : Unique stored → Unique (createDetectionsBulk refs caseId stored payloads).rows ∧
    Unique (createEach refs caseId stored payloads).rows

/-- The payloads meet the stored rows and one another calmly. -/
structure Calm (payloads : List (Payload V W)) : Prop where
  alike : AllAlike refs caseId stored stored payloads
  order : OrderKept caseId stored payloads
  fingerprints : Unique stored → (stored.filterMap liveKey ++
    (fresh (bulkFound caseId stored) payloads).filterMap (payloadKey caseId)).Nodup

variable {refs caseId stored}

end

/-! ### Examples -/

/-- A payload of one rule about an event. -/
def eventPayload (event : String) (fingerprint : Option Text) : Payload Unit Unit where
  evidenceId := none
  artifactId := none
  ruleId := some "rule-1".toList
  ruleSetId := none
  engine := "sigma".toList
  sourceEngine := some "sigma".toList
  ruleName := "Encoded command".toList
  eventId := some event.toList
  opensearchId := some event.toList
  targetPath := none
  status := none
  fingerprint := fingerprint
  seen := ()
  kept := ()

def noReferences : References where
  evidences := []
  artifacts := []
  known := fun _ h => absurd h List.not_mem_nil

def storedRow (event : String) (status : Text) : Detection Unit Unit :=
  { detectionOf [] (eventPayload event (some event.toList)) with status := status }

theorem live_row_survives : ∃ row', (bulkCalls noReferences [storedRow "e2" new]
      [([], [eventPayload "e2" (some "e2".toList)]), ([], [eventPayload "e1" none])])[0]?
        = some row' ∧ liveKey row' = liveKey (storedRow "e2" new) ∧
      ((storedRow "e2" new).status ≠ stale → row' = storedRow "e2" new) :=
  detections_survive noReferences [storedRow "e2" new]
    [([], [eventPayload "e2" (some "e2".toList)]), ([], [eventPayload "e1" none])] 0
    (storedRow "e2" new) rfl

end Kairon.Detections

/-
Kairon/Correlation/Persist.lean

How `correlation_engine.py` stores what it has found: `_base_finding`'s payloads
are written to the table of findings by `_persist_findings`.

The rows to update are looked up by fingerprint before the loop, on a session
that does not flush, and a row keeps its status only if that status is in a list.
So a rerun is sound (`PersistSound`: one finding per case and fingerprint, nothing
to do the second time, no triage lost) exactly under `Persistable`.

A fingerprint is the digest of a case, a type and some events, a text that is
never empty: here any type with equality.  `R` is the type of the columns that a
payload also writes and that nothing here reads (title, description, severity,
timeline, ..); `O` is that of the columns no payload names (id, links, notes of
the analyst, ..).  A row is known by its place in the table, as an object of the
session is by its identity.
-/
import Kairon.Lib.Dict
import Kairon.Lib.Upsert

namespace Kairon.Correlation

open Upsert

variable {F R O : Type}

/-! ### Findings and payloads -/

inductive FindingStatus
  | draft | review | new | triaged | investigating | confirmed | falsePositive | archived
  | acceptedRisk | resolved | suppressed | reviewed | dismissed | open_ | closed
  deriving DecidableEq

/-- The `source` of what the engine writes. -/
def engineSource : String := "correlation_engine"

/-- A row of the table of findings. -/
structure Finding (F R O : Type) where
  caseId : String
  source : Option String
  status : FindingStatus
  evidenceId : Option String
  findingType : Option String
  relatedEvidenceIds : List String
  fingerprint : Option F
  occurrenceCount : ℕ
  lastSeenAt : Option ℤ
  content : R
  own : O

/-- What `_base_finding` returns for the case of the run.  Its status is always
`new` and its source always the engine. -/
structure Payload (F R : Type) where
  evidenceId : Option String
  findingType : String
  relatedEvidenceIds : List String
  fingerprint : F
  occurrenceCount : ℕ
  lastSeenAt : Option ℤ
  content : R
  /-- `max(len(..), 1)` -/
  counted : 1 ≤ occurrenceCount

/-- `payload["status"]` -/
def Payload.status (_ : Payload F R) : FindingStatus := .new

/-- `preserve_states` -/
def preserveStates : List FindingStatus :=
  [.reviewed, .confirmed, .dismissed, .falsePositive, .closed]

/-! ### `_persist_findings` -/

variable [DecidableEq F]

/-- `existing`: the findings of the engine in a case, by fingerprint.  Of two rows
with one fingerprint the later one stays. -/
def existing (rows : List (Finding F R O)) (caseId : String) : List (Option F × ℕ) :=
  (rows.zipIdx.filter fun x =>
      x.1.caseId = caseId ∧ x.1.fingerprint.isSome ∧ x.1.source = some engineSource).foldl
    (fun found x => Dict.set x.1.fingerprint x.2 found) []

/-- The status that a known finding gets. -/
def preservedStatus (preserveStatus forceResetStatus : Bool) (payload : Payload F R)
    (current : FindingStatus) : FindingStatus :=
  if preserveStatus ∧ ¬ forceResetStatus ∧ current ∈ preserveStates then current
  else payload.status

/-- A known finding takes every value of the payload but the status. -/
def updateFinding (preserveStatus forceResetStatus : Bool) (caseId : String)
    (payload : Payload F R) (current : Finding F R O) : Finding F R O :=
  let written : Finding F R O :=
    { current with
      caseId := caseId
      source := some engineSource
      status := preservedStatus preserveStatus forceResetStatus payload current.status
      evidenceId := payload.evidenceId
      findingType := some payload.findingType
      relatedEvidenceIds := payload.relatedEvidenceIds
      fingerprint := some payload.fingerprint
      occurrenceCount := payload.occurrenceCount
      lastSeenAt := payload.lastSeenAt
      content := payload.content }
  { written with
    lastSeenAt := payload.lastSeenAt
    occurrenceCount := max written.occurrenceCount payload.occurrenceCount }

/-- `Finding(**payload)`; the columns that the payload does not name have their
defaults. -/
def newFinding (caseId : String) (blank : O) (payload : Payload F R) : Finding F R O where
  caseId := caseId
  source := some engineSource
  status := payload.status
  evidenceId := payload.evidenceId
  findingType := some payload.findingType
  relatedEvidenceIds := payload.relatedEvidenceIds
  fingerprint := some payload.fingerprint
  occurrenceCount := payload.occurrenceCount
  lastSeenAt := payload.lastSeenAt
  content := payload.content
  own := blank

/-- The table, the findings `saved` by their places in it, and `deduplicated`. -/
structure Persisted (F R O : Type) where
  rows : List (Finding F R O)
  saved : List ℕ
  deduplicated : ℕ

/-- One round of the loop over the payloads. -/
def persistFinding (found : List (Option F × ℕ)) (preserveStatus forceResetStatus : Bool)
    (caseId : String) (blank : O) (done : Persisted F R O) (payload : Payload F R) :
    Persisted F R O :=
  match Dict.get found (some payload.fingerprint) with
  | some i =>
    { rows := done.rows.modify i
        (updateFinding preserveStatus forceResetStatus caseId payload)
      saved := done.saved ++ [i]
      deduplicated := done.deduplicated + 1 }
  | none =>
    { done with
      rows := done.rows ++ [newFinding caseId blank payload]
      saved := done.saved ++ [done.rows.length] }

/-- `_persist_findings` -/
def persistFindings (preserveStatus forceResetStatus : Bool) (caseId : String) (blank : O)
    (rows : List (Finding F R O)) (findings : List (Payload F R)) : Persisted F R O :=
  findings.foldl
    (persistFinding (existing rows caseId) preserveStatus forceResetStatus caseId blank)
    { rows := rows, saved := [], deduplicated := 0 }

/-! ### What a rerun should be -/

/-- The case and fingerprint of a finding of the engine. -/
def Finding.caseKey (row : Finding F R O) : Option (String × F) :=
  if row.source = some engineSource then row.fingerprint.map fun f => (row.caseId, f) else none

/-- Storing the findings, with the statuses preserved, is sound. -/
structure PersistSound (caseId : String) (blank : O) (rows : List (Finding F R O))
    (findings : List (Payload F R)) : Prop where
  /-- At most one finding of the engine per case and fingerprint. -/
  once : ((persistFindings true false caseId blank rows findings).rows.filterMap
    Finding.caseKey).Nodup
  /-- A second call with the same list changes nothing. -/
  again : (persistFindings true false caseId blank
      (persistFindings true false caseId blank rows findings).rows findings).rows =
    (persistFindings true false caseId blank rows findings).rows
  /-- No status that an analyst has set changes. -/
  triage : ∀ (i : ℕ) (row row' : Finding F R O), rows[i]? = some row →
    (persistFindings true false caseId blank rows findings).rows[i]? = some row' →
      row.status ≠ .new → row'.status = row.status

/-- The states and lists for which it is. -/
structure Persistable (caseId : String) (rows : List (Finding F R O))
    (findings : List (Payload F R)) : Prop where
  /-- Nothing is stored twice. -/
  storedOnce : (rows.filterMap Finding.caseKey).Nodup
  /-- No two payloads share a fingerprint that is not stored yet. -/
  newOnce : ((findings.map Payload.fingerprint).filter fun f =>
    (caseId, f) ∉ rows.filterMap Finding.caseKey).Nodup
  /-- A finding that is found again is `new` or has a status of the list. -/
  listed : ∀ row ∈ rows, ∀ payload ∈ findings, row.caseKey = some (caseId, payload.fingerprint) →
      row.status = .new ∨ row.status ∈ preserveStates

/-! ### The loop as an upsert -/

variable {row : Finding F R O} {caseId : String}

omit [DecidableEq F] in
theorem caseKey_eq_some {f : F} : row.caseKey = some (caseId, f) ↔
      row.caseId = caseId ∧ row.source = some engineSource ∧ row.fingerprint = some f := by
  rw [Finding.caseKey]
  by_cases hsource : row.source = some engineSource
  · rw [if_pos hsource]
    rcases hf : row.fingerprint with - | g
    · simp
    · simp [hsource]
  · rw [if_neg hsource]
    simp [hsource]

/-- The dictionary finds the last row of the case with the fingerprint. -/
theorem get_existing (rows : List (Finding F R O)) (caseId : String) (f : F) :
    Dict.get (existing rows caseId) (some f) = lastAt Finding.caseKey rows (caseId, f) := by
  rw [existing, Dict.get_foldl_set, lastAt, ← List.filter_reverse, List.find?_filter]
  show (Option.map Prod.snd _).or none = _
  rw [Option.or_none]
  congr 2
  funext x
  rw [Bool.eq_iff_iff]
  simp only [decide_eq_true_eq, caseKey_eq_some]
  constructor
  · rintro ⟨⟨hcase, -, hsource⟩, hf⟩
    exact ⟨hcase, hsource, hf⟩
  · rintro ⟨hcase, hsource, hf⟩
    exact ⟨⟨hcase, by rw [hf]; rfl, hsource⟩, hf⟩

/-- Where a payload goes. -/
def foundAt (rows : List (Finding F R O)) (caseId : String) (payload : Payload F R) : Option ℕ :=
  lastAt Finding.caseKey rows (caseId, payload.fingerprint)

theorem persistFindings_rows (preserveStatus forceResetStatus : Bool) (caseId : String) (blank : O)
    (rows : List (Finding F R O)) (findings : List (Payload F R)) :
    (persistFindings preserveStatus forceResetStatus caseId blank rows findings).rows =
      putAll (foundAt rows caseId) (updateFinding preserveStatus forceResetStatus caseId)
        (newFinding caseId blank) rows findings := by
  have hfold : ∀ done : Persisted F R O,
      (findings.foldl (persistFinding (existing rows caseId) preserveStatus forceResetStatus
        caseId blank) done).rows =
      findings.foldl (put (foundAt rows caseId)
        (updateFinding preserveStatus forceResetStatus caseId) (newFinding caseId blank))
        done.rows := by
    induction findings with
    | nil => exact fun done => rfl
    | cons payload findings ih =>
      intro done
      rw [List.foldl_cons, List.foldl_cons, ih, persistFinding, put, get_existing, foundAt]
      rcases lastAt Finding.caseKey rows (caseId, payload.fingerprint) with - | i
      · rfl
      · rfl
  exact hfold _

/-! ### What an update does to a row -/

section Update

omit [DecidableEq F]

variable {preserveStatus forceResetStatus : Bool} {caseId : String} {blank : O}

@[simp] theorem status_updateFinding (payload : Payload F R) (row : Finding F R O) :
    (updateFinding preserveStatus forceResetStatus caseId payload row).status =
      preservedStatus preserveStatus forceResetStatus payload row.status := rfl

@[simp] theorem caseKey_updateFinding (payload : Payload F R) (row : Finding F R O) :
    (updateFinding preserveStatus forceResetStatus caseId payload row).caseKey =
      some (caseId, payload.fingerprint) := rfl

theorem preservedStatus_twice (first second : Payload F R) (status : FindingStatus) :
    preservedStatus preserveStatus forceResetStatus second
        (preservedStatus preserveStatus forceResetStatus first status) =
      preservedStatus preserveStatus forceResetStatus second status := by
  rw [preservedStatus, preservedStatus, preservedStatus]
  by_cases h : preserveStatus ∧ ¬ forceResetStatus ∧ status ∈ preserveStates
  · rw [if_pos h, if_pos h]
  · have hnew : FindingStatus.new ∉ preserveStates := by decide
    rw [if_neg h, if_neg h, if_neg fun hin => hnew hin.2.2]

/-- A later payload leaves no trace of an earlier one. -/
theorem updateFinding_twice (first second : Payload F R) (row : Finding F R O) :
    updateFinding preserveStatus forceResetStatus caseId second
        (updateFinding preserveStatus forceResetStatus caseId first row) =
      updateFinding preserveStatus forceResetStatus caseId second row := by
  show ({ updateFinding preserveStatus forceResetStatus caseId second row with
    status := _ } : Finding F R O) = _
  rw [status_updateFinding, preservedStatus_twice]
  rfl

/-- A finding that was made of a payload is what the payload would make of it. -/
theorem updateFinding_newFinding (payload : Payload F R) :
    updateFinding preserveStatus forceResetStatus caseId payload (newFinding caseId blank payload) =
      newFinding caseId blank payload := by
  rw [updateFinding, newFinding, preservedStatus]
  simp [Payload.status]

/-- The status that any number of payloads, but at least one, leave a row with. -/
theorem status_overwritten {found : Payload F R → Option ℕ} {findings : List (Payload F R)}
    {i : ℕ} {payload : Payload F R} (hmem : payload ∈ findings) (hfound : found payload = some i)
    (row : Finding F R O) :
    (overwritten found (updateFinding preserveStatus forceResetStatus caseId) findings i row).status
      = preservedStatus preserveStatus forceResetStatus payload row.status := by
  have hsent : payload ∈ findings.filter fun p => found p = some i :=
    List.mem_filter.2 ⟨hmem, decide_eq_true hfound⟩
  rw [overwritten]
  generalize (findings.filter fun p => found p = some i) = sent at hsent
  rcases List.eq_nil_or_concat sent with rfl | ⟨sent, last, rfl⟩
  · cases hsent
  clear hsent
  rw [List.concat_eq_append, List.foldl_append]
  show (updateFinding preserveStatus forceResetStatus caseId last _).status = _
  induction sent generalizing row with
  | nil => rfl
  | cons first sent ih =>
    rw [List.foldl_cons, ih, status_updateFinding]
    exact preservedStatus_twice _ _ _

end Update

/-! ### Storing and storing again -/

theorem nodup_caseKey_iff (caseId : String) (blank : O) (rows : List (Finding F R O))
    (findings : List (Payload F R)) :
    ((persistFindings true false caseId blank rows findings).rows.filterMap
        Finding.caseKey).Nodup ↔
      (rows.filterMap Finding.caseKey).Nodup ∧ ((findings.map Payload.fingerprint).filter fun f =>
          (caseId, f) ∉ rows.filterMap Finding.caseKey).Nodup := by
  rw [persistFindings_rows]
  have h := @nodup_keys_putAll _ _ _ (updateFinding true false caseId) (newFinding caseId blank)
    _ Finding.caseKey (fun payload : Payload F R => (caseId, payload.fingerprint)) rows findings
    (fun payload row hrow => by rw [hrow, caseKey_updateFinding]) fun payload => rfl
  refine h.trans (and_congr_right fun _ => ?_)
  have hfresh : (fresh (foundAt rows caseId) findings).map (fun p => (caseId, p.fingerprint)) =
      ((findings.map Payload.fingerprint).filter fun f =>
        (caseId, f) ∉ rows.filterMap Finding.caseKey).map fun f => (caseId, f) := by
    rw [fresh, List.filter_map, List.map_map]
    refine congrArg (List.map _) (List.filter_congr fun payload _ => ?_)
    rw [Bool.eq_iff_iff, decide_eq_true_iff, Function.comp_apply, decide_eq_true_iff, foundAt,
      lastAt_eq_none, List.mem_filterMap]
    simp
  show ((fresh (foundAt rows caseId) findings).map fun p => (caseId, p.fingerprint)).Nodup ↔ _
  rw [hfresh]
  exact List.nodup_map_iff fun f g hfg => (Prod.mk.inj hfg).2

variable {findings : List (Payload F R)}

variable {rows : List (Finding F R O)}

theorem persistFindings_again {blank : O}
    (hnodup : ((persistFindings true false caseId blank rows findings).rows.filterMap
      Finding.caseKey).Nodup) :
    (persistFindings true false caseId blank
        (persistFindings true false caseId blank rows findings).rows findings).rows =
      (persistFindings true false caseId blank rows findings).rows := by
  rw [persistFindings_rows true false caseId blank
    (persistFindings true false caseId blank rows findings).rows]
  exact @putAll_idempotent _ _ _ _ _ _ Finding.caseKey
    (fun payload : Payload F R => (caseId, payload.fingerprint)) _ _ _
    (fun payload row hrow => by rw [hrow, caseKey_updateFinding]) (fun payload => rfl)
    (fun first second row => updateFinding_twice first second row)
    (fun payload => updateFinding_newFinding payload)
    (persistFindings_rows true false caseId blank rows findings) hnodup

/-- The row at a place where a finding was stored before. -/
theorem getElem?_persistFindings {preserveStatus forceResetStatus : Bool} {blank : O} {i : ℕ}
    (h : rows[i]? = some row) :
    (persistFindings preserveStatus forceResetStatus caseId blank rows findings).rows[i]? =
      some (overwritten (foundAt rows caseId)
        (updateFinding preserveStatus forceResetStatus caseId) findings i row) := by
  rw [persistFindings_rows]
  exact getElem?_putAll_old (fun payload _ j hj => lastAt_lt hj) h

omit [DecidableEq F] in
/-- A row that no payload goes to stays as it is. -/
theorem overwritten_of_notFound {found : Payload F R → Option ℕ}
    {update : Payload F R → Finding F R O → Finding F R O} {i : ℕ}
    (h : ∀ payload ∈ findings, found payload ≠ some i) (row : Finding F R O) :
    overwritten found update findings i row = row := by
  rw [overwritten, List.filter_eq_nil_iff.2]
  · rfl
  · exact fun payload hmem hd => h payload hmem (of_decide_eq_true hd)

/-- **Rerunning the engine** keeps the findings unique, does nothing the second
time and keeps every triage exactly if nothing was stored twice, no new
fingerprint comes twice, and the findings that are found again are `new` or have
a status that the code lists. -/
theorem persistSound_iff (caseId : String) (blank : O) (rows : List (Finding F R O))
    (findings : List (Payload F R)) :
    PersistSound caseId blank rows findings ↔ Persistable caseId rows findings := by
  constructor
  · intro h
    obtain ⟨hstored, hnew⟩ := (nodup_caseKey_iff caseId blank rows findings).1 h.once
    refine ⟨hstored, hnew, fun row hrow payload hpayload hkey => ?_⟩
    by_contra hstatus
    rw [not_or] at hstatus
    obtain ⟨i, hi⟩ := List.getElem?_of_mem hrow
    have hfound : foundAt rows caseId payload = some i := (lastAt_iff hstored hi).2 hkey
    have hkept := h.triage i row _ hi (getElem?_persistFindings hi) hstatus.1
    rw [status_overwritten hpayload hfound, preservedStatus, if_neg fun hin => hstatus.2 hin.2.2]
      at hkept
    exact hstatus.1 hkept.symm
  · intro h
    have hnodup := (nodup_caseKey_iff caseId blank rows findings).2 ⟨h.storedOnce, h.newOnce⟩
    refine ⟨hnodup, persistFindings_again hnodup, fun i row row' hi hi' hstatus => ?_⟩
    rw [getElem?_persistFindings hi] at hi'
    obtain rfl := Option.some.inj hi'
    by_cases hsent : ∃ payload ∈ findings, foundAt rows caseId payload = some i
    · obtain ⟨payload, hpayload, hfound⟩ := hsent
      have hkey := (lastAt_iff h.storedOnce hi).1 hfound
      have hlisted := (h.listed row (List.mem_of_getElem? hi) payload hpayload hkey).resolve_left
        hstatus
      rw [status_overwritten hpayload hfound, preservedStatus, if_pos ⟨rfl, by decide, hlisted⟩]
    · rw [overwritten_of_notFound fun payload hpayload hfound =>
        hsent ⟨payload, hpayload, hfound⟩]

/-! ### Many runs -/

/-- Runs of the engine in a case, one after the other. -/
def persistRuns (caseId : String) (blank : O) (rows : List (Finding F R O))
    (runs : List (List (Payload F R))) : List (Finding F R O) :=
  runs.foldl (fun rows findings => (persistFindings true false caseId blank rows findings).rows) rows

/-- What the payloads that are sent to a row leave as it is. -/
theorem overwritten_kept {i : ℕ} (h : rows[i]? = some row) :
    let row' := overwritten (foundAt rows caseId) (updateFinding true false caseId) findings i row
    row'.caseKey = row.caseKey ∧ row'.own = row.own ∧
      (row.status ∈ preserveStates → row'.status = row.status) := by
  rw [overwritten]
  have hkeys : ∀ payload ∈ findings.filter fun p => foundAt rows caseId p = some i,
      row.caseKey = some (caseId, payload.fingerprint) := by
    intro payload hp
    obtain ⟨row', hrow', hkey⟩ := lastAt_some (of_decide_eq_true (List.mem_filter.1 hp).2)
    exact Option.some.inj (h.symm.trans hrow') ▸ hkey
  generalize (findings.filter fun p => foundAt rows caseId p = some i) = sent at hkeys
  clear h
  induction sent generalizing row with
  | nil => exact ⟨rfl, rfl, fun _ => rfl⟩
  | cons payload sent ih =>
    obtain ⟨hpayload, hrest⟩ := List.forall_mem_cons.1 hkeys
    have hkey : (updateFinding true false caseId payload row).caseKey = row.caseKey :=
      (caseKey_updateFinding payload row).trans hpayload.symm
    obtain ⟨hkey', hown, hstatus⟩ := ih fun p hp => hkey.trans (hrest p hp)
    refine ⟨hkey'.trans hkey, hown, fun hin => ?_⟩
    have hsame : (updateFinding true false caseId payload row).status = row.status := by
      rw [status_updateFinding, preservedStatus, if_pos ⟨rfl, by decide, hin⟩]
    exact (hstatus (hsame ▸ hin)).trans hsame

/-- A finding that an analyst investigates. -/
def investigatedFinding : Finding ℕ Unit Unit where
  caseId := "case"
  source := some engineSource
  status := .investigating
  evidenceId := none
  findingType := some "usb_exfil_candidate"
  relatedEvidenceIds := ["E1"]
  fingerprint := some 7
  occurrenceCount := 1
  lastSeenAt := none
  content := ()
  own := ()

/-- The same finding, generated again. -/
def foundAgain : Payload ℕ Unit where
  evidenceId := none
  findingType := "usb_exfil_candidate"
  relatedEvidenceIds := ["E1"]
  fingerprint := 7
  occurrenceCount := 1
  lastSeenAt := none
  content := ()
  counted := le_rfl

/-- The rerun turns it back to `new`. -/
theorem investigation_reset : ¬ PersistSound "case" () [investigatedFinding] [foundAgain] := by
  intro h
  have hstatus := h.triage 0 investigatedFinding _ rfl
    (getElem?_persistFindings (i := 0) rfl) (by decide)
  rw [status_overwritten (List.mem_singleton.2 rfl) (by decide)] at hstatus
  exact absurd hstatus (by decide)

end Kairon.Correlation

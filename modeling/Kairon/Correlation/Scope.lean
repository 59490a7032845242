/-
Kairon/Correlation/Scope.lean

What a run of the correlation engine may touch.

A run can be restricted to some finding types and to one evidence.  The generated
findings are filtered by type and come from the events of that evidence; the
removal of stale findings looks at the evidence and at the fingerprints that were
generated, and not at the types.  So a finding that the run could not have
generated (`OutOfReach`) may be removed, and it may be overwritten if the run
generates its fingerprint.  `keepsOutOfReach_iff` says when neither happens.

`_generate_findings` is a parameter here: a `Generator` that makes its findings
of events of the run.
-/
import Kairon.Correlation.Persist

namespace Kairon.Correlation

open Upsert

variable {F R O V : Type}

/-! ### Generating -/

/-- An event; `V` is all but the evidence it comes from. -/
structure Event (V : Type) where
  evidenceId : Option String
  content : V

/-- The arguments of `_base_finding` for one finding, with the fingerprint made
of them. -/
structure Draft (F V R : Type) where
  findingType : String
  events : List (Event V)
  stableEventIds : List String
  fingerprint : F
  lastSeenAt : Option ℤ
  content : R

/-- `sorted({..})` -/
def sortedSet (values : List String) : List String :=
  values.dedup.insertionSort fun a b => a ≤ b

/-- `_base_finding` -/
def baseFinding (evidenceId : Option String) (draft : Draft F V R) : Payload F R where
  evidenceId := evidenceId
  findingType := draft.findingType
  relatedEvidenceIds :=
    sortedSet (draft.events.filterMap Event.evidenceId ++ evidenceId.toList)
  fingerprint := draft.fingerprint
  occurrenceCount := max draft.stableEventIds.dedup.length 1
  lastSeenAt := draft.lastSeenAt
  content := draft.content
  counted := le_max_right _ _

/-- `_generate_findings`: whatever it finds, it finds in the events it is given. -/
structure Generator (F V R : Type) where
  drafts : List (Event V) → List (Draft F V R)
  fromEvents : ∀ events, ∀ draft ∈ drafts events, ∀ event ∈ draft.events, event ∈ events

/-! ### The run -/

/-- What the run reads of a case. -/
structure CaseData (V : Type) where
  id : String
  evidenceIds : List String
  events : List (Event V)

/-- The arguments of `run_correlation_engine` that restrict it.  An empty list of
types stands for no restriction; the host, once resolved, is a test on events. -/
structure Request (V : Type) where
  evidenceId : Option String
  findingTypes : List String
  host : Option (Event V → Bool)
  forceResetStatus : Bool
  maxEvents : ℕ

/-- Whether an evidence is one of the run. -/
def inEvidence (evidenceId : Option String) (value : Option String) : Bool :=
  match evidenceId with
  | none => true
  | some e => value = some e

/-- The events of the run. -/
def runEvents (data : CaseData V) (request : Request V) : List (Event V) :=
  let events := data.events.filter fun event => inEvidence request.evidenceId event.evidenceId
  match request.host with
  | none => events.take request.maxEvents
  | some matchesHost => (events.filter matchesHost).take request.maxEvents

/-- `generated`, after the filter by type. -/
def generatedFindings (generator : Generator F V R) (data : CaseData V) (request : Request V) :
    List (Payload F R) :=
  ((generator.drafts (runEvents data request)).map (baseFinding request.evidenceId)).filter
    fun payload => request.findingTypes = [] ∨ payload.findingType ∈ request.findingTypes

/-- `_matches_scope` -/
def matchesScope (evidenceId : Option String) (caseEvidenceIds : List String)
    (item : Finding F R O) : Prop :=
  match evidenceId with
  | none => True
  | some e =>
    let related := item.relatedEvidenceIds.filter fun value => value ≠ ""
    item.evidenceId = some e ∨ e ∈ related ∨
      (item.evidenceId = none ∧ related = [] ∧ caseEvidenceIds.dedup.length = 1 ∧
        e ∈ caseEvidenceIds)

instance (evidenceId : Option String) (caseEvidenceIds : List String) (item : Finding F R O) :
    Decidable (matchesScope evidenceId caseEvidenceIds item) :=
  match evidenceId with
  | none => inferInstanceAs (Decidable True)
  | some _ => inferInstanceAs (Decidable (_ ∨ _ ∨ _))

variable [DecidableEq F]

/-- Whether a finding is one of `stale_items`. -/
def stale (caseId : String) (evidenceId : Option String) (caseEvidenceIds : List String)
    (active : List F) (item : Finding F R O) : Prop :=
  item.caseId = caseId ∧ item.source = some engineSource ∧
    matchesScope evidenceId caseEvidenceIds item ∧ ∃ f ∈ item.fingerprint, f ∉ active

instance (caseId : String) (evidenceId : Option String) (caseEvidenceIds : List String)
    (active : List F) (item : Finding F R O) :
    Decidable (stale caseId evidenceId caseEvidenceIds active item) :=
  inferInstanceAs (Decidable (_ ∧ _ ∧ _ ∧ _))

/-- `_remove_stale_correlation_findings` -/
def removeStale (caseId : String) (evidenceId : Option String) (caseEvidenceIds : List String)
    (active : List F) (rows : List (Finding F R O)) : List (Finding F R O) :=
  rows.filter fun item => ¬ stale caseId evidenceId caseEvidenceIds active item

/-- The ids of the evidences of the run. -/
def runEvidenceIds (data : CaseData V) (request : Request V) : List String :=
  data.evidenceIds.filter fun id => inEvidence request.evidenceId (some id)

/-- `active_fingerprints` -/
def activeFingerprints (generator : Generator F V R) (data : CaseData V) (request : Request V) :
    List F :=
  (generatedFindings generator data request).map Payload.fingerprint

/-- The table once the stale findings are removed; a run for a host removes none. -/
def keptFindings (generator : Generator F V R) (data : CaseData V) (request : Request V)
    (rows : List (Finding F R O)) : List (Finding F R O) :=
  match request.host with
  | none => removeStale data.id request.evidenceId (runEvidenceIds data request)
      (activeFingerprints generator data request) rows
  | some _ => rows

/-- The table after `run_correlation_engine`. -/
def runCorrelation (generator : Generator F V R) (data : CaseData V) (request : Request V)
    (blank : O) (rows : List (Finding F R O)) : List (Finding F R O) :=
  (persistFindings true request.forceResetStatus data.id blank
    (keptFindings generator data request rows) (generatedFindings generator data request)).rows

/-! ### What is out of reach -/

/-- A finding that the run could not have generated: its type is not requested, or
one of its events comes from another evidence. -/
def OutOfReach (request : Request V) (row : Finding F R O) : Prop :=
  (request.findingTypes ≠ [] ∧ ∀ t ∈ request.findingTypes, row.findingType ≠ some t) ∨
    ∃ e, request.evidenceId = some e ∧ ∃ related ∈ row.relatedEvidenceIds, related ≠ e

/-- The run leaves what is out of its reach. -/
def KeepsOutOfReach (generator : Generator F V R) (data : CaseData V) (request : Request V)
    (blank : O) (rows : List (Finding F R O)) : Prop :=
  ∀ row ∈ rows, OutOfReach request row → row ∈ runCorrelation generator data request blank rows

/-- Every stored finding of the engine that is out of reach is outside the scope of
the removal or, if its fingerprint is generated, not the one that is overwritten. -/
def OutOfTheWay (generator : Generator F V R) (data : CaseData V) (request : Request V)
    (rows : List (Finding F R O)) : Prop :=
  ∀ row ∈ rows, OutOfReach request row → ∀ f, row.caseKey = some (data.id, f) →
    (f ∉ activeFingerprints generator data request →
      ¬ matchesScope request.evidenceId (runEvidenceIds data request) row) ∧
    (f ∈ activeFingerprints generator data request →
      (rows.filter fun other => other.caseKey = some (data.id, f)).getLast? ≠ some row)

/-! ### What is generated is within reach -/

omit [DecidableEq F] in
/-- What a payload writes carries its type and its evidences. -/
structure WrittenBy (payload : Payload F R) (row : Finding F R O) : Prop where
  findingType : row.findingType = some payload.findingType
  relatedEvidenceIds : row.relatedEvidenceIds = payload.relatedEvidenceIds

variable {data : CaseData V} {request : Request V}

omit [DecidableEq F] in
theorem mem_runEvents {event : Event V}
    (h : event ∈ runEvents data request) : inEvidence request.evidenceId event.evidenceId := by
  rw [runEvents] at h
  rcases hhost : request.host with - | matchesHost
  · rw [hhost] at h
    exact (List.mem_filter.1 (List.mem_of_mem_take h)).2
  · rw [hhost] at h
    exact (List.mem_filter.1 (List.mem_filter.1 (List.mem_of_mem_take h)).1).2

variable {generator : Generator F V R} {row : Finding F R O}

variable {payload : Payload F R}

omit [DecidableEq F] in
/-- A finding that the run has written is not out of its reach. -/
theorem not_outOfReach_of_written (hpayload : payload ∈ generatedFindings generator data request)
    (hrow : WrittenBy payload row) : ¬ OutOfReach request row := by
  obtain ⟨hmade, htype⟩ := List.mem_filter.1 hpayload
  rintro (⟨hne, hnone⟩ | ⟨e, he, related, hrelated, hother⟩)
  · -- its type is requested
    have hmem := (of_decide_eq_true htype).resolve_left hne
    exact hnone _ hmem hrow.findingType
  · -- its events are of the evidence
    obtain ⟨draft, hdraft, rfl⟩ := List.mem_map.1 hmade
    rw [hrow.relatedEvidenceIds] at hrelated
    have hmem : related ∈ draft.events.filterMap Event.evidenceId ++ request.evidenceId.toList := by
      simpa [baseFinding, sortedSet, List.mem_insertionSort] using hrelated
    rcases List.mem_append.1 hmem with hmem | hmem
    · obtain ⟨event, hevent, hid⟩ := List.mem_filterMap.1 hmem
      have hin := mem_runEvents (generator.fromEvents _ draft hdraft event hevent)
      rw [he, hid] at hin
      exact hother (Option.some.inj (of_decide_eq_true hin))
    · rw [he] at hmem
      exact hother (List.mem_singleton.1 hmem)

variable {preserveStatus force : Bool} {caseId : String} {findings : List (Payload F R)}

omit [DecidableEq F] in
/-- An old row that a payload went to has been written by one. -/
theorem overwritten_written {found : Payload F R → Option ℕ} {i : ℕ}
    (hmem : payload ∈ findings) (hfound : found payload = some i) (row : Finding F R O) :
    ∃ last ∈ findings, WrittenBy last
      (overwritten found (updateFinding preserveStatus force caseId) findings i row) := by
  have hsent : payload ∈ findings.filter fun p => found p = some i :=
    List.mem_filter.2 ⟨hmem, decide_eq_true hfound⟩
  rw [overwritten]
  rcases (findings.filter fun p => found p = some i).eq_nil_or_concat with
    hnil | ⟨sent, last, hconcat⟩
  · rw [hnil] at hsent
    cases hsent
  · have hlast : last ∈ findings.filter fun p => found p = some i := by
      rw [hconcat, List.concat_eq_append]
      exact List.mem_append_right _ (List.mem_singleton.2 rfl)
    refine ⟨last, List.mem_of_mem_filter hlast, ?_⟩
    rw [hconcat, List.concat_eq_append, List.foldl_append]
    exact ⟨rfl, rfl⟩

variable {rows : List (Finding F R O)}

/-- A row of the table afterwards is one that no payload went to, or written by a
payload. -/
theorem mem_persistFindings {blank : O}
    (h : row ∈ (persistFindings preserveStatus force caseId blank rows findings).rows) :
    (∃ i, rows[i]? = some row ∧ ∀ payload ∈ findings, foundAt rows caseId payload ≠ some i) ∨
      ∃ payload ∈ findings, WrittenBy payload row := by
  have hbound : ∀ payload ∈ findings, ∀ j, foundAt rows caseId payload = some j →
      j < rows.length := fun payload _ j hj => lastAt_lt hj
  rw [persistFindings_rows, putAll_eq hbound, List.mem_append] at h
  rcases h with h | h
  · obtain ⟨i, hi⟩ := List.getElem?_of_mem h
    rw [List.getElem?_mapIdx] at hi
    rcases hold : rows[i]? with - | old
    · rw [hold] at hi
      cases hi
    rw [hold] at hi
    obtain rfl := Option.some.inj hi
    by_cases hsent : ∃ payload ∈ findings, foundAt rows caseId payload = some i
    · obtain ⟨payload, hpayload, hfound⟩ := hsent
      exact .inr (overwritten_written hpayload hfound old)
    · have hnone : ∀ payload ∈ findings, foundAt rows caseId payload ≠ some i :=
        fun payload hpayload hfound => hsent ⟨payload, hpayload, hfound⟩
      refine .inl ⟨i, ?_, hnone⟩
      rw [hold, overwritten_of_notFound hnone]
  · obtain ⟨payload, hpayload, rfl⟩ := List.mem_map.1 h
    exact .inr ⟨payload, List.mem_of_mem_filter hpayload, rfl, rfl⟩

/-! ### Removal -/

/-- A finding whose fingerprint is generated is not removed, so that the row that
is overwritten is the same before and after the removal. -/
theorem getLast_kept (hhost : request.host = none) (rows : List (Finding F R O)) {f : F}
    (hactive : f ∈ activeFingerprints generator data request) :
    ((keptFindings generator data request rows).filter fun row =>
        row.caseKey = some (data.id, f)).getLast? =
      (rows.filter fun row => row.caseKey = some (data.id, f)).getLast? := by
  rw [keptFindings, hhost]
  show ((removeStale _ _ _ _ rows).filter _).getLast? = _
  rw [removeStale, List.filter_filter]
  refine congrArg List.getLast? (List.filter_congr fun row _ => ?_)
  rw [Bool.eq_iff_iff, Bool.and_eq_true, decide_eq_true_iff, decide_eq_true_iff]
  refine ⟨And.left, fun hkey => ⟨hkey, ?_⟩⟩
  rintro ⟨-, -, -, g, hg, hstale⟩
  rw [Option.mem_def, (caseKey_eq_some.1 hkey).2.2] at hg
  exact hstale (Option.some.inj hg ▸ hactive)

theorem mem_keptFindings (hhost : request.host = none) :
    row ∈ keptFindings generator data request rows ↔ row ∈ rows ∧
      ¬ stale data.id request.evidenceId (runEvidenceIds data request)
        (activeFingerprints generator data request) row := by
  rw [keptFindings, hhost]
  show row ∈ removeStale _ _ _ _ rows ↔ _
  rw [removeStale, List.mem_filter, decide_eq_true_iff]

/-- Where the last of the rows with a fingerprint stands. -/
theorem foundAt_iff (hrows : (rows.map Finding.own).Nodup) {i : ℕ} (hi : rows[i]? = some row) :
    foundAt rows caseId payload = some i ↔
      (rows.filter fun other => other.caseKey = some (caseId, payload.fingerprint)).getLast? =
        some row := by
  rw [← lastAt_row, foundAt]
  rcases h : lastAt Finding.caseKey rows (caseId, payload.fingerprint) with - | j
  · simp
  · rw [Option.bind_some]
    constructor
    · intro hij
      rw [Option.some.inj hij]
      exact hi
    · intro hj
      obtain ⟨hilt, hi⟩ := List.getElem?_eq_some_iff.1 hi
      obtain ⟨hjlt, hj⟩ := List.getElem?_eq_some_iff.1 hj
      have hjmap : j < (rows.map Finding.own).length := by rwa [List.length_map]
      have himap : i < (rows.map Finding.own).length := by rwa [List.length_map]
      have hown : (rows.map Finding.own)[j] = (rows.map Finding.own)[i] := by
        rw [List.getElem_map, List.getElem_map, hi, hj]
      rw [(List.Nodup.getElem_inj_iff hrows).1 hown]

/-! ### The frame of a run -/

/-- What is out of reach is kept by a run if and only if it was not removed and no
payload went to its place. -/
theorem mem_runCorrelation_iff {blank : O} (hhost : request.host = none)
    (hrows : (rows.map Finding.own).Nodup) (hrow : row ∈ rows) (hout : OutOfReach request row) :
    row ∈ runCorrelation generator data request blank rows ↔
      ¬ stale data.id request.evidenceId (runEvidenceIds data request)
        (activeFingerprints generator data request) row ∧
      ∀ f ∈ activeFingerprints generator data request,
        (rows.filter fun other => other.caseKey = some (data.id, f)).getLast? ≠ some row := by
  have hkept : ((keptFindings generator data request rows).map Finding.own).Nodup := by
    rw [keptFindings, hhost]
    exact (List.Sublist.map _ List.filter_sublist).nodup hrows
  constructor
  · intro hmem
    rcases mem_persistFindings hmem with ⟨i, hi, hnone⟩ | ⟨payload, hpayload, hwritten⟩
    · refine ⟨((mem_keptFindings hhost).1 (List.mem_of_getElem? hi)).2, fun f hf hlast => ?_⟩
      obtain ⟨payload, hpayload, rfl⟩ := List.mem_map.1 hf
      rw [← getLast_kept hhost rows hf] at hlast
      exact hnone payload hpayload ((foundAt_iff hkept hi).2 hlast)
    · exact absurd hout (not_outOfReach_of_written hpayload hwritten)
  · rintro ⟨hstale, hlast⟩
    obtain ⟨i, hi⟩ := List.getElem?_of_mem ((mem_keptFindings hhost).2 ⟨hrow, hstale⟩)
    have hnone : ∀ payload ∈ generatedFindings generator data request,
        foundAt (keptFindings generator data request rows) data.id payload ≠ some i := by
      intro payload hpayload hfound
      have hf := List.mem_map_of_mem (f := Payload.fingerprint) hpayload
      refine hlast payload.fingerprint hf ?_
      rw [← getLast_kept hhost rows hf]
      exact (foundAt_iff hkept hi).1 hfound
    refine List.mem_of_getElem? (i := i) ?_
    rw [runCorrelation, getElem?_persistFindings hi, overwritten_of_notFound hnone]

/-- **A restricted run** leaves every finding out of its reach exactly if each of
them that the engine has stored is out of the way: outside the scope of the
removal if its fingerprint is not generated, and not the row that is overwritten
if it is. -/
theorem keepsOutOfReach_iff (generator : Generator F V R) (data : CaseData V)
    (request : Request V) (hhost : request.host = none) (blank : O)
    (rows : List (Finding F R O)) (hrows : (rows.map Finding.own).Nodup) :
    KeepsOutOfReach generator data request blank rows ↔
      OutOfTheWay generator data request rows := by
  refine forall₃_congr fun row hrow hout => ?_
  rw [mem_runCorrelation_iff hhost hrows hrow hout]
  constructor
  · rintro ⟨hstale, hlast⟩ f hkey
    refine ⟨fun hf hscope => hstale ?_, hlast f⟩
    obtain ⟨hcase, hsource, hfingerprint⟩ := caseKey_eq_some.1 hkey
    exact ⟨hcase, hsource, hscope, f, hfingerprint, hf⟩
  · intro h
    constructor
    · rintro ⟨hcase, hsource, hscope, f, hfingerprint, hf⟩
      exact (h f (caseKey_eq_some.2 ⟨hcase, hsource, hfingerprint⟩)).1 hf hscope
    · intro f hf hlast
      have hkey := (List.mem_filter.1 (List.mem_of_getLast? hlast)).2
      exact (h f (of_decide_eq_true hkey)).2 hf hlast

/-! ### A run for one type, and a run for one evidence -/

/-- A generator that finds nothing. -/
def findsNothing : Generator ℕ Unit Unit where
  drafts := fun _ => []
  fromEvents := fun _ _ hdraft => absurd hdraft (List.not_mem_nil)

/-- A case with two evidences. -/
def twoEvidences : CaseData Unit where
  id := "case"
  evidenceIds := ["E1", "E2"]
  events := []

/-- A run for one finding type. -/
def onlyUsb : Request Unit where
  evidenceId := none
  findingTypes := ["usb_exfil_candidate"]
  host := none
  forceResetStatus := false
  maxEvents := 20000

/-- A run for one evidence. -/
def onlyFirstEvidence : Request Unit :=
  { onlyUsb with evidenceId := some "E1", findingTypes := [] }

/-- A confirmed finding of another type. -/
def confirmedCleanup : Finding ℕ Unit ℕ where
  caseId := "case"
  source := some engineSource
  status := .confirmed
  evidenceId := none
  findingType := some "execution_cleanup"
  relatedEvidenceIds := ["E2"]
  fingerprint := some 3
  occurrenceCount := 2
  lastSeenAt := none
  content := ()
  own := 1

/-- A run for USB findings deletes it. -/
theorem confirmed_finding_deleted :
    ¬ KeepsOutOfReach findsNothing twoEvidences onlyUsb 0 [confirmedCleanup] := by
  intro h
  have hout : OutOfReach onlyUsb confirmedCleanup := .inl ⟨by decide, by decide⟩
  have hmem := h confirmedCleanup (List.mem_singleton.2 rfl) hout
  have hnodup : ([confirmedCleanup].map Finding.own).Nodup := by decide
  have hkept := (mem_runCorrelation_iff rfl hnodup (List.mem_singleton.2 rfl) hout).1 hmem
  exact hkept.1 ⟨rfl, rfl, trivial, 3, rfl, List.not_mem_nil⟩

/-- A run for the first evidence keeps it: it is of the second one only. -/
theorem other_evidence_kept :
    KeepsOutOfReach findsNothing twoEvidences onlyFirstEvidence 0 [confirmedCleanup] := by
  refine (keepsOutOfReach_iff findsNothing twoEvidences onlyFirstEvidence rfl 0
    [confirmedCleanup] (List.nodup_singleton _)).2 ?_
  intro row hrow _ f _
  obtain rfl := List.mem_singleton.1 hrow
  refine ⟨fun _ => by decide, fun hf => ?_⟩
  exact absurd hf List.not_mem_nil

end Kairon.Correlation

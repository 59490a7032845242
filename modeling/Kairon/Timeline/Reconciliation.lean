/-
Kairon/Timeline/Reconciliation.lean

What becomes of bookmarks, detections and findings when an evidence is processed again
(`services/reconciliation.py`).

The events have new ids after that; a stable id, which is read off the event or computed
from it, leads from an old id to the new one.  A bookmark gets the new id, and only then
its `remap_status`: the id that the baseline is asked for is the new one, and what the
baseline has for it is a stable id.  So the status says something else than what happened
to the id, while the counts are taken before.  `reportsTruly_iff` says when the two agree;
that a second run changes no id and counts nothing holds always (`reconcile_again`).

How a stable id is computed from an event is a parameter, and so is which events of the
case the search returns.
-/
import Mathlib
import Kairon.Lib.Dict
import Kairon.Search.Syntax

namespace Kairon.Reconciliation

open Search (Text strip strip_strip)

/-! ### Data -/

/-- An event, as far as it is read here, with whatever else is in it. -/
structure Event (R : Type) where
  id : Option Text
  eventId : Option Text
  stableEventId : Option Text
  eventFingerprint : Option Text
  rest : R

inductive RemapStatus
  | current | remapped | stale

structure TimelineBookmark where
  eventId : Text
  stableEventId : Option Text
  remapStatus : Option RemapStatus

structure DetectionResult where
  eventId : Option Text
  opensearchId : Option Text
  matchedStableEventId : Option Text
  dedupFingerprint : Option Text
  status : Text
  analystNote : Option Text

/-- A finding of the correlation engine. -/
structure Finding where
  relatedEventIds : List Text
  relatedStableEventIds : List Text

/-- The status and the note a detection had. -/
structure Preserved where
  status : Option Text
  analystNote : Option Text

/-- `reconciliation_baseline`; the stable ids in it were stripped when it was captured. -/
structure Baseline where
  oldEventIdToStableEventId : List (Text × Text)
  detectionStatusByFingerprint : List (Text × Preserved)
  stripped : ∀ entry ∈ oldEventIdToStableEventId, strip entry.2 = entry.2

/-- The rows of a case. -/
structure Rows where
  bookmarks : List TimelineBookmark
  detections : List DetectionResult
  findings : List Finding

/-! ### Stable ids -/

/-- `str(a or b or "")`. -/
def firstOf (a b : Option Text) : Text := if a.getD [] ≠ [] then a.getD [] else b.getD []

section

variable {R : Type} (compute : Event R → Option Text)

/-- `_stable_event_id_for_event`. -/
def stableEventId (event : Event R) : Option Text :=
  let value := strip (firstOf event.stableEventId event.eventFingerprint)
  if value ≠ [] then some value else compute event

/-- The entry of `stable_to_current`. -/
structure Current where
  eventId : Text
  opensearchId : Text

def Event.current (event : Event R) : Current where
  eventId := firstOf event.eventId event.id
  opensearchId := firstOf event.id event.eventId

/-- The loop over the events of the evidence; the last event of a stable id stays. -/
def stableToCurrent (events : List (Event R)) : List (Text × Current) :=
  events.foldl (fun table event =>
    match (stableEventId compute event).filter (· ≠ []) with
    | some stableId => Dict.set stableId event.current table
    | none => table) []

/-! ### The baseline -/

/-- `event_map` of `capture_reprocess_baseline`. -/
def eventMap (events : List (Event R)) : List (Text × Text) :=
  events.foldl (fun table event =>
    let technicalId := strip (firstOf event.id event.eventId)
    match (stableEventId compute event).filter (· ≠ []) with
    | some stableId => if technicalId ≠ [] then Dict.set technicalId stableId table else table
    | none => table) []

/-! ### Reconciliation -/

variable (baseline : Baseline)

/-- The stable id of a bookmark, its own or else the one of its event. -/
def stableIdOf (bookmark : TimelineBookmark) : Option Text :=
  let own := strip (bookmark.stableEventId.getD [])
  if own ≠ [] then some own
  else (Dict.get baseline.oldEventIdToStableEventId bookmark.eventId).filter (· ≠ [])

variable (table : List (Text × Current))

/-- The body of the loop over the bookmarks. -/
def reconcileBookmark (bookmark : TimelineBookmark) : TimelineBookmark :=
  match stableIdOf baseline bookmark with
  | none => bookmark
  | some stableId =>
    match Dict.get table stableId with
    | some current =>
      -- the baseline is asked for the id that has just been written
      { stableEventId := some stableId
        eventId := current.eventId
        remapStatus := some (
          if Dict.get baseline.oldEventIdToStableEventId current.eventId ≠
            some current.eventId then .remapped else .current) }
    | none => { bookmark with stableEventId := some stableId, remapStatus := some .stale }

/-- Whether a bookmark is counted as remapped. -/
def isRemapped (bookmark : TimelineBookmark) : Bool :=
  ((stableIdOf baseline bookmark).bind (Dict.get table)).any fun current =>
    bookmark.eventId ≠ current.eventId

/-- Whether a bookmark is counted as stale. -/
def isStale (bookmark : TimelineBookmark) : Bool :=
  (stableIdOf baseline bookmark).any fun stableId => (Dict.get table stableId).isNone

/-- The status and the note that the baseline has for a detection. -/
def restoreDetection (detection : DetectionResult) : DetectionResult :=
  match (detection.dedupFingerprint.filter (· ≠ [])).bind
      (Dict.get baseline.detectionStatusByFingerprint) with
  | none => detection
  | some preserved =>
    { detection with
      status := match preserved.status with
        | some status => if status ∉ [[], "stale".toList] then status else detection.status
        | none => detection.status
      analystNote :=
        if preserved.analystNote.getD [] ≠ [] ∧ detection.analystNote.getD [] = [] then
          preserved.analystNote
        else detection.analystNote }

/-- `text or None`, and else what is there. -/
def orOld (text : Text) (old : Option Text) : Option Text := if text ≠ [] then some text else old

/-- The body of the loop over the detections. -/
def reconcileDetection (detection : DetectionResult) : DetectionResult :=
  let restored := restoreDetection baseline detection
  match Dict.get table (strip (detection.matchedStableEventId.getD [])) with
  | some current =>
    { restored with
      eventId := orOld current.eventId restored.eventId
      opensearchId := orOld current.opensearchId restored.opensearchId
      status := if restored.status = "stale".toList then "new".toList else restored.status }
  | none => restored

/-- The body of the loop over the findings. -/
def reconcileFinding (finding : Finding) : Finding :=
  let stableIds := finding.relatedStableEventIds.filter (· ≠ [])
  if stableIds ≠ [] then
    { finding with
      relatedEventIds := stableIds.filterMap fun stableId =>
        (Dict.get table stableId).map Current.eventId }
  else finding

/-- What the report says about the rows. -/
structure Report where
  findingsMatchedExisting : ℕ
  detectionsMatchedExisting : ℕ
  keyEventsRemapped : ℕ
  keyEventsStale : ℕ

/-- `reconcile_reprocessed_evidence`, with the events that the search returns. -/
def reconcileReprocessedEvidence (scope : List (Event R)) (rows : Rows) : Rows × Report :=
  let table := stableToCurrent compute scope
  ({ bookmarks := rows.bookmarks.map (reconcileBookmark baseline table)
     detections := rows.detections.map (reconcileDetection baseline table)
     findings := rows.findings.map (reconcileFinding table) },
   { findingsMatchedExisting :=
       rows.findings.countP fun finding => finding.relatedStableEventIds.any (· ≠ [])
     detectionsMatchedExisting := rows.detections.countP fun detection =>
       ((detection.dedupFingerprint.filter (· ≠ [])).bind
         (Dict.get baseline.detectionStatusByFingerprint)).isSome
     keyEventsRemapped := rows.bookmarks.countP (isRemapped baseline table)
     keyEventsStale := rows.bookmarks.countP (isStale baseline table) })

/-! ### What the report promises -/

/-- The event that a stable id leads to: the last one that has it. -/
def lastEvent (scope : List (Event R)) (stableId : Text) : Option (Event R) :=
  scope.reverse.find? fun event => stableEventId compute event = some stableId

/-- Some event of the case has the stable id. -/
def Present (events : List (Event R)) (stableId : Text) : Prop :=
  ∃ event ∈ events, stableEventId compute event = some stableId

/-- The status of a bookmark says what became of its id and of its event. -/
structure StatusTrue (events : List (Event R)) (stableId : Text)
    (before after : TimelineBookmark) : Prop where
  remapped : after.remapStatus = some .remapped ↔ after.eventId ≠ before.eventId
  current : after.remapStatus = some .current ↔
    Present compute events stableId ∧ after.eventId = before.eventId
  stale : after.remapStatus = some .stale ↔ ¬ Present compute events stableId

open Classical in
/-- The report matches what happened. -/
structure ReportsTruly (events scope : List (Event R)) (rows : Rows) : Prop where
  status : ∀ bookmark ∈ rows.bookmarks, ∀ stableId, stableIdOf baseline bookmark = some stableId →
    StatusTrue compute events stableId bookmark
      (reconcileBookmark baseline (stableToCurrent compute scope) bookmark)
  remapped : (reconcileReprocessedEvidence compute baseline scope rows).2.keyEventsRemapped =
    rows.bookmarks.countP fun bookmark => (stableIdOf baseline bookmark).isSome ∧
      (reconcileBookmark baseline (stableToCurrent compute scope) bookmark).eventId ≠ bookmark.eventId
  stale : (reconcileReprocessedEvidence compute baseline scope rows).2.keyEventsStale =
    rows.bookmarks.countP fun bookmark =>
      ∃ stableId, stableIdOf baseline bookmark = some stableId ∧ ¬ Present compute events stableId
  again : let rows' := (reconcileReprocessedEvidence compute baseline scope rows).1
    let second := reconcileReprocessedEvidence compute baseline scope rows'
    second.1.bookmarks.map TimelineBookmark.eventId = rows'.bookmarks.map TimelineBookmark.eventId ∧
    second.1.detections.map DetectionResult.eventId = rows'.detections.map DetectionResult.eventId ∧
    second.1.findings.map Finding.relatedEventIds = rows'.findings.map Finding.relatedEventIds ∧
    second.2.keyEventsRemapped = 0

/-- The bookmark's event is in what the search returned, and its id changed exactly where the
baseline does not have the new id as the stable id of the new id; or it is nowhere in the case. -/
structure Fits (events scope : List (Event R)) (stableId : Text) (bookmark : TimelineBookmark) :
    Prop where
  found : ∀ event, lastEvent compute scope stableId = some event →
    (Dict.get baseline.oldEventIdToStableEventId event.current.eventId ≠
      some event.current.eventId ↔ event.current.eventId ≠ bookmark.eventId)
  gone : lastEvent compute scope stableId = none → ¬ Present compute events stableId

end

section

variable {R : Type} {compute : Event R → Option Text} {baseline : Baseline}

/-! ### The table of current events -/

variable {stableId : Text}

theorem get_stableToCurrent (scope : List (Event R)) (h : stableId ≠ []) :
    Dict.get (stableToCurrent compute scope) stableId =
      (lastEvent compute scope stableId).map Event.current := by
  have hfold : ∀ (events : List (Event R)) (table : List (Text × Current)),
      Dict.get (events.foldl (fun table event =>
        match (stableEventId compute event).filter (· ≠ []) with
        | some stableId => Dict.set stableId event.current table
        | none => table) table) stableId =
      ((lastEvent compute events stableId).map Event.current).or (Dict.get table stableId) := by
    intro events
    induction events with
    | nil => exact fun _ => rfl
    | cons event events ih =>
      intro table
      rw [List.foldl_cons, ih, lastEvent, lastEvent, List.reverse_cons, List.find?_append]
      cases events.reverse.find? fun event => stableEventId compute event = some stableId with
      | some later => rfl
      | none =>
        rw [Option.none_or, Option.map_none, Option.none_or, List.find?_singleton]
        cases hfilter : (stableEventId compute event).filter (· ≠ []) with
        | none =>
          have hne : stableEventId compute event ≠ some stableId := fun heq => by
            rw [heq, Option.filter_some, if_pos (decide_eq_true h)] at hfilter
            cases hfilter
          rw [if_neg (by simpa using hne)]
          rfl
        | some other =>
          obtain ⟨hother, -⟩ := Option.filter_eq_some_iff.1 hfilter
          rw [hother, Dict.get_set]
          by_cases heq : other = stableId
          · rw [if_pos heq, if_pos (by simpa using heq)]
            rfl
          · rw [if_neg heq, if_neg (by simpa using heq)]
            rfl
  exact (hfold scope []).trans (Option.or_none ..)

variable {events scope : List (Event R)}

theorem present_of_lastEvent (hscope : ∀ e ∈ scope, e ∈ events)
    {event : Event R} (h : lastEvent compute scope stableId = some event) :
    Present compute events stableId :=
  ⟨event, hscope event (List.mem_reverse.1 (List.mem_of_find?_eq_some h)),
    by simpa using List.find?_some h⟩

/-! ### What was captured -/

theorem eventMap_stripped (hcompute : ∀ (event : Event R) stableId,
    compute event = some stableId → strip stableId = stableId) (events : List (Event R)) :
    ∀ entry ∈ eventMap compute events, strip entry.2 = entry.2 := by
  have hfold : ∀ (table : List (Text × Text)), (∀ entry ∈ table, strip entry.2 = entry.2) →
      ∀ entry ∈ events.foldl (fun table event =>
        let technicalId := strip (firstOf event.id event.eventId)
        match (stableEventId compute event).filter (· ≠ []) with
        | some stableId => if technicalId ≠ [] then Dict.set technicalId stableId table else table
        | none => table) table, strip entry.2 = entry.2 := by
    induction events with
    | nil => exact fun _ h => h
    | cons event events ih =>
      intro table htable
      refine ih _ fun entry hentry => ?_
      dsimp only at hentry
      split at hentry
      · next stableId hstable =>
        split_ifs at hentry with htechnical
        · rcases Dict.mem_of_mem_set hentry with rfl | hentry
          · obtain ⟨hsome, -⟩ := Option.filter_eq_some_iff.1 hstable
            rw [stableEventId] at hsome
            split_ifs at hsome with hvalue
            · rw [← Option.some.inj hsome, strip_strip]
            · exact hcompute event _ hsome
          · exact htable entry hentry
        · exact htable entry hentry
      · exact htable entry hentry
  exact hfold [] fun _ h => absurd h List.not_mem_nil

/-- The baseline that is captured before the evidence is processed again; a computed stable
id has no spaces around it. -/
def captureReprocessBaseline (hcompute : ∀ (event : Event R) stableId,
    compute event = some stableId → strip stableId = stableId) (events : List (Event R))
    (statuses : List (Text × Preserved)) : Baseline where
  oldEventIdToStableEventId := eventMap compute events
  detectionStatusByFingerprint := statuses
  stripped := eventMap_stripped hcompute events

/-! ### One bookmark -/

variable {bookmark : TimelineBookmark}

theorem stableIdOf_ne_nil (h : stableIdOf baseline bookmark = some stableId) : stableId ≠ [] := by
  rw [stableIdOf] at h
  split_ifs at h with hown
  · exact Option.some.inj h ▸ hown
  · obtain ⟨-, hne⟩ := Option.filter_eq_some_iff.1 h
    exact of_decide_eq_true hne

/-- The stable id that is written is the one that is read the next time. -/
theorem strip_stableIdOf
    (h : stableIdOf baseline bookmark = some stableId) : strip stableId = stableId := by
  rw [stableIdOf] at h
  split_ifs at h with hown
  · rw [← Option.some.inj h, strip_strip]
  · obtain ⟨hget, -⟩ := Option.filter_eq_some_iff.1 h
    exact baseline.stripped _ (Dict.mem_of_get hget)

variable {table : List (Text × Current)}

theorem reconcileBookmark_skipped (h : stableIdOf baseline bookmark = none) :
    reconcileBookmark baseline table bookmark = bookmark := by
  simp only [reconcileBookmark, h]

theorem reconcileBookmark_stale (h : stableIdOf baseline bookmark = some stableId)
    (hget : Dict.get table stableId = none) :
    reconcileBookmark baseline table bookmark = ⟨bookmark.eventId, some stableId, some .stale⟩ := by
  simp only [reconcileBookmark, h, hget]

theorem reconcileBookmark_found {current : Current}
    (h : stableIdOf baseline bookmark = some stableId)
    (hget : Dict.get table stableId = some current) :
    reconcileBookmark baseline table bookmark = ⟨current.eventId, some stableId, some (
        if Dict.get baseline.oldEventIdToStableEventId current.eventId ≠ some current.eventId
        then .remapped else .current)⟩ := by
  simp only [reconcileBookmark, h, hget]

theorem stableIdOf_reconcileBookmark (table : List (Text × Current)) (bookmark : TimelineBookmark) :
    stableIdOf baseline (reconcileBookmark baseline table bookmark) =
      stableIdOf baseline bookmark := by
  cases h : stableIdOf baseline bookmark with
  | none => rw [reconcileBookmark_skipped h, h]
  | some stableId =>
    have hread : ∀ (eventId : Text) (status : Option RemapStatus),
        stableIdOf baseline ⟨eventId, some stableId, status⟩ = some stableId := by
      intro eventId status
      rw [stableIdOf, Option.getD_some, strip_stableIdOf h]
      exact if_pos (stableIdOf_ne_nil h)
    cases hget : Dict.get table stableId with
    | none => rw [reconcileBookmark_stale h hget, hread]
    | some current => rw [reconcileBookmark_found h hget, hread]

/-- The id of a bookmark after it was reconciled. -/
theorem eventId_reconcileBookmark (table : List (Text × Current)) (bookmark : TimelineBookmark) :
    (reconcileBookmark baseline table bookmark).eventId =
      (((stableIdOf baseline bookmark).bind (Dict.get table)).map Current.eventId).getD
        bookmark.eventId := by
  cases h : stableIdOf baseline bookmark with
  | none => rw [reconcileBookmark_skipped h, Option.bind_none, Option.map_none, Option.getD_none]
  | some stableId =>
    rw [Option.bind_some]
    cases hget : Dict.get table stableId with
    | none => rw [reconcileBookmark_stale h hget, Option.map_none, Option.getD_none]
    | some current => rw [reconcileBookmark_found h hget, Option.map_some, Option.getD_some]

/-- What is counted as remapped is what got another id. -/
theorem isRemapped_iff (table : List (Text × Current)) (bookmark : TimelineBookmark) :
    isRemapped baseline table bookmark = true ↔
      (reconcileBookmark baseline table bookmark).eventId ≠ bookmark.eventId := by
  rw [isRemapped, eventId_reconcileBookmark]
  cases (stableIdOf baseline bookmark).bind (Dict.get table) with
  | none => simp
  | some current =>
    rw [Option.any_some, decide_eq_true_eq]
    exact ne_comm

/-- **The status of one bookmark is true exactly where it fits.** -/
theorem statusTrue_iff (hscope : ∀ e ∈ scope, e ∈ events)
    (h : stableIdOf baseline bookmark = some stableId) :
    StatusTrue compute events stableId bookmark
        (reconcileBookmark baseline (stableToCurrent compute scope) bookmark) ↔
      Fits compute baseline events scope stableId bookmark := by
  have hget : Dict.get (stableToCurrent compute scope) stableId =
      (lastEvent compute scope stableId).map Event.current :=
    get_stableToCurrent scope (stableIdOf_ne_nil h)
  cases hlast : lastEvent compute scope stableId with
  | none =>
    rw [hlast] at hget
    rw [reconcileBookmark_stale h hget]
    constructor
    · intro htrue
      refine ⟨fun event hevent => ?_, fun _ => htrue.stale.1 rfl⟩
      rw [hlast] at hevent
      cases hevent
    · intro hfits
      have hgone := hfits.gone hlast
      exact ⟨by simp, by simp [hgone], by simp [hgone]⟩
  | some event =>
    rw [hlast] at hget
    have hpresent := present_of_lastEvent hscope hlast
    rw [reconcileBookmark_found h hget]
    constructor
    · intro htrue
      refine ⟨fun event' hevent' => ?_, fun hnone => absurd (hlast.symm.trans hnone) nofun⟩
      cases Option.some.inj (hlast.symm.trans hevent')
      have hiff := htrue.remapped
      by_cases hmap : Dict.get baseline.oldEventIdToStableEventId event.current.eventId ≠
          some event.current.eventId
      · rw [if_pos hmap] at hiff
        exact iff_of_true hmap (hiff.1 rfl)
      · rw [if_neg hmap] at hiff
        exact iff_of_false hmap fun hne => by cases hiff.2 hne
    · intro hfits
      have hiff := hfits.found event hlast
      by_cases hmap : Dict.get baseline.oldEventIdToStableEventId event.current.eventId ≠
          some event.current.eventId
      · rw [if_pos hmap]
        have hne := hiff.1 hmap
        exact ⟨by simp [hne], by simp [hne], by simp [hpresent]⟩
      · rw [if_neg hmap]
        have heq := not_not.1 (mt hiff.2 hmap)
        exact ⟨by simp [heq], by simp [heq, hpresent], by simp [hpresent]⟩

/-! ### The second run -/

theorem eventId_reconcileBookmark_again (table : List (Text × Current))
    (bookmark : TimelineBookmark) :
    (reconcileBookmark baseline table (reconcileBookmark baseline table bookmark)).eventId =
      (reconcileBookmark baseline table bookmark).eventId := by
  rw [eventId_reconcileBookmark, stableIdOf_reconcileBookmark, eventId_reconcileBookmark]
  cases (stableIdOf baseline bookmark).bind (Dict.get table) <;> rfl

theorem eventId_restoreDetection (detection : DetectionResult) :
    (restoreDetection baseline detection).eventId = detection.eventId := by
  rw [restoreDetection]
  split <;> rfl

theorem matched_reconcileDetection (table : List (Text × Current)) (detection : DetectionResult) :
    (reconcileDetection baseline table detection).matchedStableEventId =
      detection.matchedStableEventId := by
  have hrestore : (restoreDetection baseline detection).matchedStableEventId =
      detection.matchedStableEventId := by
    rw [restoreDetection]
    split <;> rfl
  rw [reconcileDetection]
  split <;> exact hrestore

theorem eventId_reconcileDetection (table : List (Text × Current)) (detection : DetectionResult) :
    (reconcileDetection baseline table detection).eventId =
      match Dict.get table (strip (detection.matchedStableEventId.getD [])) with
      | some current => orOld current.eventId detection.eventId
      | none => detection.eventId := by
  rw [reconcileDetection]
  cases Dict.get table (strip (detection.matchedStableEventId.getD [])) with
  | none => exact eventId_restoreDetection detection
  | some current => exact congrArg (orOld current.eventId) (eventId_restoreDetection detection)

theorem eventId_reconcileDetection_again (table : List (Text × Current))
    (detection : DetectionResult) :
    (reconcileDetection baseline table (reconcileDetection baseline table detection)).eventId =
      (reconcileDetection baseline table detection).eventId := by
  rw [eventId_reconcileDetection, matched_reconcileDetection, eventId_reconcileDetection]
  cases Dict.get table (strip (detection.matchedStableEventId.getD [])) with
  | none => rfl
  | some current =>
    dsimp only [orOld]
    split_ifs <;> rfl

theorem reconcileFinding_again (table : List (Text × Current)) (finding : Finding) :
    reconcileFinding table (reconcileFinding table finding) = reconcileFinding table finding := by
  rw [reconcileFinding, reconcileFinding]
  split_ifs <;> rfl

/-- **A second run on the same events changes no id and counts nothing as remapped.** -/
theorem reconcile_again (scope : List (Event R)) (rows : Rows) :
    let rows' := (reconcileReprocessedEvidence compute baseline scope rows).1
    let second := reconcileReprocessedEvidence compute baseline scope rows'
    second.1.bookmarks.map TimelineBookmark.eventId = rows'.bookmarks.map TimelineBookmark.eventId ∧
    second.1.detections.map DetectionResult.eventId = rows'.detections.map DetectionResult.eventId ∧
    second.1.findings.map Finding.relatedEventIds = rows'.findings.map Finding.relatedEventIds ∧
    second.2.keyEventsRemapped = 0 := by
  dsimp only [reconcileReprocessedEvidence]
  generalize stableToCurrent compute scope = table
  refine ⟨?_, ?_, ?_, ?_⟩
  · rw [List.map_map, List.map_map, List.map_map]
    exact List.map_congr_left fun bookmark _ => eventId_reconcileBookmark_again table bookmark
  · rw [List.map_map, List.map_map, List.map_map]
    exact List.map_congr_left fun detection _ => eventId_reconcileDetection_again table detection
  · rw [List.map_map, List.map_map, List.map_map]
    exact List.map_congr_left fun finding _ =>
      congrArg Finding.relatedEventIds (reconcileFinding_again table finding)
  · refine List.countP_eq_zero.2 fun bookmark hbookmark hcount => ?_
    obtain ⟨first, -, rfl⟩ := List.mem_map.1 hbookmark
    exact (isRemapped_iff table _).1 hcount (eventId_reconcileBookmark_again table first)

open Classical in
/-- **The report matches what happened exactly where every bookmark fits.** -/
theorem reportsTruly_iff {events scope : List (Event R)} (hscope : ∀ e ∈ scope, e ∈ events)
    (rows : Rows) :
    ReportsTruly compute baseline events scope rows ↔
      ∀ bookmark ∈ rows.bookmarks, ∀ stableId, stableIdOf baseline bookmark = some stableId →
        Fits compute baseline events scope stableId bookmark := by
  constructor
  · exact fun htrue bookmark hbookmark stableId h =>
      (statusTrue_iff hscope h).1 (htrue.status bookmark hbookmark stableId h)
  · intro hfits
    refine ⟨fun bookmark hbookmark stableId h =>
      (statusTrue_iff hscope h).2 (hfits bookmark hbookmark stableId h), ?_, ?_,
      reconcile_again scope rows⟩
    · refine List.countP_congr fun bookmark _ => ?_
      rw [isRemapped_iff, decide_eq_true_eq]
      refine ⟨fun hne => ⟨?_, hne⟩, And.right⟩
      by_contra hnone
      rw [Option.not_isSome_iff_eq_none] at hnone
      exact hne (congrArg _ (reconcileBookmark_skipped hnone))
    · refine List.countP_congr fun bookmark hbookmark => ?_
      rw [isStale, decide_eq_true_eq, Option.any_eq_true]
      refine exists_congr fun stableId => ⟨?_, ?_⟩
      · rintro ⟨h, hstale⟩
        rw [get_stableToCurrent scope (stableIdOf_ne_nil h), Option.isNone_map,
          Option.isNone_iff_eq_none] at hstale
        exact ⟨h, (hfits bookmark hbookmark stableId h).gone hstale⟩
      · rintro ⟨h, hgone⟩
        refine ⟨h, ?_⟩
        rw [get_stableToCurrent scope (stableIdOf_ne_nil h), Option.isNone_map,
          Option.isNone_iff_eq_none]
        by_contra hsome
        obtain ⟨event, hevent⟩ := Option.ne_none_iff_exists'.1 hsome
        exact hgone (present_of_lastEvent hscope hevent)

end

/-! ### Three events -/

/-- An event with an id and a stable id. -/
def eventWith (id stableId : String) : Event Unit :=
  ⟨some id.toList, some id.toList, some stableId.toList, none, ()⟩

/-- The baseline of one event, `old`, whose stable id is `s`. -/
def oldBaseline : Baseline :=
  @captureReprocessBaseline Unit (fun _ => none) (fun _ _ h => by cases h) [eventWith "old" "s"] []

def bookmarkOf (id stableId : String) : TimelineBookmark :=
  ⟨id.toList, some stableId.toList, some .current⟩

/-- The event gets a new id, and the bookmark follows it. -/
theorem newId_reportsTruly :
    ReportsTruly (fun _ => none) oldBaseline [eventWith "new" "s"] [eventWith "new" "s"]
      ⟨[bookmarkOf "old" "s"], [], []⟩ := by
  refine (reportsTruly_iff (fun _ h => h) _).2 fun bookmark hbookmark stableId hstable => ?_
  cases List.mem_singleton.1 hbookmark
  have hid : stableIdOf oldBaseline (bookmarkOf "old" "s") = some "s".toList := by decide +kernel
  cases Option.some.inj (hid.symm.trans hstable)
  have hlast : lastEvent (fun _ => none) [eventWith "new" "s"] "s".toList =
      some (eventWith "new" "s") := rfl
  refine ⟨fun event hevent => ?_, fun hnone => absurd (hlast.symm.trans hnone) nofun⟩
  cases Option.some.inj (hlast.symm.trans hevent)
  decide +kernel

/-- An event that keeps its id: its bookmark is said to be remapped.  An event of another
evidence: its bookmark is said to be stale. -/
theorem sameId_not_reportsTruly :
    ¬ ReportsTruly (fun _ => none) oldBaseline [eventWith "old" "s"] [eventWith "old" "s"]
      ⟨[bookmarkOf "old" "s"], [], []⟩ ∧
    ¬ ReportsTruly (fun _ => none) oldBaseline [eventWith "new" "s", eventWith "other" "t"]
      [eventWith "new" "s"] ⟨[bookmarkOf "other" "t"], [], []⟩ := by
  constructor
  · intro h
    have hid : stableIdOf oldBaseline (bookmarkOf "old" "s") = some "s".toList := by decide +kernel
    have hfits := (statusTrue_iff (fun _ h => h) hid).1 (h.status _ (.head _) _ hid)
    exact absurd ((hfits.found (eventWith "old" "s") rfl).1 (by decide +kernel)) (by decide +kernel)
  · intro h
    have hid : stableIdOf oldBaseline (bookmarkOf "other" "t") = some "t".toList := by decide +kernel
    have hscope : ∀ e ∈ [eventWith "new" "s"], e ∈ [eventWith "new" "s", eventWith "other" "t"] :=
      fun e he => List.mem_cons.2 (.inl (List.mem_singleton.1 he))
    have hfits := (statusTrue_iff hscope hid).1 (h.status _ (.head _) _ hid)
    exact hfits.gone rfl ⟨eventWith "other" "t", by simp, rfl⟩

end Kairon.Reconciliation

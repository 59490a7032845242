/-
Kairon/Ingest/EvidenceRuns.lean

The history of ingest runs in the metadata of an evidence
(`services/evidence_runs.py`).

`upsertIngestRun` writes one run, sorts the history by the time a run was finished or else
started, and keeps fifty.  The run that was just written is sorted like the others, so it is
cut when fifty others come before it: it `ReadsBack` exactly where fewer do
(`readsBack_iff`).  The comparison of the sort ends with the id of the run, so that runs
with different ids never tie.

What `str` makes of floats and containers is a parameter.
-/
import Kairon.Lib.Dict
import Kairon.Lib.Paging
import Kairon.Search.Value

namespace Kairon.Runs

open Paging
open Search (Text Json intStr)

/-- A dictionary with texts as keys. -/
abbrev Fields (F : Type) := List (Text × Json F)

/-- What is used of Python on floats and containers. -/
structure Conversions (F : Type) where
  floatStr : F → Text
  floatTruthy : F → Bool
  containerStr : Json F → Text

section

variable {F : Type} (py : Conversions F)

/-! ### Values -/

/-- `bool(value)`. -/
def Conversions.truthy : Json F → Bool
  | .null => false
  | .bool b => b
  | .int n => n ≠ 0
  | .float x => py.floatTruthy x
  | .str s => s ≠ []
  | .arr items => !items.isEmpty
  | .obj fields => !fields.isEmpty

/-- `str(value)`. -/
def Conversions.str : Json F → Text
  | .null => "None".toList
  | .bool true => "True".toList
  | .bool false => "False".toList
  | .int n => intStr n
  | .float x => py.floatStr x
  | .str s => s
  | .arr items => py.containerStr (.arr items)
  | .obj fields => py.containerStr (.obj fields)

/-- `str(value or "")`. -/
def Conversions.orEmpty (value : Json F) : Text := if py.truthy value then py.str value else []

/-- `d.get(name)`. -/
def field (d : Fields F) (name : String) : Json F := (Dict.get d name.toList).getD .null

/-- `{**d, **updates}`. -/
def update (d updates : Fields F) : Fields F :=
  updates.foldl (fun d entry => Dict.set entry.1 entry.2 d) d

/-- `list(value)`; a number cannot be iterated. -/
def iterate : Json F → Option (List (Json F))
  | .arr items => some items
  | .str s => some (s.map fun c => .str [c])
  | .obj fields => some (fields.map fun entry => .str entry.1)
  | _ => none

/-- `list(metadata.get(key) or [])`. -/
def Conversions.listAt (metadata : Fields F) (key : String) : Option (List (Json F)) :=
  if py.truthy (field metadata key) then iterate (field metadata key) else some []

def asDict : Json F → Option (Fields F)
  | .obj fields => some fields
  | _ => none

/-! ### The history -/

/-- `_coerce_run_list`. -/
def Conversions.coerceRunList (metadata : Fields F) : Option (List (Fields F)) :=
  (py.listAt metadata "ingest_runs").map fun items => items.filterMap asDict

/-- `str(run.get("run_id") or "")`. -/
def Conversions.runId (run : Fields F) : Text := py.orEmpty (field run "run_id")

/-- `finished or started` of `_sort_key`. -/
def Conversions.moment (run : Fields F) : Text :=
  let finished := py.orEmpty (field run "finished_at")
  let started := if py.truthy (field run "started_at") then py.str (field run "started_at")
    else py.orEmpty (field run "created_at")
  if finished ≠ [] then finished else started

/-- `_sort_key`. -/
def Conversions.sortKey (run : Fields F) : Text ×ₗ Text := toLex (py.moment run, py.runId run)

/-- `_sort_runs`. -/
def Conversions.sortRuns (runs : List (Fields F)) : List (Fields F) := sorted py.sortKey true runs

/-- The loop of `upsert_ingest_run`: the first run with the id, or a new one at the end. -/
def Conversions.upsertRun (runId : Text) (updates : Fields F) : List (Fields F) → List (Fields F)
  | [] => [update [("run_id".toList, .str runId)] updates]
  | run :: runs =>
    if py.runId run = runId then update run updates :: runs
    else run :: Conversions.upsertRun runId updates runs

/-- `upsert_ingest_run`. -/
def Conversions.upsertIngestRun (metadata : Fields F) (runId : Text) (updates : Fields F) :
    Option (Fields F) :=
  (py.coerceRunList metadata).map fun runs =>
    Dict.set "latest_ingest_run_id".toList (.str runId)
      (Dict.set "ingest_runs".toList
        (.arr (((py.sortRuns (py.upsertRun runId updates runs)).take 50).map .obj)) metadata)

/-! ### What is read back -/

/-- The runs of the history. -/
def Conversions.runsOf (metadata : Fields F) : List (Fields F) :=
  (py.coerceRunList metadata).getD []

/-- The run with the updates applied; a run without a record starts with its id. -/
def Conversions.applied (runs : List (Fields F)) (runId : Text) (updates : Fields F) : Fields F :=
  update ((runs.find? fun run => py.runId run = runId).getD [("run_id".toList, .str runId)]) updates

/-- The runs other than the one that is updated. -/
def Conversions.others (runs : List (Fields F)) (runId : Text) : List (Fields F) :=
  runs.eraseP fun run => py.runId run = runId

/-- What the writer of a run relies on. -/
structure Conversions.ReadsBack (runs : List (Fields F)) (runId : Text) (updates : Fields F)
    (kept : List (Fields F)) : Prop where
  found : py.applied runs runId updates ∈ kept ∧ py.runId (py.applied runs runId updates) = runId
  dropped : ∀ run ∈ py.others runs runId, run ∉ kept → ∀ other ∈ kept,
    py.sortKey run ≤ py.sortKey other
  older : (runs.map py.runId).Nodup → ∀ run ∈ py.others runs runId, run ∉ kept →
    ∀ other ∈ kept, py.sortKey run < py.sortKey other
  unique : (runs.map py.runId).Nodup → (kept.map py.runId).Nodup

/-- The updates leave the id of the run as it is, and fewer than fifty other runs are newer. -/
structure Conversions.HasRoom (runs : List (Fields F)) (runId : Text) (updates : Fields F) :
    Prop where
  id : py.runId (py.applied runs runId updates) = runId
  room : ((py.others runs runId).filter fun run =>
    py.sortKey (py.applied runs runId updates) < py.sortKey run).length < 50

end

section

variable {F : Type} {py : Conversions F} {runs : List (Fields F)} {runId : Text}
  {updates : Fields F}

/-! ### Writing a run -/

/-- What the loop does: the run stands where the first run with its id stood, or at the end. -/
theorem upsertRun_eq (py : Conversions F) (runs : List (Fields F)) (runId : Text) (updates : Fields F) :
    ∃ before after, py.upsertRun runId updates runs =
        before ++ py.applied runs runId updates :: after ∧
      py.others runs runId = before ++ after ∧ (∀ run ∈ before, py.runId run ≠ runId) ∧
      (runs = before ++ after ∧ after = [] ∨
        ∃ run, py.runId run = runId ∧ runs = before ++ run :: after) := by
  induction runs with
  | nil => exact ⟨[], [], rfl, rfl, fun _ h => absurd h List.not_mem_nil, .inl ⟨rfl, rfl⟩⟩
  | cons run runs ih =>
    by_cases h : py.runId run = runId
    · refine ⟨[], runs, ?_, ?_, fun _ h => absurd h List.not_mem_nil, .inr ⟨run, h, rfl⟩⟩
      · rw [Conversions.upsertRun, if_pos h, Conversions.applied,
          List.find?_cons_of_pos (by simpa using h)]
        rfl
      · exact List.eraseP_cons_of_pos (by simpa using h)
    · obtain ⟨before, after, heq, hothers, hbefore, hruns⟩ := ih
      refine ⟨run :: before, after, ?_, ?_, ?_, ?_⟩
      · rw [Conversions.upsertRun, if_neg h, heq, Conversions.applied, Conversions.applied,
          List.find?_cons_of_neg (by simpa using h)]
        rfl
      · rw [Conversions.others, List.eraseP_cons_of_neg (by simpa using h)]
        exact congrArg (run :: ·) hothers
      · intro other hother
        rcases List.mem_cons.1 hother with rfl | hother
        exacts [h, hbefore other hother]
      · rcases hruns with ⟨rfl, rfl⟩ | ⟨found, hid, rfl⟩
        · exact .inl ⟨rfl, rfl⟩
        · exact .inr ⟨found, hid, rfl⟩

theorem nodup_ids_upsertRun (hid : py.runId (py.applied runs runId updates) = runId)
    (h : (runs.map py.runId).Nodup) : ((py.upsertRun runId updates runs).map py.runId).Nodup := by
  obtain ⟨before, after, heq, -, hbefore, hruns⟩ := upsertRun_eq py runs runId updates
  rw [heq, List.map_append, List.map_cons, hid]
  rcases hruns with ⟨hruns, rfl⟩ | ⟨run, hrun, hruns⟩
  · rw [hruns, List.append_nil] at h
    refine List.nodup_append.2 ⟨h, List.nodup_singleton _, fun a ha b hb => ?_⟩
    obtain ⟨run, hrun, rfl⟩ := List.mem_map.1 ha
    rw [List.mem_singleton.1 hb]
    exact hbefore run hrun
  · rw [hruns, List.map_append, List.map_cons, hrun] at h
    exact h

/-! ### What is kept -/

/-- The history after `upsert_ingest_run`. -/
theorem runsOf_upsertIngestRun {metadata result : Fields F}
    (h : py.upsertIngestRun metadata runId updates = some result) :
    py.runsOf result = (py.sortRuns (py.upsertRun runId updates (py.runsOf metadata))).take 50 := by
  obtain ⟨runs, hruns, rfl⟩ := Option.map_eq_some_iff.1 h
  rw [Conversions.runsOf, Conversions.runsOf, hruns, Option.getD_some]
  generalize (py.sortRuns (py.upsertRun runId updates runs)).take 50 = kept
  have hfield : field (Dict.set "latest_ingest_run_id".toList (.str runId)
      (Dict.set "ingest_runs".toList (.arr (kept.map .obj)) metadata)) "ingest_runs" =
      (.arr (kept.map .obj) : Json F) := by
    rw [field, Dict.get_set, if_neg (by decide), Dict.get_set, if_pos rfl, Option.getD_some]
  have hdicts : (kept.map (Json.obj : Fields F → Json F)).filterMap asDict = kept := by
    rw [List.filterMap_map]
    exact List.filterMap_some
  rw [Conversions.coerceRunList, Conversions.listAt, hfield]
  cases kept with
  | nil => rfl
  | cons run kept =>
    have htruthy : py.truthy (.arr ((run :: kept).map .obj)) = true := rfl
    rw [if_pos htruthy, iterate, Option.map_some, hdicts, Option.getD_some]

theorem le_of_dropped {items : List (Fields F)} {n : ℕ} {run : Fields F} (hrun : run ∈ items)
    (hdropped : run ∉ (py.sortRuns items).take n) :
    ∀ other ∈ (py.sortRuns items).take n, py.sortKey run ≤ py.sortKey other := by
  intro other hother
  have hmem : run ∈ (py.sortRuns items).take n ++ (py.sortRuns items).drop n := by
    rw [List.take_append_drop]
    exact mem_sorted.2 hrun
  have hsorted := pairwise_sorted py.sortKey true items
  rw [← Conversions.sortRuns, ← List.take_append_drop n (py.sortRuns items)] at hsorted
  exact (List.pairwise_append.1 hsorted).2.2 other hother run
    ((List.mem_append.1 hmem).resolve_left hdropped)

theorem mem_upsertRun_of_others {run : Fields F} (h : run ∈ py.others runs runId) :
    run ∈ py.upsertRun runId updates runs := by
  obtain ⟨before, after, heq, hothers, -⟩ := upsertRun_eq py runs runId updates
  rw [hothers, List.mem_append] at h
  rw [heq, List.mem_append, List.mem_cons]
  exact h.imp_right .inr

/-- The id is part of the key: runs with different ids do not tie. -/
theorem sortKey_ne {run other : Fields F} (h : py.runId run ≠ py.runId other) :
    py.sortKey run ≠ py.sortKey other := fun heq =>
  h (congrArg (fun key : Text ×ₗ Text => (ofLex key).2) heq)

/-- The run that was written is kept where fewer than fifty others are newer. -/
theorem applied_mem_iff (hid : py.runId (py.applied runs runId updates) = runId) :
    py.applied runs runId updates ∈ (py.sortRuns (py.upsertRun runId updates runs)).take 50 ↔
      ((py.others runs runId).filter fun run =>
        py.sortKey (py.applied runs runId updates) < py.sortKey run).length < 50 := by
  obtain ⟨before, after, heq, hothers, hbefore, -⟩ := upsertRun_eq py runs runId updates
  rw [heq, Conversions.sortRuns, mem_take_sorted_iff, hothers, List.filter_append,
    List.filter_append, List.filter_cons_of_neg (by simp)]
  intro run hrun
  exact sortKey_ne (by rw [hid]; exact hbefore run hrun)

/-- **An updated run can be read back exactly where the updates keep its id and fewer than
fifty other runs are newer.** -/
theorem readsBack_iff {metadata result : Fields F}
    (h : py.upsertIngestRun metadata runId updates = some result) :
    py.ReadsBack (py.runsOf metadata) runId updates (py.runsOf result) ↔
      py.HasRoom (py.runsOf metadata) runId updates := by
  rw [runsOf_upsertIngestRun h]
  generalize py.runsOf metadata = runs
  constructor
  · intro hback
    exact ⟨hback.found.2, (applied_mem_iff hback.found.2).1 hback.found.1⟩
  · intro hroom
    have hdropped : ∀ run ∈ py.others runs runId,
        run ∉ (py.sortRuns (py.upsertRun runId updates runs)).take 50 →
        ∀ other ∈ (py.sortRuns (py.upsertRun runId updates runs)).take 50,
          py.sortKey run ≤ py.sortKey other := fun run hrun hnot =>
      le_of_dropped (mem_upsertRun_of_others hrun) hnot
    have hunique : (runs.map py.runId).Nodup → (((py.sortRuns (py.upsertRun runId updates
        runs)).take 50).map py.runId).Nodup := fun hnodup =>
      (((perm_sorted py.sortKey true _).map py.runId).nodup_iff.2
        (nodup_ids_upsertRun hroom.id hnodup)).sublist ((List.take_sublist _ _).map _)
    refine ⟨⟨(applied_mem_iff hroom.id).2 hroom.room, hroom.id⟩, hdropped, ?_, hunique⟩
    intro hnodup run hrun hnot other hother
    refine lt_of_le_of_ne (hdropped run hrun hnot other hother) (sortKey_ne fun hid => hnot ?_)
    -- both are in the history, and it has one run of this id
    have hwritten := nodup_ids_upsertRun hroom.id hnodup
    have heq := List.inj_on_of_nodup_map hwritten (mem_upsertRun_of_others hrun)
      (mem_sorted.1 (List.mem_of_mem_take hother)) hid
    rwa [heq]

end

/-! ### A history that is full -/

/-- No floats, and no text of a container is looked at. -/
def textConversions : Conversions Empty where
  floatStr := Empty.elim
  floatTruthy := Empty.elim
  containerStr _ := "<container>".toList

/-- A history of runs that were finished at ten. -/
def finishedRuns (n : ℕ) : Fields Empty :=
  [("ingest_runs".toList, .arr ((List.range n).map fun k =>
    .obj [("run_id".toList, .str (List.replicate (k + 1) 'r')),
      ("finished_at".toList, .str "2026-07-01T10:00:00".toList)]))]

/-- A run that was started at nine and is still running. -/
def runningSince : Fields Empty :=
  [("status".toList, .str "running".toList), ("started_at".toList, .str "2026-07-01T09:00:00".toList)]

theorem running_readsBack :
    ∃ result, textConversions.upsertIngestRun (finishedRuns 49) "long".toList runningSince =
        some result ∧
      textConversions.ReadsBack (textConversions.runsOf (finishedRuns 49)) "long".toList
        runningSince (textConversions.runsOf result) :=
  ⟨_, rfl, (readsBack_iff rfl).2 ⟨by decide +kernel, by decide +kernel⟩⟩

/-- With fifty finished runs the one that still runs is cut, and `latest_ingest_run_id` names a
run that is not in the history. -/
theorem running_not_readsBack :
    ∃ result, textConversions.upsertIngestRun (finishedRuns 50) "long".toList runningSince =
        some result ∧
      (∀ run ∈ textConversions.runsOf result, textConversions.runId run ≠ "long".toList) ∧
      ¬ textConversions.ReadsBack (textConversions.runsOf (finishedRuns 50)) "long".toList
        runningSince (textConversions.runsOf result) := by
  have hnone : ∀ run ∈ ((textConversions.sortRuns (textConversions.upsertRun "long".toList
      runningSince (textConversions.runsOf (finishedRuns 50)))).take 50),
      textConversions.runId run ≠ "long".toList := by
    decide +kernel
  rw [← runsOf_upsertIngestRun rfl] at hnone
  exact ⟨_, rfl, hnone, fun h => hnone _ h.found.1 h.found.2⟩

end Kairon.Runs

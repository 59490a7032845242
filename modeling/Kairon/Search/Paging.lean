/-
Kairon/Search/Paging.lean

The pages of `search_case_v2` over events, findings and memory rows
(`search_service.py`, `investigation_memory.py`).

Page `k` fetches the first `(k + 1) * n` rows of each source in the source's own
order, sorts the union with another key (`_sort_mixed_items`) and shows the last
`n` positions of it.  The fetch cuts each source off before the common sort, so
the pages fit together only as far as no cut takes away a row that the common
order puts in front:

  * `Content`, `Request` : what matches the search, and one search over it;
  * `searchCaseV2`       : the source's function;
  * `mergedOrder`        : all the rows, nothing cut off, in the common order;
  * `fetched`            : what page `k` has of them.

`pagesExact_iff` is the exact condition; `pages_repeat` is two events of one
moment, of which page 2 shows the first one again.
-/
import Kairon.Lib.Paging
import Kairon.Search.Syntax

namespace Kairon.Mixed

open Paging
open Search (Text)

/-! ### Rows -/

/-- Where a row comes from; a memory row has an id of its own kind (`memory:`). -/
inductive Origin
  | event | finding | memory
  deriving DecidableEq

/-- A row of the results, as far as the sorts and filters read it. -/
structure Item where
  origin : Origin
  id : Text
  timestamp : Option Text
  severity : Option Text
  riskScore : Option ℤ
  matchedFields : List Text
  sourceCategory : Text
  deriving DecidableEq

/-- `str(item.get("timestamp") or "")`. -/
def Item.moment (item : Item) : Text := item.timestamp.getD []

/-- `int(item.get("risk_score") or 0)`. -/
def Item.risk (item : Item) : ℤ := item.riskScore.getD 0

/-- `severity_rank.get(severity, 0)`. -/
def severityRank (severity : Option Text) : ℤ :=
  if severity = some "critical".toList then 5
  else if severity = some "high".toList then 4
  else if severity = some "medium".toList then 3
  else if severity = some "low".toList then 2
  else if severity = some "info".toList then 1
  else 0

/-- `_sort_mixed_items`. -/
def sortMixedItems (items : List Item) (sort : Text) : List Item :=
  if sort = "risk_asc".toList then
    sorted (fun item => toLex (item.risk, item.moment)) false items
  else if sort = "risk_desc".toList then
    sorted (fun item => toLex (-item.risk, item.moment)) false items
  else if sort = "timestamp_asc".toList then
    sorted Item.moment false items
  else if sort = "relevance".toList then
    sorted (fun item => toLex (-(item.matchedFields.length : ℤ),
      toLex (-item.risk, toLex (-severityRank item.severity, item.moment)))) false items
  else
    sorted (fun item => toLex (item.moment, item.risk)) true items

/-! ### Events, in the order of the index -/

/-- An event that matches: the fields that the index sorts by, and those of its row.  The index
compares `@timestamp` as a date, whatever its spelling. -/
structure EventDoc where
  id : Text
  instant : Option ℤ
  eventId : Option Text
  score : ℚ
  timestamp : Option Text
  severity : Option Text
  riskScore : Option ℤ
  matchedFields : List Text
  sourceCategory : Text

/-- `_format_event_result`, with `add_event_source_provenance`. -/
def EventDoc.row (doc : EventDoc) : Item where
  origin := .event
  id := doc.id
  timestamp := doc.timestamp
  severity := doc.severity
  riskScore := doc.riskScore
  matchedFields := doc.matchedFields
  sourceCategory := doc.sourceCategory

inductive SortField
  | score | timestamp | riskScore | eventId

/-- One entry of a sort: the field and its direction; missing values come last. -/
structure SortEntry where
  field : SortField
  descending : Bool

/-- The index's comparison of two values of a field. -/
def compareMissingLast {β : Type} [LinearOrder β] (descending : Bool) :
    Option β → Option β → Ordering
  | none, none => .eq
  | some _, none => .lt
  | none, some _ => .gt
  | some a, some b => if descending then compare b a else compare a b

def SortEntry.compare (entry : SortEntry) (a b : EventDoc) : Ordering :=
  match entry.field with
  | .score => compareMissingLast entry.descending (some a.score) (some b.score)
  | .timestamp => compareMissingLast entry.descending a.instant b.instant
  | .riskScore => compareMissingLast entry.descending a.riskScore b.riskScore
  | .eventId => compareMissingLast entry.descending a.eventId b.eventId

/-- `EVENT_SORTS`, with the default of `_event_sort`. -/
def eventSorts (sort : Text) : List SortEntry :=
  if sort = "timestamp_asc".toList then [⟨.timestamp, false⟩, ⟨.eventId, false⟩]
  else if sort = "risk_desc".toList then
    [⟨.riskScore, true⟩, ⟨.timestamp, true⟩, ⟨.eventId, true⟩]
  else if sort = "risk_asc".toList then
    [⟨.riskScore, false⟩, ⟨.timestamp, true⟩, ⟨.eventId, false⟩]
  else [⟨.timestamp, true⟩, ⟨.eventId, true⟩]

/-- `_event_sort`. -/
def eventSort (sort : Text) (hasQuery : Bool) : List SortEntry :=
  if sort = "relevance".toList ∧ hasQuery then
    [⟨.score, true⟩, ⟨.timestamp, true⟩, ⟨.eventId, true⟩]
  else eventSorts sort

/-- The index's order by the entries of a sort. -/
def notAfter (entries : List SortEntry) (a b : EventDoc) : Bool :=
  (entries.foldr (fun entry rest => (SortEntry.compare entry a b).then rest) Ordering.eq).isLE

/-! ### Findings -/

/-- A datetime of the database in its two spellings, `str` and `isoformat`. -/
structure Stamp where
  text : Text
  iso : Text

/-- A finding of the case; `relevance` is what `_match_finding` gives, if the finding matches. -/
structure FindingRow where
  id : Text
  timeStart : Option Stamp
  createdAt : Option Stamp
  severity : Text
  riskScore : Option ℤ
  relevance : Option ℤ

/-- `time_start or created_at`. -/
def FindingRow.stamp (finding : FindingRow) : Option Stamp :=
  finding.timeStart.or finding.createdAt

def FindingRow.time (finding : FindingRow) : Text := (finding.stamp.map Stamp.text).getD []

def FindingRow.risk (finding : FindingRow) : ℤ := finding.riskScore.getD 0

/-- `_format_finding_result`. -/
def FindingRow.row (finding : FindingRow) : Item where
  origin := .finding
  id := finding.id
  timestamp := finding.stamp.map Stamp.iso
  severity := some finding.severity
  riskScore := finding.riskScore
  matchedFields := if finding.relevance.getD 0 = 0 then [] else ["finding".toList]
  sourceCategory := []

/-- The sort of `search_findings_v2`. -/
def sortFindings (matched : List FindingRow) (sort : Text) : List FindingRow :=
  if sort = "risk_desc".toList then
    sorted (fun f => toLex (-f.risk, f.time)) false matched
  else if sort = "risk_asc".toList then
    sorted (fun f => toLex (f.risk, f.time)) false matched
  else if sort = "timestamp_asc".toList then
    sorted FindingRow.time false matched
  else if sort = "relevance".toList then
    sorted (fun f => toLex (-f.relevance.getD 0, toLex (-f.risk, f.time))) false matched
  else
    sorted FindingRow.time true matched

/-! ### Memory rows -/

/-- A memory artifact that matches; `excluded` says that an excluded term is in its title or
summary. -/
structure MemoryHit where
  id : Text
  timestamp : Option Text
  matchedFields : List Text
  excluded : Bool

/-- `_memory_search_row`. -/
def MemoryHit.row (hit : MemoryHit) : Item where
  origin := .memory
  id := hit.id
  timestamp := hit.timestamp
  severity := none
  riskScore := some 0
  matchedFields := hit.matchedFields
  sourceCategory := "Memory".toList

/-- `_memory_search_sort`. -/
def memorySearchSort (sort : Text) : Text :=
  if sort = "timestamp_desc".toList then "newest".toList
  else if sort = "timestamp_asc".toList then "oldest".toList
  else if sort ∈ ["relevance".toList, "newest".toList, "oldest".toList, "artifact_type".toList,
    "pid".toList, "process_name".toList] then sort
  else "relevance".toList

/-- The page size that `search_memory_artifacts` takes for the one it is given (`PAGE_SIZES`). -/
def artifactPageSize (size : ℕ) : ℕ := if size ∈ [50, 100, 250, 500] then size else 100

/-! ### The search -/

/-- What matches a search: the events, the findings of the case, and for every memory evidence
its artifacts in the index's order for each memory sort.  Ids tell the rows of a source apart. -/
structure Content where
  events : List EventDoc
  findings : List FindingRow
  evidences : List (Text → List MemoryHit)
  events_distinct : (events.map EventDoc.id).Nodup
  findings_distinct : (findings.map FindingRow.id).Nodup
  memory_distinct : ∀ sort, ((evidences.flatMap fun ranked => ranked sort).map MemoryHit.id).Nodup

/-- The parameters of a search that bear on its pages.  An empty text and a zero stand for a
parameter that is absent; `category` is normalized, `eventOnlyFilter` and `unsupportedFilters`
say whether filters are set that only events, or no memory rows, can satisfy. -/
structure Request where
  sort : Text
  page : ℤ
  pageSize : ℤ
  cursor : Option ℕ
  category : Option Text
  eventOnlyFilter : Bool
  unsupportedFilters : Bool
  hasQuery : Bool

namespace Request

variable (r : Request)

/-- `str(params.get("sort") or "timestamp_desc")`. -/
def mixedSort : Text := if r.sort = [] then "timestamp_desc".toList else r.sort

/-- `str(params.get("sort") or "relevance")`, the default of the memory search. -/
def memorySort : Text := memorySearchSort (if r.sort = [] then "relevance".toList else r.sort)

/-- `max(1, min(int(params.get("page_size") or 100), 500))`. -/
def size : ℕ := (max 1 (min (if r.pageSize = 0 then 100 else r.pageSize) 500)).toNat

/-- `int(params.get("page") or 1)`. -/
def pageNumber : ℤ := if r.page = 0 then 1 else r.page

def offset : ℕ :=
  r.cursor.getD (max 0 ((r.pageNumber - 1) * r.size)).toNat

/-- `wants_memory_source`. -/
def wantsMemory : Bool := r.category = some "Memory".toList

/-- `wants_non_memory_source`. -/
def wantsNonMemory : Bool := r.category.isSome && !r.wantsMemory

/-- The mixed search asks for memory rows. -/
def includesMemory : Bool := !r.wantsNonMemory && !r.eventOnlyFilter && !r.unsupportedFilters

/-- `_filter_source_category`. -/
def keeps (item : Item) : Bool :=
  r.category.all fun category => category = "Memory".toList || item.sourceCategory = category

/-- The same search, with another page. -/
def forPage (k : ℕ) : Request := { r with page := k + 1, cursor := none }

end Request

section Search

variable (c : Content) (r : Request)

/-- The events that match, in the index's order. -/
def eventHits : List EventDoc :=
  c.events.insertionSort fun a b => notAfter (eventSort r.mixedSort r.hasQuery) a b

/-- `search_events_v2` from the start with a limit, and `_filter_source_category`. -/
def eventRows (limit : ℕ) : List Item :=
  (((eventHits c r).take limit).map EventDoc.row).filter r.keeps

/-- The findings that match, in the order of `search_findings_v2`. -/
def matchedFindings : List FindingRow :=
  sortFindings (c.findings.filter fun finding => finding.relevance.isSome) r.mixedSort

/-- `search_findings_v2` from the start with a limit; a filter on parsers leaves findings out. -/
def findingRows (limit : ℕ) : List Item :=
  if r.eventOnlyFilter then [] else ((matchedFindings c r).take limit).map FindingRow.row

/-- The sort of `memory_search_results`. -/
def sortMemory (rows : List Item) : List Item :=
  sorted (fun row => toLex (row.timestamp.isNone, toLex (row.moment, row.id)))
    ("desc".toList.isSuffixOf r.sort) rows

/-- `all_results` of `memory_search_results` for a page size: so many of every evidence. -/
def memoryResults (size : ℕ) : List Item :=
  sortMemory r (c.evidences.flatMap fun ranked =>
    (((ranked r.memorySort).take (artifactPageSize size)).filter fun hit => !hit.excluded).map
      MemoryHit.row)

/-- The page size of `memory_search_results`. -/
def memoryPageSize (size : ℕ) : ℕ := min (max size 1) 500

/-- `memory_search_results`: its page of the rows that it fetched for that page size. -/
def memorySearchResults (page : ℤ) (pageSize : ℕ) : List Item :=
  let size := memoryPageSize pageSize
  let start := ((max page 1 - 1) * size).toNat
  ((memoryResults c r size).drop start).take size

/-- The memory rows of a mixed search. -/
def memoryRows (limit : ℕ) : List Item :=
  if r.includesMemory then memorySearchResults c r 1 limit else []

def windowLimit : ℕ := 10000

structure HTTPException where
  statusCode : ℕ
  detail : String

def windowExceeded : HTTPException where
  statusCode := 400
  detail := "Search pagination is limited to the first 10000 matching items for stable sorting. "
    ++ "Narrow the query or time range."

structure Response where
  total : ℕ
  page : ℤ
  pageSize : ℕ
  hasPrevious : Bool
  hasNext : Bool
  nextCursor : Option ℕ
  results : List Item

/-- The answer where the search asks for memory rows only. -/
def memoryOnly : Response :=
  if r.unsupportedFilters then
    { total := 0, page := r.pageNumber, pageSize := r.size, hasPrevious := 0 < r.offset,
      hasNext := false, nextCursor := none, results := [] }
  else
    let total := (memoryResults c r (memoryPageSize r.size)).length
    { total := total
      page := max r.pageNumber 1
      pageSize := memoryPageSize r.size
      hasPrevious := 0 < r.offset
      hasNext := (max r.pageNumber 1) * memoryPageSize r.size < total
      nextCursor := none
      results := memorySearchResults c r r.pageNumber r.size }

/-- `search_case_v2` with scope `all`. -/
def searchCaseV2 : Except HTTPException Response :=
  if r.wantsMemory then .ok (memoryOnly c r)
  else if windowLimit < r.offset + r.size then .error windowExceeded
  else
    let fetchLimit := min (r.offset + r.size) windowLimit
    let diskRows := eventRows c r fetchLimit ++ findingRows c r fetchLimit
    let memory := memoryRows c r fetchLimit
    let merged := sortMixedItems (diskRows ++ memory) r.mixedSort
    let found := if r.eventOnlyFilter then 0 else (matchedFindings c r).length
    let total :=
      (if r.wantsNonMemory then diskRows.length else c.events.length + found) + memory.length
    let shown := (merged.drop r.offset).take r.size
    .ok
      { total := total
        page := r.pageNumber
        pageSize := r.size
        hasPrevious := 0 < r.offset
        -- `_next_page_reachable`
        hasNext := r.offset + shown.length < total && r.offset + 2 * r.size ≤ windowLimit
        nextCursor := if r.offset + r.size < total then some (r.offset + r.size) else none
        results := shown }

end Search

/-! ### The merged results -/

section Merged

variable (c : Content) (r : Request)

def allEvents : List Item := ((eventHits c r).map EventDoc.row).filter r.keeps

def allFindings : List Item :=
  if r.eventOnlyFilter then [] else (matchedFindings c r).map FindingRow.row

/-- Every memory row that no excluded term takes out, in the order of `memory_search_results`. -/
def allMemory : List Item :=
  sortMemory r (c.evidences.flatMap fun ranked =>
    ((ranked r.memorySort).filter fun hit => !hit.excluded).map MemoryHit.row)

/-- All the rows of the sources that the search asks for. -/
def allRows : List Item :=
  if r.wantsMemory then if r.unsupportedFilters then [] else allMemory c r
  else allEvents c r ++ allFindings c r ++ (if r.includesMemory then allMemory c r else [])

/-- The merged results: all the rows in the common order. -/
def mergedOrder : List Item :=
  if r.wantsMemory then allRows c r else sortMixedItems (allRows c r) r.mixedSort

/-- What page `k` has of them: the first `(k + 1) * n` rows of each source, of memory as far as
its page sizes go; a search for memory rows only fetches a single page of every evidence. -/
def fetched (k : ℕ) : List Item :=
  if r.wantsMemory then
    if r.unsupportedFilters then [] else memoryResults c r (memoryPageSize r.size)
  else
    eventRows c r ((k + 1) * r.size) ++ findingRows c r ((k + 1) * r.size) ++
      memoryRows c r ((k + 1) * r.size)

/-- The rows that a search shows; none where it raises. -/
def shown : Except HTTPException Response → List Item
  | .ok response => response.results
  | .error _ => []

/-- The rows of page `k`, from offset `k * n` on. -/
def pageRows (k : ℕ) : List Item := shown (searchCaseV2 c (r.forPage k))

/-- The pages are exact inside the window: the first `K` of them repeat no row, and of the first
`K * n` merged results they skip none. -/
def PagesExact : Prop :=
  ∀ K, K * r.size ≤ windowLimit → ((List.range K).flatMap (pageRows c r)).Nodup ∧
      ∀ x ∈ (mergedOrder c r).take (K * r.size), x ∈ (List.range K).flatMap (pageRows c r)

/-- Every page that is reached has all the merged results up to its own end. -/
def InReach : Prop :=
  ∀ k, (k + 1) * r.size ≤ windowLimit → k * r.size < (mergedOrder c r).length →
    ∀ x ∈ (mergedOrder c r).take ((k + 1) * r.size), x ∈ fetched c r k

end Merged

/-! ### No row comes twice -/

theorem perm_sortMixedItems (items : List Item) (sort : Text) :
    (sortMixedItems items sort).Perm items := by
  unfold sortMixedItems
  split_ifs <;> exact perm_sorted _ _ items

/-- The common sort keeps the order of what is left when rows are missing. -/
theorem sortMixedItems_eq_filter {part items : List Item} (sort : Text)
    (h : part.Sublist items) (hitems : items.Nodup) :
    sortMixedItems part sort = (sortMixedItems items sort).filter (· ∈ part) := by
  unfold sortMixedItems
  split_ifs <;> exact sorted_eq_filter _ _ h hitems

theorem perm_sortFindings (matched : List FindingRow) (sort : Text) :
    (sortFindings matched sort).Perm matched := by
  unfold sortFindings
  split_ifs <;> exact perm_sorted _ _ matched

section Distinct

variable (c : Content) (r : Request)

theorem nodup_allEvents : (allEvents c r).Nodup := by
  have hperm : (eventHits c r).Perm c.events := List.perm_insertionSort _ _
  have hids : ((eventHits c r).map EventDoc.id).Nodup :=
    (hperm.map EventDoc.id).nodup_iff.2 c.events_distinct
  refine List.Nodup.filter _ (List.Nodup.of_map Item.id ?_)
  rw [List.map_map]
  exact hids

theorem nodup_allFindings : (allFindings c r).Nodup := by
  unfold allFindings
  split_ifs
  · exact List.nodup_nil
  · have hids : ((matchedFindings c r).map FindingRow.id).Nodup :=
      ((perm_sortFindings _ _).map FindingRow.id).nodup_iff.2
        (c.findings_distinct.sublist (List.filter_sublist.map _))
    refine List.Nodup.of_map Item.id ?_
    rw [List.map_map]
    exact hids

theorem nodup_allMemory : (allMemory c r).Nodup := by
  have hrows : (c.evidences.flatMap fun ranked =>
      (((ranked r.memorySort).filter fun hit => !hit.excluded).map MemoryHit.row).map
        Item.id).Sublist
      (c.evidences.flatMap fun ranked => (ranked r.memorySort).map MemoryHit.id) := by
    refine List.Sublist.flatMap_right _ fun ranked _ => ?_
    rw [List.map_map]
    exact List.filter_sublist.map _
  have hids := c.memory_distinct r.memorySort
  rw [List.map_flatMap] at hids
  refine nodup_sorted.2 (List.Nodup.of_map Item.id ?_)
  rw [List.map_flatMap]
  exact hids.sublist hrows

theorem origin_allEvents {x : Item} (hx : x ∈ allEvents c r) : x.origin = .event := by
  obtain ⟨doc, -, rfl⟩ := List.mem_map.1 (List.mem_of_mem_filter hx)
  rfl

theorem origin_allFindings {x : Item} (hx : x ∈ allFindings c r) : x.origin = .finding := by
  unfold allFindings at hx
  split_ifs at hx
  · exact absurd hx List.not_mem_nil
  · obtain ⟨finding, -, rfl⟩ := List.mem_map.1 hx
    rfl

theorem origin_allMemory {x : Item} (hx : x ∈ allMemory c r) : x.origin = .memory := by
  obtain ⟨ranked, -, hx⟩ := List.mem_flatMap.1 (mem_sorted.1 hx)
  obtain ⟨hit, -, rfl⟩ := List.mem_map.1 hx
  rfl

theorem nodup_allRows : (allRows c r).Nodup := by
  unfold allRows
  split_ifs
  · exact List.nodup_nil
  · exact nodup_allMemory c r
  · -- rows of two sources differ in their origin
    refine List.Nodup.append (List.Nodup.append (nodup_allEvents c r) (nodup_allFindings c r) ?_)
      (nodup_allMemory c r) ?_
    · intro x hevent hfinding
      have := (origin_allEvents c r hevent).symm.trans (origin_allFindings c r hfinding)
      simp at this
    · intro x hdisk hmemory
      have hm := origin_allMemory c r hmemory
      rcases List.mem_append.1 hdisk with hx | hx
      · simp [origin_allEvents c r hx] at hm
      · simp [origin_allFindings c r hx] at hm
  · rw [List.append_nil]
    refine List.Nodup.append (nodup_allEvents c r) (nodup_allFindings c r) ?_
    intro x hevent hfinding
    have := (origin_allEvents c r hevent).symm.trans (origin_allFindings c r hfinding)
    simp at this

theorem nodup_mergedOrder : (mergedOrder c r).Nodup := by
  unfold mergedOrder
  split_ifs
  · exact nodup_allRows c r
  · exact (perm_sortMixedItems _ _).nodup_iff.2 (nodup_allRows c r)

/-! ### Each source gives a part of its rows, in their order -/

theorem eventRows_sublist (limit : ℕ) : (eventRows c r limit).Sublist (allEvents c r) :=
  ((List.take_sublist _ _).map _).filter _

theorem findingRows_sublist (limit : ℕ) : (findingRows c r limit).Sublist (allFindings c r) := by
  unfold findingRows allFindings
  split_ifs
  · exact List.Sublist.refl _
  · exact (List.take_sublist _ _).map _

theorem memoryResults_sublist (size : ℕ) : (memoryResults c r size).Sublist (allMemory c r) := by
  refine sorted_sublist _ _ ?_ (nodup_sorted.1 (nodup_allMemory c r))
  exact List.Sublist.flatMap_right _ fun ranked _ => ((List.take_sublist _ _).filter _).map _

theorem memoryRows_sublist (limit : ℕ) :
    (memoryRows c r limit).Sublist (if r.includesMemory then allMemory c r else []) := by
  unfold memoryRows
  split_ifs
  · exact (List.take_sublist _ _).trans
      ((List.drop_sublist _ _).trans (memoryResults_sublist c r _))
  · exact List.Sublist.refl _

theorem fetched_sublist (k : ℕ) : (fetched c r k).Sublist (allRows c r) := by
  unfold fetched allRows
  by_cases hmemory : r.wantsMemory = true
  · rw [if_pos hmemory, if_pos hmemory]
    split_ifs
    · exact List.Sublist.refl _
    · exact memoryResults_sublist c r _
  · rw [if_neg hmemory, if_neg hmemory]
    exact ((eventRows_sublist c r _).append (findingRows_sublist c r _)).append
      (memoryRows_sublist c r _)

end Distinct

/-! ### The pages -/

section Pages

variable (c : Content) (r : Request)

theorem size_pos : 0 < r.size := by
  unfold Request.size
  omega

theorem size_le : r.size ≤ 500 := by
  unfold Request.size
  omega

@[simp] theorem memoryPageSize_size : memoryPageSize r.size = r.size := by
  have hpos := size_pos r
  have hle := size_le r
  unfold memoryPageSize
  omega

@[simp] theorem pageNumber_forPage (k : ℕ) : (r.forPage k).pageNumber = k + 1 := by
  show (if (k : ℤ) + 1 = 0 then (1 : ℤ) else k + 1) = k + 1
  rw [if_neg (by omega)]

@[simp] theorem offset_forPage (k : ℕ) : (r.forPage k).offset = k * r.size := by
  show (max 0 (((r.forPage k).pageNumber - 1) * (r.size : ℤ))).toNat = k * r.size
  rw [pageNumber_forPage]
  have h : ((k : ℤ) + 1 - 1) * r.size = ((k * r.size : ℕ) : ℤ) := by push_cast; ring
  rw [h]
  omega

theorem memoryOnly_results : (memoryOnly c r).results =
    if r.unsupportedFilters then [] else memorySearchResults c r r.pageNumber r.size := by
  unfold memoryOnly
  split_ifs <;> rfl

/-- What a mixed search inside the window shows. -/
theorem shown_mixed (hmemory : ¬ r.wantsMemory = true)
    (hwindow : r.offset + r.size ≤ windowLimit) :
    shown (searchCaseV2 c r) = ((sortMixedItems (eventRows c r (r.offset + r.size) ++
      findingRows c r (r.offset + r.size) ++ memoryRows c r (r.offset + r.size))
        r.mixedSort).drop r.offset).take r.size := by
  rw [searchCaseV2, if_neg hmemory, if_neg (Nat.not_lt.2 hwindow), min_eq_left hwindow]
  rfl

/-- Page `k` of the search is page `k` of the merged results as far as they were fetched. -/
theorem pageRows_eq {k : ℕ} (hwindow : (k + 1) * r.size ≤ windowLimit) :
    pageRows c r k = page r.size (fun k x => x ∈ fetched c r k) (mergedOrder c r) k := by
  have hsucc : (k + 1) * r.size = k * r.size + r.size := Nat.succ_mul k r.size
  by_cases hmemory : r.wantsMemory = true
  · have hsearch : searchCaseV2 c (r.forPage k) = .ok (memoryOnly c (r.forPage k)) := if_pos hmemory
    have hrows : pageRows c r k =
        if r.unsupportedFilters then [] else memorySearchResults c r (k + 1) r.size := by
      rw [pageRows, hsearch, ← pageNumber_forPage r k]
      exact memoryOnly_results c (r.forPage k)
    by_cases hunsupported : r.unsupportedFilters = true
    · have hmerged : mergedOrder c r = [] := by
        rw [mergedOrder, if_pos hmemory, allRows, if_pos hmemory, if_pos hunsupported]
      rw [hrows, hmerged, if_pos hunsupported]
      simp [page]
    · have hmerged : mergedOrder c r = allMemory c r := by
        rw [mergedOrder, if_pos hmemory, allRows, if_pos hmemory, if_neg hunsupported]
      have hfetched : fetched c r k = memoryResults c r r.size := by
        rw [fetched, if_pos hmemory, if_neg hunsupported, memoryPageSize_size]
      have hstart : ((max ((k : ℤ) + 1) 1 - 1) * (r.size : ℤ)).toNat = k * r.size := by
        have h : (max ((k : ℤ) + 1) 1 - 1) * (r.size : ℤ) = ((k * r.size : ℕ) : ℤ) := by
          rw [max_eq_left (by omega)]
          push_cast
          ring
        rw [h]
        omega
      have hfilter := eq_filter_of_sublist (memoryResults_sublist c r r.size) (nodup_allMemory c r)
      rw [hrows, if_neg hunsupported, hmerged, page, hfetched, ← hfilter, memorySearchResults]
      show ((memoryResults c r (memoryPageSize r.size)).drop
        ((max ((k : ℤ) + 1) 1 - 1) * (memoryPageSize r.size : ℤ)).toNat).take
          (memoryPageSize r.size) = _
      rw [memoryPageSize_size, hstart]
  · have hoffset : (r.forPage k).offset + r.size = (k + 1) * r.size := by
      rw [offset_forPage, hsucc]
    have hinside : (r.forPage k).offset + (r.forPage k).size ≤ windowLimit := by
      show (r.forPage k).offset + r.size ≤ windowLimit
      rw [hoffset]
      exact hwindow
    have hresults : pageRows c r k
        = ((sortMixedItems (fetched c r k) r.mixedSort).drop (k * r.size)).take r.size := by
      rw [fetched, if_neg hmemory, ← hoffset, ← offset_forPage r k]
      exact shown_mixed c (r.forPage k) hmemory hinside
    rw [hresults, page, mergedOrder, if_neg hmemory,
      sortMixedItems_eq_filter r.mixedSort (fetched_sublist c r k) (nodup_allRows c r)]

/-- **The pages are exact if and only if every page that is reached has all the merged results up
to its own end**, that is, if no source's cut takes away a row that the common order puts in
front of it. -/
theorem pagesExact_iff : PagesExact c r ↔ InReach c r := by
  have hn := size_pos r
  have hpages : ∀ {K}, K * r.size ≤ windowLimit → (List.range K).flatMap (pageRows c r)
        = pages r.size (fun k x => x ∈ fetched c r k) (mergedOrder c r) K := by
    intro K hK
    refine List.flatMap_congr fun k hk => pageRows_eq c r ?_
    exact (Nat.mul_le_mul_right _ (List.mem_range.1 hk)).trans hK
  have hsees : ∀ k, SeesAll r.size (fun k x => x ∈ fetched c r k) (mergedOrder c r) k ↔
      ∀ x ∈ (mergedOrder c r).take ((k + 1) * r.size), x ∈ fetched c r k := by
    intro k
    simp only [SeesAll, decide_eq_true_eq]
  constructor
  · intro hexact k hwindow hreached
    have hK := hexact (k + 1) hwindow
    rw [hpages hwindow] at hK
    exact (hsees k).1 ((pages_exact_iff (nodup_mergedOrder c r) hn (k + 1)).1 hK k
      (Nat.lt_succ_self k) hreached)
  · intro hreach K hK
    rw [hpages hK]
    refine (pages_exact_iff (nodup_mergedOrder c r) hn K).2 fun k hk hreached => ?_
    exact (hsees k).2 (hreach k ((Nat.mul_le_mul_right _ hk).trans hK) hreached)

end Pages

/-! ### Two events of one moment -/

/-- An event of a moment that both events below share. -/
def tiedEvent (id : Text) (risk : ℤ) : EventDoc where
  id := id
  instant := some 1700000000000
  eventId := some id
  score := 1
  timestamp := some "2023-11-14T22:13:20Z".toList
  severity := none
  riskScore := some risk
  matchedFields := []
  sourceCategory := "Disk".toList

theorem tiedEvents_distinct :
    ([tiedEvent "a".toList 50, tiedEvent "b".toList 0].map EventDoc.id).Nodup := by decide

def tiedContent : Content where
  events := [tiedEvent "a".toList 50, tiedEvent "b".toList 0]
  findings := []
  evidences := []
  events_distinct := tiedEvents_distinct
  findings_distinct := List.nodup_nil
  memory_distinct := fun _ => List.nodup_nil

/-- The default search, one row a page. -/
def onePerPage : Request where
  sort := []
  page := 0
  pageSize := 1
  cursor := none
  category := none
  eventOnlyFilter := false
  unsupportedFilters := false
  hasQuery := false

/-- The index puts `b` in front (its id is greater), the common sort puts `a` in front (its risk
is): the first page fetches and shows `b`, the second one has both and shows `b` again. -/
theorem pages_repeat : pageRows tiedContent onePerPage 0 = [(tiedEvent "b".toList 0).row] ∧
    pageRows tiedContent onePerPage 1 = [(tiedEvent "b".toList 0).row] ∧
    mergedOrder tiedContent onePerPage
      = [(tiedEvent "a".toList 50).row, (tiedEvent "b".toList 0).row] ∧
    ¬ PagesExact tiedContent onePerPage := by
  have hfirst : pageRows tiedContent onePerPage 0 = [(tiedEvent "b".toList 0).row] := by
    decide +kernel
  have hsecond : pageRows tiedContent onePerPage 1 = [(tiedEvent "b".toList 0).row] := by
    decide +kernel
  refine ⟨hfirst, hsecond, by decide +kernel, fun hexact => ?_⟩
  have hnodup := (hexact 2 (by decide)).1
  rw [show List.range 2 = [0, 1] from rfl, List.flatMap_cons, List.flatMap_cons, hfirst,
    hsecond] at hnodup
  exact (List.nodup_cons.1 hnodup).1 (.head _)

end Kairon.Mixed

/-
Kairon/Graph/Links.lean

`_build_process_graph`, its first half: the nodes of the processes that were
started, and the link of each to its parent.

The events of one process are merged into one node (`Node.merge`), and every event
that leaves the node with a host and a PID logs the process as a holder of the PID.
A parent is named by its id, or else it is the last holder of the parent PID.
-/
import Kairon.Lib.Dict
import Kairon.Graph.Event

namespace Kairon.Graph

open Search (Text strip intStr)

variable (plat : Platform)

/-! ### Nodes -/

/-- The id of the process that an event starts. -/
def nodeId (event : Event) : Text :=
  orText (orText event.process.entityId event.eventId) event.id

/-- The names under which an event can be found again. -/
def eventRefs (event : Event) : List Text :=
  distinct (([event.searchDocId, event.opensearchId, event.id, event.eventId,
    event.stableEventId].map strip).filter (· ≠ []))

def eventHost (event : Event) : Text := orText event.hostName event.windowsComputer

/-- The node of a process with its first event. -/
def newNode (event : Event) : Node where
  id := nodeId event
  pid := safeIntish plat event.process.pid
  name := event.process.name
  path := event.process.path
  commandLine := event.process.commandLine
  user := event.userName
  sid := event.userSid
  host := eventHost event
  firstSeen := event.timestamp
  lastSeen := event.timestamp
  sourceType := orText event.eventType event.artifactParser
  sourceEventId := (eventRefs event).head?.getD []
  sourceEvents := []
  riskScore := 0
  riskReasons := []
  badges := []
  dataQuality := event.dataQuality
  confidence := if event.process.entityId = [] then "medium".toList else "high".toList
  parentEntityId := event.process.parentEntityId
  parentPid := safeIntish plat (event.process.parentPid.orElse event.process.ppid)
  parentName := event.process.parentName
  parentLinkStatus := "pending".toList
  parentLinkReason := "Parent link has not been evaluated yet.".toList
  parentLinkConfidence := "none".toList

/-- A node with one more event of its process. -/
def Node.merge (node : Node) (event : Event) : Node :=
  { node with
    pid := orInt node.pid (safeIntish plat event.process.pid)
    path := orText node.path event.process.path
    commandLine := orText node.commandLine event.process.commandLine
    user := orText node.user event.userName
    sid := orText node.sid event.userSid
    host := orText node.host (eventHost event)
    parentEntityId := orText node.parentEntityId event.process.parentEntityId
    parentPid := orInt node.parentPid
      (safeIntish plat (event.process.parentPid.orElse event.process.ppid))
    parentName := orText node.parentName event.process.parentName
    firstSeen :=
      if event.timestamp ≠ [] ∧ (node.firstSeen = [] ∨ event.timestamp < node.firstSeen) then
        event.timestamp
      else node.firstSeen
    lastSeen :=
      if event.timestamp ≠ [] ∧ (node.lastSeen = [] ∨ node.lastSeen < event.timestamp) then
        event.timestamp
      else node.lastSeen
    sourceEvents := node.sourceEvents ++ (eventRefs event).filter fun ref => ref ∉ node.sourceEvents
    sourceEventId := orText node.sourceEventId ((eventRefs event).getLast?.getD [])
    sourceType := orText node.sourceType (orText event.eventType event.artifactParser) }

/-- An entry of `host_pid_index`: a process was logged with this PID on this host. -/
structure Holder where
  host : Text
  pid : ℤ
  id : Text
  ts : Option ℤ

/-- `nodes_by_id` and `host_pid_index`. -/
structure Started where
  nodes : List (Text × Node) := []
  holders : List Holder := []

/-- What an event logs of the process it belongs to. -/
def holderOf (node : Node) (event : Event) : Option Holder :=
  if node.host = [] then none
  else node.pid.map fun pid =>
    ⟨plat.lower node.host, pid, nodeId event, safeParseDt plat event.timestamp⟩

/-- One process start. -/
def startProcess (s : Started) (event : Event) : Started :=
  if nodeId event = [] then s
  else
    let node := ((Dict.get s.nodes (nodeId event)).getD (newNode plat event)).merge plat event
    { nodes := Dict.set (nodeId event) node s.nodes
      holders := s.holders ++ (holderOf plat node event).toList }

def startedProcesses (events : List Event) : Started :=
  (events.filter isProcessStartEvent).foldl (startProcess plat) {}

/-! ### Parents -/

/-- What becomes of the link of a process to its parent. -/
inductive ParentLink
  /-- The parent that is named was first seen later. -/
  | conflict (parentId : Text)
  /-- The parent that is named. -/
  | named (parentId : Text)
  /-- What would be needed to look for the parent is missing. -/
  | missing (parts : List Text)
  | notLogged
  /-- The last holder of the PID was another program. -/
  | otherProgram (holderName recorded : Text)
  /-- The last holder of the PID. -/
  | inferred (holderId : Text)

/-- The parts that are missing. -/
def missingParts (node : Node) : List Text :=
  (if node.parentEntityId = [] ∧ (node.parentPid = none ∨ node.parentPid = some 0) then
    ["parent PID/GUID".toList] else []) ++
  (if plat.lower node.host = [] then ["host".toList] else []) ++
  if safeParseDt plat node.firstSeen = none then ["timestamp".toList] else []

/-- Whether a process was logged as a holder before another started. -/
def Holder.precedes (holder : Holder) (id : Text) (host : Text) (pid start : ℤ) : Bool :=
  holder.host = host && holder.pid = pid && holder.id ≠ id && holder.ts.any fun ts => ts ≤ start

/-- `(ref["ts"], str(ref.get("id")))`, of a holder that has a time. -/
def Holder.key (holder : Holder) : ℤ ×ₗ Text := toLex (holder.ts.getD 0, holder.id)

/-- `max(previous_holders, key=..)`: the first of the greatest. -/
def lastHolder : List Holder → Option Holder
  | [] => none
  | first :: rest => some (rest.foldl
      (fun best holder => if best.key < holder.key then holder else best) first)

/-- The part of the loop that looks for a holder of the parent PID. -/
def inferredParent (s : Started) (node : Node) : ParentLink :=
  match node.parentPid, safeParseDt plat node.firstSeen with
  | some pid, some start =>
    if pid = 0 ∨ plat.lower node.host = [] then .missing (missingParts plat node)
    else
      match lastHolder (s.holders.filter fun holder =>
          holder.precedes node.id (plat.lower node.host) pid start) with
      | none => .notLogged
      | some holder =>
        let holderName := (Dict.get s.nodes holder.id).bind fun other =>
          safeNameFromPath plat (orText other.name other.path)
        match safeNameFromPath plat (plat.lower (strip node.parentName)), holderName with
        | some recorded, some name =>
          if plat.lower name ≠ plat.lower recorded then .otherProgram name recorded
          else .inferred holder.id
        | _, _ => .inferred holder.id
  | _, _ => .missing (missingParts plat node)

/-- Whether the first time is there and before the second, which is there too. -/
def earlier (first second : Option ℤ) : Bool :=
  first.any fun a => second.any fun b => a < b

def parentLink (s : Started) (node : Node) : ParentLink :=
  match Dict.get s.nodes node.parentEntityId with
  | some parent =>
    if node.parentEntityId = [] ∨ node.parentEntityId = node.id then inferredParent plat s node
    else if earlier (safeParseDt plat node.firstSeen) (safeParseDt plat parent.firstSeen) then
      .conflict node.parentEntityId
    else .named node.parentEntityId
  | none => inferredParent plat s node

/-- A `spawned` edge. -/
def spawnedEdge (source : Text) (node : Node) (confidence reason : String) : Edge where
  source := source
  target := node.id
  type := "spawned".toList
  confidence := confidence.toList
  sourceEventId := node.sourceEvents.head?.getD []
  reason := reason.toList

/-- The edge that a link adds. -/
def ParentLink.edge (link : ParentLink) (node : Node) : Option Edge :=
  match link with
  | .named parentId => some (spawnedEdge parentId node "high" "sysmon_parent_process_guid")
  | .inferred holderId =>
    some (spawnedEdge holderId node "medium" "security_4688_parent_pid_inferred")
  | _ => none

/-- `_set_parent_status`. -/
def Node.setParentStatus (node : Node) (status reason : Text) (confidence : String) : Node :=
  { node with
    parentLinkStatus := status
    parentLinkReason := reason
    parentLinkConfidence := confidence.toList }

/-- `sorted(set(node.get("data_quality") or []) | labels)`. -/
def Node.addQuality (node : Node) (labels : List String) : Node :=
  { node with
    dataQuality := (distinct (node.dataQuality ++ labels.map String.toList)).insertionSort
      fun a b => a ≤ b }

/-- What a link sets on the node. -/
def ParentLink.annotate (link : ParentLink) (node : Node) : Node :=
  match link with
  | .conflict _ =>
    (node.setParentStatus "parent_link_temporal_conflict".toList
      ("ParentProcessGuid matched exactly, but this process was observed before the claimed " ++
        "parent started; likely PID/GUID reuse.").toList "low").addQuality
      ["parent_before_child_conflict", "process_graph_orphan"]
  | .named _ =>
    node.setParentStatus "linked".toList
      "Linked exactly by Sysmon ProcessGuid / ParentProcessGuid.".toList "high"
  | .missing [] =>
    (node.setParentStatus "parent_not_found".toList
      ("Parent event could not be searched because required context is " ++
        "unavailable.").toList "none").addQuality ["parent_not_found", "process_graph_orphan"]
  | .missing (part :: parts) =>
    (node.setParentStatus "parent_fields_missing".toList
      ("Parent fields missing: ".toList ++ List.intercalate ", ".toList (part :: parts) ++
        ['.']) "none").addQuality ["parent_fields_missing", "process_graph_orphan"]
  | .notLogged =>
    (node.setParentStatus "parent_not_found".toList
      "The parent started before the first logged process start in this scope.".toList
      "none").addQuality ["parent_not_found", "process_graph_orphan"]
  | .otherProgram holderName recorded =>
    (node.setParentStatus "parent_not_found".toList
      ("PID ".toList ++ intStr (node.parentPid.getD 0) ++
        " was last logged starting as ".toList ++ holderName ++ ", not ".toList ++ recorded ++
        ": the parent's start is not in the events.".toList) "none").addQuality
      ["parent_not_found", "process_graph_orphan"]
  | .inferred _ =>
    { (node.setParentStatus "linked".toList
        "Linked by parent PID: the last process started with that PID before this one.".toList
        "medium").addQuality ["parent_inferred_by_pid"] with confidence := "medium".toList }

/-- The edges of the links, one node after the other. -/
def spawnedEdges (s : Started) : List Edge :=
  s.nodes.filterMap fun entry => (parentLink plat s entry.2).edge entry.2

/-- Whether the edges can be made: one of a process whose events have no ids raises an
`IndexError`. -/
def EdgesMade (s : Started) : Prop :=
  ∀ entry ∈ s.nodes, (parentLink plat s entry.2).edge entry.2 ≠ none → entry.2.sourceEvents ≠ []

instance (s : Started) : Decidable (EdgesMade plat s) :=
  inferInstanceAs (Decidable (∀ _ ∈ _, _ → _))

/-- The nodes with what their links set on them. -/
def linkedNodes (s : Started) : List (Text × Node) :=
  s.nodes.map fun entry => (entry.1, (parentLink plat s entry.2).annotate entry.2)

/-! ### What the nodes and holders are -/

section

variable {plat} {events : List Event} {s : Started}

/-- The first of the timestamps of a process, as texts; empty if none of its events has
one. -/
structure FirstOf (events : List Event) (id text : Text) : Prop where
  least : ∀ event ∈ events, nodeId event = id → event.timestamp ≠ [] →
    text ≠ [] ∧ text ≤ event.timestamp
  origin : text = [] ∨ ∃ event ∈ events, nodeId event = id ∧ event.timestamp = text

/-- What holds after some process starts. -/
structure Started.Sound (plat : Platform) (events : List Event) (s : Started) : Prop where
  nodup : (s.nodes.map Prod.fst).Nodup
  id_eq : ∀ entry ∈ s.nodes, entry.2.id = entry.1 ∧ entry.1 ≠ []
  firstSeen : ∀ entry ∈ s.nodes, FirstOf events entry.1 entry.2.firstSeen
  known : ∀ event ∈ events, nodeId event ≠ [] → nodeId event ∈ s.nodes.map Prod.fst
  holders : ∀ holder ∈ s.holders, holder.id ∈ s.nodes.map Prod.fst ∧
    ∃ event ∈ events, nodeId event = holder.id ∧ holder.ts = safeParseDt plat event.timestamp

theorem sound_empty (plat : Platform) : Started.Sound plat [] {} where
  nodup := List.nodup_nil
  id_eq := fun _ h => absurd h List.not_mem_nil
  firstSeen := fun _ h => absurd h List.not_mem_nil
  known := fun _ h => absurd h List.not_mem_nil
  holders := fun _ h => absurd h List.not_mem_nil

theorem FirstOf.other {id text : Text} {event : Event} (h : FirstOf events id text)
    (hne : nodeId event ≠ id) : FirstOf (events ++ [event]) id text where
  least := by
    intro other hother heq
    rcases List.mem_append.1 hother with hother | hother
    · exact h.least other hother heq
    · exact absurd (List.mem_singleton.1 hother ▸ heq) hne
  origin := h.origin.imp_right fun ⟨other, hother, hsame⟩ =>
    ⟨other, List.mem_append_left _ hother, hsame⟩

/-- The first timestamp with one more event of the process. -/
theorem FirstOf.merge {id : Text} {event : Event} {node : Node}
    (h : FirstOf events id node.firstSeen) (heq : nodeId event = id) :
    FirstOf (events ++ [event]) id (node.merge plat event).firstSeen := by
  rw [Node.merge]
  dsimp only
  split_ifs with hcond
  · refine ⟨?_, .inr ⟨event, by simp, heq, rfl⟩⟩
    intro other hother hid hstamp
    refine ⟨hcond.1, ?_⟩
    rcases List.mem_append.1 hother with hother | hother
    · obtain ⟨hne, hle⟩ := h.least other hother hid hstamp
      exact (hcond.2.resolve_left hne).le.trans hle
    · rw [List.mem_singleton.1 hother]
  · refine ⟨?_, h.origin.imp_right fun ⟨other, hother, hsame⟩ =>
      ⟨other, List.mem_append_left _ hother, hsame⟩⟩
    intro other hother hid hstamp
    rcases List.mem_append.1 hother with hother | hother
    · exact h.least other hother hid hstamp
    · rw [List.mem_singleton.1 hother] at hstamp ⊢
      have hlate := not_and.1 hcond hstamp
      exact ⟨fun hnil => hlate (.inl hnil), not_lt.1 fun hlt => hlate (.inr hlt)⟩

theorem Started.Sound.start (h : s.Sound plat events) (event : Event) :
    (startProcess plat s event).Sound plat (events ++ [event]) := by
  rw [startProcess]
  split_ifs with hid
  · refine ⟨h.nodup, h.id_eq, ?_, ?_, ?_⟩
    · intro entry hentry
      exact (h.firstSeen entry hentry).other fun heq => (h.id_eq entry hentry).2 (heq ▸ hid)
    · intro other hother hne
      rcases List.mem_append.1 hother with hother | hother
      · exact h.known other hother hne
      · exact absurd (List.mem_singleton.1 hother ▸ hid) hne
    · intro holder hholder
      obtain ⟨hin, other, hother, hsame⟩ := h.holders holder hholder
      exact ⟨hin, other, List.mem_append_left _ hother, hsame⟩
  have hkeys : ∀ id, id ∈ s.nodes.map Prod.fst ∨ id = nodeId event →
      id ∈ (Dict.set (nodeId event) (((Dict.get s.nodes (nodeId event)).getD
        (newNode plat event)).merge plat event) s.nodes).map Prod.fst := by
    intro id hin
    by_cases hkey : nodeId event ∈ s.nodes.map Prod.fst
    · rw [Dict.keys_set_of_mem hkey]
      exact hin.elim (fun hin => hin) fun heq => heq ▸ hkey
    · rw [Dict.keys_set hkey, List.mem_append, List.mem_singleton]
      exact hin
  have hold : (((Dict.get s.nodes (nodeId event)).getD (newNode plat event)).id = nodeId event) ∧
      FirstOf (events ++ [event]) (nodeId event) (((Dict.get s.nodes (nodeId event)).getD
        (newNode plat event)).merge plat event).firstSeen := by
    rcases hget : Dict.get s.nodes (nodeId event) with - | node
    · refine ⟨rfl, ?_⟩
      have hnone : ∀ other ∈ events, nodeId other ≠ nodeId event := by
        intro other hother heq
        refine Dict.get_eq_none.1 hget ?_
        rw [← heq]
        exact h.known other hother (heq ▸ hid)
      -- the first event of the process has the first timestamp
      have hfirst : ((newNode plat event).merge plat event).firstSeen = event.timestamp := by
        show (if event.timestamp ≠ [] ∧ (event.timestamp = [] ∨ event.timestamp < event.timestamp)
          then event.timestamp else event.timestamp) = event.timestamp
        rw [ite_self]
      rw [Option.getD_none, hfirst]
      refine ⟨?_, .inr ⟨event, by simp, rfl, rfl⟩⟩
      intro other hother heq hstamp
      rcases List.mem_append.1 hother with hother | hother
      · exact absurd heq (hnone other hother)
      · rw [List.mem_singleton.1 hother] at hstamp ⊢
        exact ⟨hstamp, le_rfl⟩
    · have hmem := Dict.mem_of_get hget
      exact ⟨(h.id_eq _ hmem).1, (h.firstSeen _ hmem).merge rfl⟩
  refine ⟨Dict.nodup_keys_set _ _ h.nodup, ?_, ?_, ?_, ?_⟩
  · intro entry hentry
    rcases Dict.mem_of_mem_set hentry with rfl | hentry
    · exact ⟨hold.1, hid⟩
    · exact h.id_eq entry hentry
  · intro entry hentry
    by_cases heq : entry.1 = nodeId event
    · have hget := Dict.get_of_mem (Dict.nodup_keys_set _ _ h.nodup) hentry
      rw [heq, Dict.get_set, if_pos rfl] at hget
      rw [← Option.some.inj hget, heq]
      exact hold.2
    · rcases Dict.mem_of_mem_set hentry with rfl | hentry
      · exact absurd rfl heq
      · exact (h.firstSeen entry hentry).other fun hsame => heq hsame.symm
  · intro other hother hne
    rcases List.mem_append.1 hother with hother | hother
    · exact hkeys _ (.inl (h.known other hother hne))
    · exact hkeys _ (.inr (List.mem_singleton.1 hother ▸ rfl))
  · intro holder hholder
    rcases List.mem_append.1 hholder with hholder | hholder
    · obtain ⟨hin, other, hother, hsame⟩ := h.holders holder hholder
      exact ⟨hkeys _ (.inl hin), other, List.mem_append_left _ hother, hsame⟩
    · rw [Option.mem_toList, holderOf] at hholder
      split_ifs at hholder with hhost
      obtain ⟨pid, -, rfl⟩ := Option.map_eq_some_iff.1 hholder
      exact ⟨hkeys _ (.inr rfl), event, by simp, rfl, rfl⟩

theorem startedProcesses_sound (plat : Platform) (events : List Event) :
    (startedProcesses plat events).Sound plat (events.filter isProcessStartEvent) := by
  rw [startedProcesses]
  induction events.filter isProcessStartEvent using List.reverseRecOn with
  | nil => exact sound_empty plat
  | append_singleton before event ih =>
    rw [List.foldl_append]
    exact ih.start event

end

end Kairon.Graph

/-
Kairon/Graph/Build.lean

`_build_process_graph`: the processes with their risk, and what other events say
about them.

Every other event is looked at with the nodes it can belong to.  The nodes come
from an index (`NodeMatchIndex`), whose candidates are compared again with the
event; `buildByComparing` is the same with all nodes for candidates.
-/
import Kairon.Lib.Postings
import Kairon.Graph.Links

namespace Kairon.Graph

open Search (Text strip)
open WindowsPath (normalizeForClassification)
open Postings (pushAll lookup)

variable (plat : Platform)

/-! ### Comparing nodes and events -/

def nodeEntity (node : Node) : Text := strip (orText node.id node.entityId)

def eventEntity (event : Event) : Text :=
  strip (orText event.process.entityId event.process.guid)

def eventPid (event : Event) : Option ℤ := safeIntish plat event.process.pid

def nodePath (node : Node) : Option Text :=
  (normalizeForClassification (strip node.path)).map plat.lower

def nodeName (node : Node) : Text := plat.lower node.name

def eventName (event : Event) : Text := plat.lower event.process.name

/-- The hosts do not differ, as far as they are known. -/
def sameHost (node : Node) (event : Event) : Bool :=
  plat.lower (strip node.host) = [] || plat.lower (strip event.hostName) = [] ||
    plat.lower (strip node.host) = plat.lower (strip event.hostName)

/-- `_node_matches_event_path`. -/
def nodeMatchesEventPath (node : Node) (event : Event) : Bool :=
  (nodeEntity node ≠ [] && eventEntity event ≠ [] && nodeEntity node = eventEntity event) ||
  ((node.pid.any fun pid => eventPid plat event = some pid) && sameHost plat node event) ||
  ((nodePath plat node).any fun path => path ∈ eventPathCandidates plat event) ||
  (nodeName plat node ≠ [] && eventName plat event ≠ [] &&
    nodeName plat node = eventName plat event)

/-! ### The index -/

section Index

variable {ρ : Type} [DecidableEq ρ]

/-- `_NodeMatchIndex`; nodes are told apart by references. -/
structure NodeMatchIndex (ρ : Type) where
  order : List ρ := []
  byEntity : List (Text × List ρ) := []
  byPid : List (ℤ × List ρ) := []
  byPath : List (Text × List ρ) := []
  byName : List (Text × List ρ) := []

/-- A text as a key: an empty one is none. -/
def textKey (text : Text) : Option Text := if text = [] then none else some text

def NodeMatchIndex.add (index : NodeMatchIndex ρ) (ref : ρ) (node : Node) : NodeMatchIndex ρ :=
  if ref ∈ index.order then index
  else
    { order := index.order ++ [ref]
      byEntity := pushAll (textKey (nodeEntity node)) ref index.byEntity
      byPid := pushAll node.pid ref index.byPid
      byPath := pushAll (nodePath plat node) ref index.byPath
      byName := pushAll (textKey (nodeName plat node)) ref index.byName }

/-- What the dictionaries have for an event. -/
def NodeMatchIndex.found (index : NodeMatchIndex ρ) (event : Event) : List ρ :=
  (if eventEntity event = [] then [] else lookup index.byEntity (eventEntity event)) ++
  ((eventPid plat event).elim [] fun pid => lookup index.byPid pid) ++
  ((eventPathCandidates plat event).flatMap fun path => lookup index.byPath path) ++
  if eventName plat event = [] then [] else lookup index.byName (eventName plat event)

/-- `candidates`: each that is found, in the order in which they were added. -/
def NodeMatchIndex.candidates (index : NodeMatchIndex ρ) (event : Event) : List ρ :=
  (index.found plat event).eraseDups.insertionSort fun a b =>
    index.order.idxOf a ≤ index.order.idxOf b

end Index

/-! ### Activity -/

def fileActivityTypes : List Text :=
  ["sysmon_file_created", "sysmon_file_create_stream_hash", "sysmon_file_deleted"].map
    String.toList

/-- `REGISTRY_ACTIVITY_EVENT_TYPES`. -/
def registryActivityTypes : List Text :=
  ["registry_key_created_or_deleted", "registry_value_set", "registry_key_or_value_renamed",
    "sysmon_registry_key_event", "sysmon_registry_value_set",
    "sysmon_registry_key_renamed"].map String.toList

/-- `_activity_edge_type`. -/
def activityEdgeType (event : Event) : Text :=
  if event.eventType = "sysmon_network_connection".toList then "network_activity".toList
  else if event.eventType = "sysmon_dns_query".toList then "dns_activity".toList
  else if event.eventType ∈ fileActivityTypes then "file_activity".toList
  else if event.eventType ∈ registryActivityTypes then "registry_activity".toList
  else if event.eventType = "sysmon_image_loaded".toList then "image_load".toList
  else if event.eventType = "sysmon_process_access".toList then "process_access".toList
  else if event.eventType = "sysmon_create_remote_thread".toList then "remote_thread".toList
  else "activity".toList

/-- The label and the badge of an activity node. -/
def activityLabel (event : Event) : Option (Text × Text) :=
  if event.eventType = "sysmon_network_connection".toList then
    some (orText (orText event.destinationIp event.destinationHostname) ['?'] ++ [':'] ++
      orText event.destinationPort ['?'], "network_activity".toList)
  else if event.eventType = "sysmon_dns_query".toList then
    some (orText (orText event.dnsQuestionName event.dnsQuery) "DNS query".toList,
      "dns_activity".toList)
  else if event.eventType ∈ fileActivityTypes then
    some (orText (orText event.filePath event.targetFilename) "File activity".toList,
      "file_activity".toList)
  else if event.eventType ∈ registryActivityTypes then
    some (orText (orText event.registryPath event.registryKeyPath) "Registry activity".toList,
      "registry_activity".toList)
  else none

def eventRef (event : Event) : Text := orText event.id event.eventId

/-- `_activity_node_payload`. -/
def activityNodePayload (event : Event) : Option Node :=
  if eventRef event = [] then none
  else (activityLabel event).map fun labelled =>
    { id := "activity:".toList ++ eventRef event
      pid := eventPid plat event
      name := labelled.1
      path := []
      commandLine := orText event.message labelled.1
      user := event.userName
      sid := event.userSid
      host := event.hostName
      firstSeen := event.timestamp
      lastSeen := event.timestamp
      sourceEvents := [eventRef event]
      riskScore := event.riskScore
      riskReasons := event.suspiciousReasons
      badges := [labelled.2]
      dataQuality := event.dataQuality
      confidence := "high".toList
      nodeType := "activity".toList }

/-! ### The risk of the processes -/

def Node.raise (node : Node) (score : ℤ) (reason : String) (badges : List String) : Node :=
  { node with
    riskScore := max node.riskScore score
    riskReasons := distinct (node.riskReasons ++ [reason.toList])
    badges := distinct (node.badges ++ badges.map String.toList) }

/-- The risk of a process by its own fields and the name of its parent. -/
def Node.assess (node : Node) : Node :=
  let risk := processBadgesAndRisk plat node
  let node := { node with
    riskScore := max node.riskScore risk.score
    riskReasons := distinct (node.riskReasons ++ risk.reasons)
    badges := distinct (node.badges ++ risk.badges) }
  let parentName := plat.lower node.parentName
  let childName := plat.lower node.name
  let node :=
    if parentName ∈ ["winword.exe", "excel.exe", "powerpnt.exe", "outlook.exe"].map String.toList ∧
        childName ∈ ["powershell.exe", "pwsh.exe", "cmd.exe", "wscript.exe", "cscript.exe",
          "mshta.exe"].map String.toList then
      node.raise 90 "Office spawned script interpreter" ["office_child", "suspicious_chain"]
    else node
  if parentName ∈ browserNames ∧ endsWithAny [".exe", ".ps1", ".bat", ".cmd"] childName then
    if isBrowserInternalChild plat parentName childName node.path then
      { node with
        riskScore := min node.riskScore 20
        badges := distinct (node.badges ++
          ["browser_internal_child".toList, "low_noise_process".toList])
        dataQuality := distinct (node.dataQuality ++ ["noisy_browser_child".toList]) }
    else node.raise 85 "Browser spawned executable" ["browser_child", "suspicious_chain"]
  else node

/-- What an event adds to the risk of a node it belongs to. -/
def Node.mark (node : Node) (event : Event) : Node :=
  let marked (score : ℤ) (reason badge : String) : Node :=
    { node with
      riskScore := min (max node.riskScore score) 100
      riskReasons := distinct (node.riskReasons ++ [reason.toList])
      badges := distinct (node.badges ++ [badge.toList]) }
  if event.artifactType = "browser".toList ∧ event.eventType = "file_downloaded".toList then
    marked 85 "Process associated with browser download" "browser_download"
  else if event.artifactType = "bits".toList then
    marked 80 "Process associated with BITS download" "bits_download"
  else if event.artifactType = "detection".toList then
    marked 85 "Process associated with Defender detection" "defender_detection"
  else if event.artifactType = "dns".toList ∧ event.suspiciousReasons ≠ [] then
    marked 70 "Process has suspicious DNS activity" "dns_activity"
  else if event.artifactType = "srum".toList ∧ 50000000 ≤ event.srumBytesSent then
    marked 75 "Process has high SRUM outbound bytes" "network_activity"
  else if event.artifactType = "autorun".toList then
    marked 75 "Autorun process observed" "autorun"
  else
    { node with
      riskScore := min node.riskScore 100
      riskReasons := distinct node.riskReasons
      badges := distinct node.badges }

/-! ### The loop over the events -/

/-- `nodes_by_id`, `edges`, `edge_ids` and `activity_counts_by_node`. -/
structure Activity where
  nodes : List (Text × Node)
  edges : List Edge
  edgeIds : List Text
  counts : List (Text × ℕ)

def activityEdgeId (node : Node) (activityId : Text) : Text :=
  "activity:".toList ++ node.id ++ "->".toList ++ activityId

def activityEdge (event : Event) (node payload : Node) : Edge where
  id := activityEdgeId node payload.id
  source := node.id
  target := payload.id
  type := activityEdgeType event
  confidence := "high".toList
  sourceEventId := eventRef event
  timestamp := event.timestamp
  reason := orText event.eventType "process_activity".toList
  summary := orText (orText (orText event.message payload.name) event.eventType)
    (activityEdgeType event)
  weight := 1
  risk := if event.riskScore = 0 then payload.riskScore else event.riskScore

/-- The activity of an event, as a node and an edge from a node it belongs to; at most 25
of a node. -/
def Activity.attach (s : Activity) (event : Event) (node : Node) : Activity :=
  match activityNodePayload plat event with
  | none => s
  | some payload =>
    if 25 ≤ (Dict.get s.counts node.id).getD 0 then s
    else
      { nodes := if (Dict.get s.nodes payload.id).isSome then s.nodes
          else Dict.set payload.id payload s.nodes
        edges := if activityEdgeId node payload.id ∈ s.edgeIds then s.edges
          else s.edges ++ [activityEdge event node payload]
        edgeIds := if activityEdgeId node payload.id ∈ s.edgeIds then s.edgeIds
          else s.edgeIds ++ [activityEdgeId node payload.id]
        counts := Dict.set node.id ((Dict.get s.counts node.id).getD 0 + 1) s.counts }

/-- One node and an event that belongs to it. -/
def Activity.visit (s : Activity) (event : Event) (ref : Text) (node : Node) : Activity :=
  let t := s.attach plat event node
  { t with nodes := Dict.set ref (node.mark event) t.nodes }

/-- The node that an event adds with its activity, if it is new. -/
def Activity.added (s : Activity) (event : Event) (node : Node) : Option Node :=
  (activityNodePayload plat event).filter fun payload =>
    (Dict.get s.counts node.id).getD 0 < 25 && (Dict.get s.nodes payload.id).isNone

/-- One candidate of an event, with the index. -/
def visitIndexed (event : Event) (s : Activity × NodeMatchIndex Text) (ref : Text) :
    Activity × NodeMatchIndex Text :=
  match Dict.get s.1.nodes ref with
  | none => s
  | some node =>
    if nodeMatchesEventPath plat node event then
      (s.1.visit plat event ref node,
        (s.1.added plat event node).elim s.2 fun payload => s.2.add plat payload.id payload)
    else s

def eventIndexed (s : Activity × NodeMatchIndex Text) (event : Event) :
    Activity × NodeMatchIndex Text :=
  (s.2.candidates plat event).foldl (visitIndexed plat event) s

/-- One node that is compared with an event, without the index. -/
def visitCompared (event : Event) (s : Activity) (ref : Text) : Activity :=
  match Dict.get s.nodes ref with
  | none => s
  | some node =>
    if nodeMatchesEventPath plat node event then s.visit plat event ref node else s

def eventCompared (s : Activity) (event : Event) : Activity :=
  (s.nodes.map Prod.fst).foldl (visitCompared plat event) s

/-- What stands when the loop begins. -/
def activityStart (s : Started) : Activity where
  nodes := (linkedNodes plat s).map fun entry => (entry.1, entry.2.assess plat)
  edges := spawnedEdges plat s
  edgeIds := []
  counts := []

/-- The index of all nodes that are there. -/
def indexAll (nodes : List (Text × Node)) : NodeMatchIndex Text :=
  nodes.foldl (fun index entry => index.add plat entry.1 entry.2) {}

def Activity.graph (s : Activity) : Graph := ⟨s.nodes.map Prod.snd, s.edges⟩

/-- `_build_process_graph`, unless it raises. -/
def buildProcessGraph (events : List Event) : Option Graph :=
  let s := startedProcesses plat events
  let start := activityStart plat s
  if EdgesMade plat s then
    some ((events.filter fun event => !isProcessStartEvent event).foldl (eventIndexed plat)
      (start, indexAll plat start.nodes)).1.graph
  else none

/-- The same with every event compared with every node. -/
def buildByComparing (events : List Event) : Option Graph :=
  let s := startedProcesses plat events
  if EdgesMade plat s then
    some ((events.filter fun event => !isProcessStartEvent event).foldl (eventCompared plat)
      (activityStart plat s)).graph
  else none

end Kairon.Graph

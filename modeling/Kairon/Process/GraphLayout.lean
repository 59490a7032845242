/-
Kairon/Process/GraphLayout.lean

`buildProcessGraphLayout`: the places of the cards of a process graph.

The children of a node come from the edges and from the nodes' own lists.  Depths are
raised by a loop that has no set of what it has seen, so that it is modelled with its
turns (`depthTurn`); the cards then stand in columns by depth.
-/
import Kairon.Lib.Turns
import Kairon.Lib.Postings

namespace Kairon.Process

open Postings (push lookup columns)

variable {Id : Type} [DecidableEq Id]

structure GraphNodeLike (Id : Type) where
  processEntityId : Id
  pid : ℤ
  truncated : Option Bool := none
  /-- The ids of the children. -/
  children : List Id := []

structure GraphEdgeLike (Id : Type) where
  id : Option Id := none
  source : Id
  target : Id

structure GraphLayoutNode (Id : Type) where
  id : Id
  depth : ℕ
  x : ℕ
  y : ℕ
  width : ℕ
  height : ℕ
  truncated : Option Bool

structure GraphLayout (Id : Type) where
  width : ℕ
  height : ℕ
  nodes : List (GraphLayoutNode Id)
  edges : List (GraphEdgeLike Id)
  byId : List (Id × GraphLayoutNode Id)
  maxDepth : ℕ

def graphPadding : ℕ := 24

/-- The options, with `GRAPH_CARD_WIDTH` and the other constants as defaults. -/
structure LayoutOptions where
  cardWidth : ℕ := 260
  cardHeight : ℕ := 104
  columnGap : ℕ := 36
  rowGap : ℕ := 12

/-! ### Children and roots -/

/-- `childrenByParent` and `incoming`. -/
structure Links (Id : Type) where
  childrenByParent : List (Id × List Id)
  incoming : List (Id × ℕ)

def Links.addEdge (s : Links Id) (edge : GraphEdgeLike Id) : Links Id :=
  if (Dict.get s.incoming edge.source).isNone ∨ (Dict.get s.incoming edge.target).isNone ∨
      edge.source = edge.target then s
  else
    { childrenByParent := push edge.source edge.target s.childrenByParent
      incoming := Dict.set edge.target ((Dict.get s.incoming edge.target).getD 0 + 1) s.incoming }

/-- One entry of a node's own list. -/
def Links.addChild (parent : Id) (s : Links Id) (child : Id) : Links Id where
  childrenByParent :=
    if child ∈ lookup s.childrenByParent parent then s.childrenByParent
    else push parent child s.childrenByParent
  incoming :=
    if (Dict.get s.incoming child).isSome then
      Dict.set child ((Dict.get s.incoming child).getD 0 + 1) s.incoming
    else s.incoming

def Links.addNode (s : Links Id) (node : GraphNodeLike Id) : Links Id :=
  node.children.foldl (Links.addChild node.processEntityId) s

/-- No children, and nothing incoming for any node. -/
def noLinks (nodes : List (GraphNodeLike Id)) : Links Id where
  childrenByParent := []
  incoming := nodes.foldl (fun incoming node => Dict.set node.processEntityId 0 incoming) []

def buildLinks (nodes : List (GraphNodeLike Id)) (edges : List (GraphEdgeLike Id)) : Links Id :=
  nodes.foldl Links.addNode (edges.foldl Links.addEdge (noLinks nodes))

/-- More children first, then by PID. -/
def Links.key (links : Links Id) (node : GraphNodeLike Id) : ℤ ×ₗ ℤ :=
  toLex (-((lookup links.childrenByParent node.processEntityId).length : ℤ), node.pid)

def sortedNodes (links : Links Id) (nodes : List (GraphNodeLike Id)) : List (GraphNodeLike Id) :=
  nodes.insertionSort fun a b => links.key a ≤ links.key b

def roots (links : Links Id) (sorted : List (GraphNodeLike Id)) : List (GraphNodeLike Id) :=
  sorted.filter fun node => (Dict.get links.incoming node.processEntityId).getD 0 = 0

/-- The roots, without those whose first edge comes from a root. -/
def filteredRoots (edges : List (GraphEdgeLike Id)) (roots : List (GraphNodeLike Id)) :
    List (GraphNodeLike Id) :=
  roots.filter fun root =>
    ((edges.find? fun edge => edge.target = root.processEntityId).all fun edge =>
      edge.source ∉ roots.map GraphNodeLike.processEntityId)

/-! ### Depths -/

/-- `queue` and `depthById`. -/
structure DepthSearch (Id : Type) where
  queue : List Id
  depthById : List (Id × ℕ)

/-- A child gets the depth, unless it has it or a greater one. -/
def DepthSearch.raise (next : ℕ) (s : DepthSearch Id) (child : Id) : DepthSearch Id :=
  if (Dict.get s.depthById child).all fun depth => depth < next then
    { queue := s.queue ++ [child], depthById := Dict.set child next s.depthById }
  else s

/-- A turn of `while (queue.length)`. -/
def depthTurn (children : Id → List Id) (s : DepthSearch Id) :
    DepthSearch Id ⊕ List (Id × ℕ) :=
  match s.queue with
  | [] => .inr s.depthById
  | cur :: queue =>
    .inl ((children cur).foldl
      (DepthSearch.raise ((Dict.get s.depthById cur).getD 0 + 1)) ⟨queue, s.depthById⟩)

def depthStart (roots : List Id) : DepthSearch Id where
  queue := roots
  depthById := roots.foldl (fun depths root => Dict.set root 0 depths) []

/-- The depths of all nodes: 0 where the search did not come. -/
def allDepths (sorted : List (GraphNodeLike Id)) (depthById : List (Id × ℕ)) : List (Id × ℕ) :=
  sorted.foldl (fun depths node =>
    if (Dict.get depths node.processEntityId).isSome then depths
    else Dict.set node.processEntityId 0 depths) depthById

/-! ### Cards -/

def LayoutOptions.card (options : LayoutOptions) (depth index : ℕ) (node : GraphNodeLike Id) :
    GraphLayoutNode Id where
  id := node.processEntityId
  depth := depth
  x := graphPadding + depth * (options.cardWidth + options.columnGap)
  y := graphPadding + index * (options.cardHeight + options.rowGap)
  width := options.cardWidth
  height := options.cardHeight
  truncated := node.truncated

def LayoutOptions.column (options : LayoutOptions) (column : ℕ × List (GraphNodeLike Id)) :
    List (GraphLayoutNode Id) :=
  column.2.mapIdx fun index node => options.card column.1 index node

def layoutOf (options : LayoutOptions) (edges : List (GraphEdgeLike Id))
    (columns : List (ℕ × List (GraphNodeLike Id))) : GraphLayout Id :=
  let sorted := columns.insertionSort fun a b => a.1 ≤ b.1
  let layoutNodes := sorted.flatMap options.column
  let maxDepth := sorted.foldl (fun deepest column => max deepest column.1) 0
  let maxRows := sorted.foldl (fun most column => max most column.2.length) 0
  { width := max 420 (graphPadding * 2 + (maxDepth + 1) * options.cardWidth +
      maxDepth * options.columnGap)
    height := max 280 (graphPadding * 2 + maxRows * options.cardHeight +
      (maxRows - 1) * options.rowGap)
    nodes := layoutNodes
    edges := edges
    byId := layoutNodes.foldl (fun entries card => Dict.set card.id card entries) []
    maxDepth := maxDepth }

/-- `buildProcessGraphLayout`, for so many turns of its loop. -/
def buildProcessGraphLayout (fuel : ℕ) (nodes : List (GraphNodeLike Id))
    (edges : List (GraphEdgeLike Id)) (options : LayoutOptions) : Option (GraphLayout Id) :=
  let links := buildLinks nodes edges
  let sorted := sortedNodes links nodes
  let start := filteredRoots edges (roots links sorted)
  (Turns.run (depthTurn (lookup links.childrenByParent)) fuel
      (depthStart (start.map GraphNodeLike.processEntityId))).map fun depthById =>
    layoutOf options edges (columns (fun node =>
      (Dict.get (allDepths sorted depthById) node.processEntityId).getD 0) sorted)

end Kairon.Process

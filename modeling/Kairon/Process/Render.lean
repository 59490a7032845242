/-
Kairon/Process/Render.lean

`_build_tree_response`: the process tree as it is shown.

The roots are shown with what is below them, and so is every other process without
a parent.  PID 0 is shown only if it has no children, since its children are roots.
`process_tree_is_complete_forest` says that nothing is lost, and nothing is shown twice
unless PID 0 has a parent.
-/
import Kairon.Process.Tree

namespace Kairon.Process

open Search (Text)

variable {Id : Type} [LinearOrder Id]

/-! ### The response -/

/-- A process as it is shown: in full with its children, or as a placeholder. -/
inductive TreeNode (Id : Type)
  | stub (node : Node Id)
  | full (node : Node Id) (children : List (TreeNode Id)) (omittedChildren : ℕ)

/-- `children_map.get(eid, [])`. -/
def childrenOf (nodes : List (Node Id)) (id : Id) : List (Node Id) :=
  nodes.filter fun node =>
    node.parentEntityId = some id && nodes.any fun parent => parent.entity.id = id

def sortedByPid (nodes : List (Node Id)) : List (Node Id) :=
  nodes.insertionSort fun a b => a.entity.process.pid ≤ b.entity.process.pid

/-- A function with a counter, called on the members of a row one after the other. -/
def thread {α β : Type} (f : α → ℤ → β × ℤ) : List α → ℤ → List β × ℤ
  | [], remaining => ([], remaining)
  | x :: xs, remaining =>
    let first := f x remaining
    let rest := thread f xs first.2
    (first.1 :: rest.1, rest.2)

/-- `_walk`, with the number of levels that may be shown and the nodes that are left
under the cap. -/
def walk (nodes : List (Node Id)) : ℕ → List Id → Node Id → ℤ → TreeNode Id × ℤ
  | 0, _, node, remaining => (.stub node, remaining)
  | levels + 1, visited, node, remaining =>
    if node.entity.id ∈ visited ∨ remaining ≤ 0 then (.stub node, remaining)
    else
      let children := thread
        (fun child remaining =>
          if remaining ≤ 0 then (.stub child, remaining)
          else walk nodes levels (node.entity.id :: visited) child remaining)
        (sortedByPid (childrenOf nodes node.entity.id)) (remaining - 1)
      (.full node children.1 (node.childCount - children.1.length), children.2)

mutual

/-- The ids that are shown in full. -/
def TreeNode.loaded : TreeNode Id → List Id
  | .stub _ => []
  | .full node children _ => node.entity.id :: loadedAll children

def loadedAll : List (TreeNode Id) → List Id
  | [] => []
  | tree :: trees => tree.loaded ++ loadedAll trees

end

mutual

/-- The ids that are shown as placeholders. -/
def TreeNode.stubs : TreeNode Id → List Id
  | .stub node => [node.entity.id]
  | .full _ children _ => stubsAll children

def stubsAll : List (TreeNode Id) → List Id
  | [] => []
  | tree :: trees => tree.stubs ++ stubsAll trees

end

def TreeNode.id : TreeNode Id → Id
  | .stub node => node.entity.id
  | .full node _ _ => node.entity.id

mutual

/-- The pairs of a process and one that is nested under it. -/
def TreeNode.links : TreeNode Id → List (Id × Id)
  | .stub _ => []
  | .full node children _ =>
    children.map (fun child => (node.entity.id, child.id)) ++ linksAll children

def linksAll : List (TreeNode Id) → List (Id × Id)
  | [] => []
  | tree :: trees => tree.links ++ linksAll trees

end

/-- `_count_loaded`. -/
def TreeNode.countLoaded (tree : TreeNode Id) : ℕ := tree.loaded.length

inductive TruncationReason
  | maxNodesReached | depthOrRootScope | searchNoMatch
  deriving DecidableEq

structure TreeResponse (Id : Type) where
  roots : List (Node Id)
  orphans : List (Node Id)
  topLevelNodes : List (TreeNode Id)
  totalEntities : ℕ
  omittedCount : ℕ
  truncationReason : Option TruncationReason

/-- What the view is scoped to. -/
structure Scope (Id : Type) where
  rootPid : Option ℤ := none
  rootEntityId : Option Id := none

/-- The roots and the other processes that are shown at the top. -/
def topLevel (nodes : List (Node Id)) (scope : Scope Id) : List (Node Id) × List (Node Id) :=
  match scope.rootEntityId.bind fun id => nodes.reverse.find? fun node => node.entity.id = id with
  | some root => ([root], [])
  | none =>
    match scope.rootPid with
    | some pid => (nodes.filter fun node => node.entity.process.pid = pid, [])
    | none =>
      let pidZeroIds :=
        (nodes.filter fun node => node.entity.process.pid = 0).map fun node => node.entity.id
      let roots := nodes.filter fun node =>
        node.tree.isRoot && node.entity.id ∉ pidZeroIds
      let rootIds := roots.map fun node => node.entity.id
      let orphans := nodes.filter fun node =>
        node.parentEntityId = none && node.entity.id ∉ rootIds &&
          (node.entity.id ∉ pidZeroIds || node.childCount = 0)
      (roots, orphans)

/-- The cap on the nodes. -/
def nodeCap (maxNodes : Option ℤ) : ℤ :=
  if maxNodes.getD 0 = 0 then 10 ^ 9 else maxNodes.getD 0

section

variable (parseTime : Text → Option ℤ)

/-- The top level as it is shown, and what is left under the cap. -/
def showTree (nodes : List (Node Id)) (depth : ℤ) (maxNodes : Option ℤ) (scope : Scope Id) :
    List (TreeNode Id) × ℤ :=
  let (roots, orphans) := topLevel nodes scope
  let levels := (depth + 1).toNat
  let rootNodes := thread (walk nodes levels []) (sortedByPid roots) (nodeCap maxNodes)
  let orphanNodes := thread (walk nodes levels [])
    (orphans.insertionSort fun a b =>
      creationSortKey parseTime a.entity ≤ creationSortKey parseTime b.entity) rootNodes.2
  (rootNodes.1 ++ orphanNodes.1, orphanNodes.2)

/-- `_build_tree_response`, without its counts. -/
def buildTreeResponse (nodes : List (Node Id)) (depth : ℤ) (maxNodes : Option ℤ)
    (scope : Scope Id) : TreeResponse Id :=
  let (roots, orphans) := topLevel nodes scope
  let (shown, remaining) := showTree parseTime nodes depth maxNodes scope
  let omitted := nodes.length - (shown.map TreeNode.countLoaded).sum
  { roots := sortedByPid roots
    orphans := sortedByPid orphans
    topLevelNodes := shown
    totalEntities := nodes.length
    omittedCount := omitted
    truncationReason :=
      if remaining ≤ 0 then some .maxNodesReached
      else if 0 < omitted then some .depthOrRootScope
      else none }

end

/-! ### What a walk shows -/

/-- The ids at some levels from a node downwards. -/
def below (nodes : List (Node Id)) : ℕ → Node Id → List Id
  | 0, _ => []
  | levels + 1, node =>
    node.entity.id ::
      (sortedByPid (childrenOf nodes node.entity.id)).flatMap (below nodes levels)

theorem thread_le {α β : Type} {f : α → ℤ → β × ℤ}
    (h : ∀ x remaining, (f x remaining).2 ≤ remaining) (row : List α) (remaining : ℤ) : (thread f row remaining).2 ≤ remaining := by
  induction row generalizing remaining with
  | nil => exact le_rfl
  | cons x row ih => exact (ih _).trans (h x remaining)

theorem walk_le (nodes : List (Node Id)) (levels : ℕ) (visited : List Id) (node : Node Id)
    (remaining : ℤ) : (walk nodes levels visited node remaining).2 ≤ remaining := by
  induction levels generalizing visited node remaining with
  | zero => exact le_rfl
  | succ levels ih =>
    rw [walk]
    split
    · exact le_rfl
    · refine (thread_le (fun child left => ?_) _ (remaining - 1)).trans (by omega)
      split
      · exact le_rfl
      · exact ih _ _ _

/-- What is shown of a row, if each of its members is shown in full. -/
theorem thread_loaded {α : Type} {f : α → ℤ → TreeNode Id × ℤ} (ids : α → List Id)
    {row : List α} {remaining : ℤ} (hle : ∀ x remaining, (f x remaining).2 ≤ remaining)
    (h : ∀ x ∈ row, ∀ remaining, 0 < (f x remaining).2 →
      (f x remaining).1.loaded = ids x ∧ (f x remaining).1.stubs = [])
    (hpositive : 0 < (thread f row remaining).2) :
    loadedAll (thread f row remaining).1 = row.flatMap ids ∧
      stubsAll (thread f row remaining).1 = [] := by
  induction row generalizing remaining with
  | nil => exact ⟨rfl, rfl⟩
  | cons x row ih =>
    have hrest : 0 < (thread f row (f x remaining).2).2 := hpositive
    have hfirst : 0 < (f x remaining).2 := hrest.trans_le (thread_le hle row _)
    obtain ⟨hloaded, hstubs⟩ := h x (.head _) remaining hfirst
    obtain ⟨hrestLoaded, hrestStubs⟩ :=
      ih (fun y hy => h y (.tail _ hy)) hrest
    constructor
    · show (f x remaining).1.loaded ++ loadedAll (thread f row (f x remaining).2).1 = _
      rw [hloaded, hrestLoaded, List.flatMap_cons]
    · show (f x remaining).1.stubs ++ stubsAll (thread f row (f x remaining).2).1 = []
      rw [hstubs, hrestStubs, List.append_nil]

theorem sortedByPid_perm (nodes : List (Node Id)) : (sortedByPid nodes).Perm nodes :=
  List.perm_insertionSort _ nodes

variable {nodes : List (Node Id)}

theorem mem_sortedByPid {node : Node Id} : node ∈ sortedByPid nodes ↔ node ∈ nodes :=
  List.mem_insertionSort _

section

variable {nodes : List (Node Id)}

def nodeOf (nodes : List (Node Id)) (id : Id) : Option (Node Id) :=
  nodes.find? fun node => node.entity.id = id

/-- The parent that the nodes have for an id. -/
def parentAmong (nodes : List (Node Id)) (id : Id) : Option Id :=
  (nodeOf nodes id).bind Node.parentEntityId

variable {node : Node Id}

theorem mem_of_nodeOf {id : Id} (h : nodeOf nodes id = some node) :
    node ∈ nodes ∧ node.entity.id = id := by
  rw [nodeOf] at h
  exact ⟨List.mem_of_find?_eq_some h, by simpa using List.find?_some h⟩

variable (hdistinct : (nodes.map fun node => node.entity.id).Nodup)

include hdistinct

theorem parentAmong_id (h : node ∈ nodes) :
    parentAmong nodes node.entity.id = node.parentEntityId := by
  rcases hfind : nodeOf nodes node.entity.id with - | other
  · rw [nodeOf, List.find?_eq_none] at hfind
    exact absurd (decide_eq_true rfl) (hfind node h)
  · obtain ⟨hmem, hid⟩ := mem_of_nodeOf hfind
    rw [parentAmong, hfind, List.inj_on_of_nodup_map hdistinct hmem h hid]
    rfl

theorem mem_childrenOf {parent child : Node Id} (hparent : parent ∈ nodes) :
    child ∈ childrenOf nodes parent.entity.id ↔
      child ∈ nodes ∧ parentAmong nodes child.entity.id = some parent.entity.id := by
  rw [childrenOf, List.mem_filter, Bool.and_eq_true]
  constructor
  · rintro ⟨hchild, hid, -⟩
    rw [parentAmong_id hdistinct hchild]
    exact ⟨hchild, of_decide_eq_true hid⟩
  · rintro ⟨hchild, hid⟩
    rw [parentAmong_id hdistinct hchild] at hid
    exact ⟨hchild, decide_eq_true hid, List.any_eq_true.2 ⟨parent, hparent, decide_eq_true rfl⟩⟩

/-- As long as the cap is not reached and no chain of parents is longer than the levels,
a walk shows all that is below its start. -/
theorem walk_loaded (hacyclic : Acyclic (parentAmong nodes)) {levels : ℕ} {visited : List Id}
    {remaining : ℤ} (hnode : node ∈ nodes)
    (hvisited : ∀ id ∈ visited, ∃ n, climb (parentAmong nodes) (n + 1) node.entity.id = some id)
    (hheight : ∀ x n, climb (parentAmong nodes) n x = some node.entity.id → n < levels)
    (hpositive : 0 < (walk nodes levels visited node remaining).2) :
    (walk nodes levels visited node remaining).1.loaded = below nodes levels node ∧
      (walk nodes levels visited node remaining).1.stubs = [] := by
  induction levels generalizing visited node remaining with
  | zero => exact absurd (hheight node.entity.id 0 rfl) (lt_irrefl 0)
  | succ levels ih =>
    have hnew : node.entity.id ∉ visited := by
      intro hmem
      exact hacyclic _ (hvisited _ hmem)
    have hleft : 0 < remaining := hpositive.trans_le (walk_le ..)
    have hgo : ¬ (node.entity.id ∈ visited ∨ remaining ≤ 0) := by
      rintro (hmem | hle)
      · exact hnew hmem
      · omega
    rw [walk, if_neg hgo] at hpositive ⊢
    have hchildren := thread_loaded (below nodes levels) ?_ ?_ hpositive
    · exact ⟨congrArg (node.entity.id :: ·) hchildren.1, hchildren.2⟩
    · intro child left
      split
      · exact le_rfl
      · exact walk_le ..
    · intro child hchild left hchildLeft
      rw [mem_sortedByPid, mem_childrenOf hdistinct hnode] at hchild
      split at hchildLeft
      · next hle => exact absurd hchildLeft (not_lt.2 hle)
      · next hnot =>
          rw [if_neg hnot]
          refine ih hchild.1 ?_ ?_ hchildLeft
          · intro id hid
            rcases List.mem_cons.1 hid with rfl | hid
            · exact ⟨0, hchild.2⟩
            · obtain ⟨n, hn⟩ := hvisited id hid
              refine ⟨n + 1, ?_⟩
              rw [climb_succ, hchild.2]
              exact hn
          · intro x n hx
            have hlt := hheight x (n + 1) (by rw [climb, hx]; exact hchild.2)
            omega

theorem childrenOf_nodup (id : Id) : ((childrenOf nodes id).map fun node => node.entity.id).Nodup :=
  hdistinct.sublist (List.filter_sublist.map _)

/-- The children of a node through which an id is below it: one, if it is below the
node. -/
theorem sum_children (hacyclic : Acyclic (parentAmong nodes))
    (hnode : node ∈ nodes) (levels : ℕ) (id : Id) :
    ((childrenOf nodes node.entity.id).map fun child =>
        if ∃ n < levels, climb (parentAmong nodes) n id = some child.entity.id then 1 else 0).sum =
      if ∃ n < levels, climb (parentAmong nodes) (n + 1) id = some node.entity.id then 1 else 0 := by
  by_cases h : ∃ n < levels, climb (parentAmong nodes) (n + 1) id = some node.entity.id
  · rw [if_pos h]
    obtain ⟨n, hlt, hclimb⟩ := h
    obtain ⟨y, hy, hparent⟩ := Option.bind_eq_some_iff.1 hclimb
    obtain ⟨child, hchild, -⟩ := Option.bind_eq_some_iff.1 hparent
    obtain ⟨hmem, rfl⟩ := mem_of_nodeOf hchild
    -- only the child on the way up counts
    have hone : ∀ other ∈ childrenOf nodes node.entity.id,
        (if ∃ n < levels, climb (parentAmong nodes) n id = some other.entity.id then 1 else 0) =
          if child.entity.id = other.entity.id then 1 else 0 := by
      intro other hother
      rw [mem_childrenOf hdistinct hnode] at hother
      refine if_congr ⟨?_, ?_⟩ rfl rfl
      · rintro ⟨m, -, hm⟩
        have hup : climb (parentAmong nodes) (m + 1) id = some node.entity.id := by
          rw [climb, hm]
          exact hother.2
        have heq : m + 1 = n + 1 := hacyclic.climb_injective hup hclimb
        obtain rfl : m = n := by omega
        exact Option.some.inj (hy.symm.trans hm)
      · intro heq
        exact ⟨n, hlt, heq ▸ hy⟩
    rw [List.map_congr_left hone]
    have hchildId : child.entity.id ∈
        (childrenOf nodes node.entity.id).map fun node => node.entity.id :=
      List.mem_map_of_mem ((mem_childrenOf hdistinct hnode).2 ⟨hmem, hparent⟩)
    have hsum := sum_indicator (childrenOf_nodup hdistinct node.entity.id) hchildId
    rw [List.map_map] at hsum
    exact hsum
  · rw [if_neg h]
    refine List.sum_eq_zero fun k hk => ?_
    obtain ⟨child, hchild, rfl⟩ := List.mem_map.1 hk
    refine if_neg ?_
    rintro ⟨n, hlt, hn⟩
    refine h ⟨n, hlt, ?_⟩
    rw [climb, hn]
    exact ((mem_childrenOf hdistinct hnode).1 hchild).2

/-- An id is shown once below a node if the node is above it, and else not. -/
theorem count_below (hacyclic : Acyclic (parentAmong nodes)) {levels : ℕ}
    (hnode : node ∈ nodes) (id : Id) :
    (below nodes levels node).count id =
      if ∃ n < levels, climb (parentAmong nodes) n id = some node.entity.id then 1 else 0 := by
  induction levels generalizing node with
  | zero =>
    rw [if_neg (by rintro ⟨n, hlt, -⟩; omega)]
    rfl
  | succ levels ih =>
    have hsum : (((sortedByPid (childrenOf nodes node.entity.id)).map
        (List.count id ∘ below nodes levels))).sum =
        if ∃ n < levels, climb (parentAmong nodes) (n + 1) id = some node.entity.id
          then 1 else 0 := by
      rw [← sum_children hdistinct hacyclic hnode,
        ((sortedByPid_perm (childrenOf nodes node.entity.id)).map _).sum_eq]
      refine congrArg List.sum (List.map_congr_left fun child hchild => ?_)
      exact ih ((mem_childrenOf hdistinct hnode).1 hchild).1
    rw [below, List.count_cons, List.count_flatMap, hsum]
    by_cases hself : node.entity.id = id
    · -- the node itself, which is not below itself
      rw [if_neg, if_pos (by simpa using hself), if_pos ⟨0, Nat.succ_pos _, by rw [hself]; rfl⟩]
      rintro ⟨n, -, hn⟩
      exact hacyclic id ⟨n, hself ▸ hn⟩
    · rw [if_neg (show ¬ (node.entity.id == id) = true by simpa using hself), Nat.add_zero]
      refine if_congr ⟨?_, ?_⟩ rfl rfl
      · rintro ⟨n, hlt, hn⟩
        exact ⟨n + 1, by omega, hn⟩
      · rintro ⟨n, hlt, hn⟩
        rcases n with - | n
        · exact absurd (Option.some.inj hn).symm hself
        · exact ⟨n, by omega, hn⟩

end

/-! ### What is nested -/

theorem mem_thread {α β : Type} {f : α → ℤ → β × ℤ} {row : List α} {remaining : ℤ} {y : β}
    (h : y ∈ (thread f row remaining).1) : ∃ x ∈ row, ∃ left, y = (f x left).1 := by
  induction row generalizing remaining with
  | nil => cases h
  | cons x row ih =>
    rcases List.mem_cons.1 h with rfl | h
    · exact ⟨x, .head _, remaining, rfl⟩
    · obtain ⟨z, hz, left, rfl⟩ := ih h
      exact ⟨z, .tail _ hz, left, rfl⟩

variable {link : Id × Id}

theorem mem_linksAll {trees : List (TreeNode Id)} :
    link ∈ linksAll trees ↔ ∃ tree ∈ trees, link ∈ tree.links := by
  induction trees with
  | nil => simp [linksAll]
  | cons tree trees ih => simp [linksAll, ih]

theorem walk_id (nodes : List (Node Id)) (levels : ℕ) (visited : List Id) (node : Node Id)
    (remaining : ℤ) : (walk nodes levels visited node remaining).1.id = node.entity.id := by
  cases levels with
  | zero => rfl
  | succ levels =>
    rw [walk]
    split
    · rfl
    · rfl

/-- Under a process stand its children. -/
theorem walk_links {levels : ℕ} {visited : List Id} {node : Node Id} {remaining : ℤ}
    (h : link ∈ (walk nodes levels visited node remaining).1.links) :
    ∃ child ∈ nodes, child.entity.id = link.2 ∧ child.parentEntityId = some link.1 := by
  induction levels generalizing visited node remaining with
  | zero => cases h
  | succ levels ih =>
    rw [walk] at h
    split at h
    · cases h
    · dsimp only at h
      rw [TreeNode.links, List.mem_append] at h
      rcases h with h | h
      · obtain ⟨tree, htree, rfl⟩ := List.mem_map.1 h
        obtain ⟨child, hchild, left, rfl⟩ := mem_thread htree
        have hin := List.mem_filter.1 (mem_sortedByPid.1 hchild)
        rw [Bool.and_eq_true] at hin
        refine ⟨child, hin.1, ?_, of_decide_eq_true hin.2.1⟩
        split
        · rfl
        · exact (walk_id ..).symm
      · obtain ⟨tree, htree, hlink⟩ := mem_linksAll.1 h
        obtain ⟨child, -, left, rfl⟩ := mem_thread htree
        split at hlink
        · cases hlink
        · exact ih hlink

theorem buildTreeResponse_links {parseTime : Text → Option ℤ} {depth : ℤ} {maxNodes : Option ℤ}
    {scope : Scope Id} {tree : TreeNode Id}
    (htree : tree ∈ (buildTreeResponse parseTime nodes depth maxNodes scope).topLevelNodes)
    (hlink : link ∈ tree.links) :
    ∃ child ∈ nodes, child.entity.id = link.2 ∧ child.parentEntityId = some link.1 := by
  have htree : tree ∈ (showTree parseTime nodes depth maxNodes scope).1 := htree
  rw [showTree] at htree
  rcases List.mem_append.1 htree with htree | htree
  · obtain ⟨top, -, left, rfl⟩ := mem_thread htree
    exact walk_links hlink
  · obtain ⟨top, -, left, rfl⟩ := mem_thread htree
    exact walk_links hlink

/-! ### The top level -/

section

variable {parseTime : Text → Option ℤ} {entities : List (Entity Id)}
  (hdistinct : (entities.map Entity.id).Nodup)

theorem ids_buildTreeMetrics :
    (buildTreeMetrics parseTime entities).map (fun node => node.entity.id) =
      entities.map Entity.id := by
  rw [buildTreeMetrics, List.map_map]
  rfl

variable {node : Node Id}

theorem mem_buildTreeMetrics : node ∈ buildTreeMetrics parseTime entities ↔
      node.entity ∈ entities ∧ node = annotate parseTime entities node.entity := by
  rw [buildTreeMetrics, List.mem_map]
  constructor
  · rintro ⟨ent, hent, rfl⟩
    exact ⟨hent, rfl⟩
  · rintro ⟨hent, hnode⟩
    exact ⟨node.entity, hent, hnode.symm⟩

include hdistinct

theorem nodes_distinct :
    ((buildTreeMetrics parseTime entities).map fun node => node.entity.id).Nodup := by
  rw [ids_buildTreeMetrics]
  exact hdistinct

/-- The parents of the nodes are those of the parent map. -/
theorem parentAmong_buildTreeMetrics : parentAmong (buildTreeMetrics parseTime entities) =
      parentIn (finalParents parseTime entities) := by
  funext id
  by_cases hid : id ∈ entities.map Entity.id
  · obtain ⟨ent, hent, rfl⟩ := List.mem_map.1 hid
    have hnode : annotate parseTime entities ent ∈ buildTreeMetrics parseTime entities :=
      List.mem_map_of_mem hent
    exact parentAmong_id (nodes_distinct hdistinct) hnode
  · rw [parentIn, Dict.get_eq_none.2 (by rw [keys_finalParents hdistinct]; exact hid), parentAmong]
    have hnone : nodeOf (buildTreeMetrics parseTime entities) id = none := by
      rw [nodeOf, List.find?_eq_none]
      intro node hnode heq
      refine hid ?_
      rw [← of_decide_eq_true heq]
      exact List.mem_map_of_mem (mem_buildTreeMetrics.1 hnode).1
    rw [hnone]
    rfl

theorem acyclic_buildTreeMetrics : Acyclic (parentAmong (buildTreeMetrics parseTime entities)) := by
  rw [parentAmong_buildTreeMetrics hdistinct]
  exact acyclic_finalParents hdistinct

theorem mem_pidZeroIds (h : node ∈ buildTreeMetrics parseTime entities) :
    node.entity.id ∈ ((buildTreeMetrics parseTime entities).filter fun node =>
      node.entity.process.pid = 0).map (fun node => node.entity.id) ↔
      node.entity.process.pid = 0 := by
  rw [List.mem_map]
  constructor
  · rintro ⟨other, hother, hid⟩
    obtain ⟨hmem, hzero⟩ := List.mem_filter.1 hother
    rw [← List.inj_on_of_nodup_map (nodes_distinct hdistinct) hmem h hid]
    exact of_decide_eq_true hzero
  · intro hzero
    exact ⟨node, List.mem_filter.2 ⟨h, decide_eq_true hzero⟩, rfl⟩

/-- The roots are the nodes that are flagged. -/
theorem mem_roots : node ∈ (topLevel (buildTreeMetrics parseTime entities) {}).1 ↔
      node ∈ buildTreeMetrics parseTime entities ∧ node.tree.isRoot = true := by
  show node ∈ List.filter _ _ ↔ _
  rw [List.mem_filter, Bool.and_eq_true]
  constructor
  · rintro ⟨hnode, hroot, -⟩
    exact ⟨hnode, hroot⟩
  · rintro ⟨hnode, hroot⟩
    refine ⟨hnode, hroot, decide_eq_true fun hzero => ?_⟩
    obtain ⟨-, heq⟩ := mem_buildTreeMetrics.1 hnode
    rw [heq] at hroot
    exact (parent_of_isRoot hroot).1 ((mem_pidZeroIds hdistinct hnode).1 hzero)

/-- The others at the top are the nodes without a parent, except PID 0 with children. -/
theorem mem_orphans : node ∈ (topLevel (buildTreeMetrics parseTime entities) {}).2 ↔
      node ∈ buildTreeMetrics parseTime entities ∧ node.parentEntityId = none ∧
        node.tree.isRoot = false ∧ (node.entity.process.pid ≠ 0 ∨ node.childCount = 0) := by
  have hroots : ∀ {node : Node Id}, node ∈ buildTreeMetrics parseTime entities →
      (node.entity.id ∈ ((topLevel (buildTreeMetrics parseTime entities) {}).1.map
        fun node => node.entity.id) ↔ node.tree.isRoot = true) := by
    intro node hnode
    rw [List.mem_map]
    constructor
    · rintro ⟨other, hother, hid⟩
      rw [mem_roots hdistinct] at hother
      rw [← List.inj_on_of_nodup_map (nodes_distinct hdistinct) hother.1 hnode hid]
      exact hother.2
    · intro hroot
      exact ⟨node, (mem_roots hdistinct).2 ⟨hnode, hroot⟩, rfl⟩
  show node ∈ List.filter _ _ ↔ _
  rw [List.mem_filter, Bool.and_eq_true, Bool.and_eq_true, Bool.or_eq_true, decide_eq_true_iff,
    decide_eq_true_iff, decide_eq_true_iff, decide_eq_true_iff]
  constructor
  · rintro ⟨hnode, ⟨hparent, hroot⟩, hzero⟩
    refine ⟨hnode, hparent, Bool.eq_false_iff.2 fun h => hroot ((hroots hnode).2 h), ?_⟩
    exact hzero.imp_left fun h hpid => h ((mem_pidZeroIds hdistinct hnode).2 hpid)
  · rintro ⟨hnode, hparent, hroot, hzero⟩
    refine ⟨hnode, ⟨hparent, fun h => ?_⟩, ?_⟩
    · rw [(hroots hnode).1 h] at hroot
      cases hroot
    · exact hzero.imp_left fun h hmem => h ((mem_pidZeroIds hdistinct hnode).1 hmem)

/-- A node of the top level. -/
def IsTop (nodes : List (Node Id)) (node : Node Id) : Prop :=
  node ∈ (topLevel nodes {}).1 ++ (topLevel nodes {}).2

omit hdistinct in
theorem isTop_iff {nodes : List (Node Id)} :
    IsTop nodes node ↔ node ∈ (topLevel nodes {}).1 ∨ node ∈ (topLevel nodes {}).2 :=
  List.mem_append

theorem IsTop.mem (h : IsTop (buildTreeMetrics parseTime entities) node) :
    node ∈ buildTreeMetrics parseTime entities := by
  rcases isTop_iff.1 h with h | h
  · exact ((mem_roots hdistinct).1 h).1
  · exact ((mem_orphans hdistinct).1 h).1

/-- The chosen parent of a node that has one. -/
theorem chosen_of_parent (hnode : node ∈ buildTreeMetrics parseTime entities)
    {id : Id} (h : parentAmong (buildTreeMetrics parseTime entities) node.entity.id = some id) :
    ∃ parent ∈ entities, chosenParent parseTime entities node.entity = some parent ∧
      parent.id = id := by
  rw [parentAmong_buildTreeMetrics hdistinct] at h
  obtain ⟨hent, -⟩ := mem_buildTreeMetrics.1 hnode
  obtain ⟨-, parent, hchosen, hid⟩ := (tree_parent hdistinct hent id).1 h
  exact ⟨parent, (chosenParent_mem hchosen).1, hchosen, hid⟩

theorem parentAmong_mem (x y : Id)
    (h : parentAmong (buildTreeMetrics parseTime entities) x = some y) :
    y ∈ entities.map Entity.id := by
  obtain ⟨node, hnode, -⟩ := Option.bind_eq_some_iff.1 h
  obtain ⟨hmem, rfl⟩ := mem_of_nodeOf hnode
  obtain ⟨parent, hparent, -, rfl⟩ := chosen_of_parent hdistinct hmem h
  exact List.mem_map_of_mem hparent

variable {ent : Entity Id}

/-- Below a PID 0 there is a root on every way up. -/
theorem top_below_pidZero (hent : ent ∈ entities)
    (hpid : ent.process.pid ≠ 0) {n : ℕ} {zero : Entity Id} (hzero : zero ∈ entities)
    (hzeroPid : zero.process.pid = 0)
    (h : climb (parentAmong (buildTreeMetrics parseTime entities)) n ent.id = some zero.id) :
    ∃ m top, IsTop (buildTreeMetrics parseTime entities) top ∧
      climb (parentAmong (buildTreeMetrics parseTime entities)) m ent.id = some top.entity.id := by
  induction n generalizing zero with
  | zero =>
    obtain rfl := List.inj_on_of_nodup_map hdistinct hent hzero (Option.some.inj h)
    exact absurd hzeroPid hpid
  | succ n ih =>
    obtain ⟨y, hy, hparent⟩ := Option.bind_eq_some_iff.1 h
    obtain ⟨node, hnode, -⟩ := Option.bind_eq_some_iff.1 hparent
    obtain ⟨hmem, rfl⟩ := mem_of_nodeOf hnode
    obtain ⟨hin, hannotate⟩ := mem_buildTreeMetrics.1 hmem
    by_cases hnodePid : node.entity.process.pid = 0
    · exact ih hin hnodePid hy
    · obtain ⟨parent, hparentMem, hchosen, hid⟩ := chosen_of_parent hdistinct hmem hparent
      obtain rfl := List.inj_on_of_nodup_map hdistinct hparentMem hzero hid
      have hroot := isRoot_of_parent hchosen hzeroPid hnodePid
      refine ⟨n, node, isTop_iff.2 (.inl ((mem_roots hdistinct).2 ⟨hmem, ?_⟩)), hy⟩
      rw [hannotate]
      exact hroot

/-- Every process but PID 0 is at the top level or below it. -/
theorem exists_top (hent : ent ∈ entities) (hpid : ent.process.pid ≠ 0) :
    ∃ n top, IsTop (buildTreeMetrics parseTime entities) top ∧
      climb (parentAmong (buildTreeMetrics parseTime entities)) n ent.id = some top.entity.id := by
  have hclosed : ∀ x y, parentAmong (buildTreeMetrics parseTime entities) x = some y →
      y ∈ entities.map Entity.id := parentAmong_mem hdistinct
  obtain ⟨n, id, hclimb, hnone⟩ := (acyclic_buildTreeMetrics hdistinct).exists_root hclosed
    (List.mem_map_of_mem hent)
  obtain ⟨root, hroot, rfl⟩ :=
    List.mem_map.1 (climb_mem hclosed (List.mem_map_of_mem hent) hclimb)
  by_cases hzero : root.process.pid = 0
  · exact top_below_pidZero hdistinct hent hpid hroot hzero hclimb
  · have hnode : annotate parseTime entities root ∈ buildTreeMetrics parseTime entities :=
      List.mem_map_of_mem hroot
    refine ⟨n, annotate parseTime entities root, isTop_iff.2 ?_, hclimb⟩
    rcases hflag : (annotate parseTime entities root).tree.isRoot with - | -
    · refine .inr ((mem_orphans hdistinct).2 ⟨hnode, ?_, hflag, .inl hzero⟩)
      rw [← parentAmong_id (nodes_distinct hdistinct) hnode]
      exact hnone
    · exact .inl ((mem_roots hdistinct).2 ⟨hnode, hflag⟩)

/-- An entity with a child has a child count. -/
theorem childCount_pos {child : Entity Id} (hchild : child ∈ entities) {id : Id}
    (h : parentAmong (buildTreeMetrics parseTime entities) child.id = some id) {parent : Entity Id}
    (hparent : parent.id = id) : (annotate parseTime entities parent).childCount ≠ 0 := by
  rw [parentAmong_buildTreeMetrics hdistinct] at h
  refine Nat.pos_iff_ne_zero.1 (List.countP_pos_iff.2 ?_)
  refine ⟨(child.id, some id), ?_, decide_eq_true (congrArg some hparent.symm)⟩
  rw [finalParents_eq hdistinct, List.mem_map]
  exact ⟨child, hchild, by rw [h]⟩

/-- Where PID 0 has no parent, no node of the top level is below another. -/
theorem top_unique
    (hzero : ∀ node ∈ buildTreeMetrics parseTime entities, node.entity.process.pid = 0 →
      node.parentEntityId = none)
    {id : Id} {m n : ℕ} {first second : Node Id}
    (hfirst : IsTop (buildTreeMetrics parseTime entities) first)
    (hsecond : IsTop (buildTreeMetrics parseTime entities) second)
    (hm : climb (parentAmong (buildTreeMetrics parseTime entities)) m id = some first.entity.id)
    (hn : climb (parentAmong (buildTreeMetrics parseTime entities)) n id = some second.entity.id) :
    first = second := by
  wlog hle : m ≤ n generalizing m n first second
  · exact (this hsecond hfirst hn hm (by omega)).symm
  obtain ⟨y, hy, hup⟩ := climb_le hn hle
  obtain rfl := Option.some.inj (hy.symm.trans hm)
  rcases hk : n - m with - | k
  · rw [hk] at hup
    exact List.inj_on_of_nodup_map (nodes_distinct hdistinct) (IsTop.mem hdistinct hfirst)
      (IsTop.mem hdistinct hsecond) (Option.some.inj hup)
  · -- a node of the top level with a parent is a child of PID 0
    exfalso
    rw [hk, climb_succ] at hup
    obtain ⟨z, hz, hup⟩ := Option.bind_eq_some_iff.1 hup
    have hmem := IsTop.mem hdistinct hfirst
    have hroot : first.tree.isRoot = true := by
      rcases isTop_iff.1 hfirst with h | h
      · exact ((mem_roots hdistinct).1 h).2
      · have hnone := ((mem_orphans hdistinct).1 h).2.1
        rw [← parentAmong_id (nodes_distinct hdistinct) hmem, hz] at hnone
        cases hnone
    obtain ⟨parent, hparent, hchosen, hid⟩ := chosen_of_parent hdistinct hmem hz
    obtain ⟨hin, hannotate⟩ := mem_buildTreeMetrics.1 hmem
    rw [hannotate] at hroot
    have hparentPid := (parent_of_isRoot hroot).2 parent hchosen
    have hparentNode : annotate parseTime entities parent ∈ buildTreeMetrics parseTime entities :=
      List.mem_map_of_mem hparent
    have hparentNone : parentAmong (buildTreeMetrics parseTime entities) z = none := by
      rw [← hid]
      exact (parentAmong_id (nodes_distinct hdistinct) hparentNode).trans
        (hzero _ hparentNode hparentPid)
    rcases k with - | k
    · -- PID 0 is at the top level only without children
      have hsame : annotate parseTime entities parent = second :=
        List.inj_on_of_nodup_map (nodes_distinct hdistinct) hparentNode
          (IsTop.mem hdistinct hsecond) (hid.trans (Option.some.inj hup))
      subst hsame
      rcases isTop_iff.1 hsecond with h | h
      · exact (parent_of_isRoot ((mem_roots hdistinct).1 h).2).1 hparentPid
      · rcases ((mem_orphans hdistinct).1 h).2.2.2 with h | h
        · exact h hparentPid
        · exact childCount_pos hdistinct hin hz hid h
    · rw [climb_succ, hparentNone] at hup
      cases hup

omit hdistinct in
theorem loadedAll_append (first second : List (TreeNode Id)) :
    loadedAll (first ++ second) = loadedAll first ++ loadedAll second := by
  induction first with
  | nil => rfl
  | cons tree first ih => rw [List.cons_append, loadedAll, loadedAll, ih, List.append_assoc]

omit hdistinct in
theorem stubsAll_append (first second : List (TreeNode Id)) :
    stubsAll (first ++ second) = stubsAll first ++ stubsAll second := by
  induction first with
  | nil => rfl
  | cons tree first ih => rw [List.cons_append, stubsAll, stubsAll, ih, List.append_assoc]

/-- The levels are enough for every chain of parents. -/
theorem climb_lt_levels {depth : ℤ} (hdepth : (entities.length : ℤ) ≤ depth) {x y : Id} {n : ℕ}
    (h : climb (parentAmong (buildTreeMetrics parseTime entities)) n x = some y) :
    n < (depth + 1).toNat := by
  rcases n with - | n
  · omega
  · have hx : x ∈ entities.map Entity.id := by
      rw [climb_succ] at h
      obtain ⟨z, hz, -⟩ := Option.bind_eq_some_iff.1 h
      obtain ⟨node, hnode, -⟩ := Option.bind_eq_some_iff.1 hz
      obtain ⟨hmem, rfl⟩ := mem_of_nodeOf hnode
      exact List.mem_map_of_mem (mem_buildTreeMetrics.1 hmem).1
    have hlt := (acyclic_buildTreeMetrics hdistinct).climb_lt (parentAmong_mem hdistinct) hx h
    rw [List.length_map] at hlt
    omega

/-- The top level is shown with all that is below it. -/
theorem showTree_loaded {depth : ℤ} (hdepth : (entities.length : ℤ) ≤ depth)
    {maxNodes : Option ℤ}
    (hpositive :
      0 < (showTree parseTime (buildTreeMetrics parseTime entities) depth maxNodes {}).2) :
    ∃ tops : List (Node Id), tops.Perm ((topLevel (buildTreeMetrics parseTime entities) {}).1 ++
        (topLevel (buildTreeMetrics parseTime entities) {}).2) ∧
      loadedAll (showTree parseTime (buildTreeMetrics parseTime entities) depth maxNodes {}).1 =
        tops.flatMap (below (buildTreeMetrics parseTime entities) (depth + 1).toNat) ∧
      stubsAll (showTree parseTime (buildTreeMetrics parseTime entities) depth maxNodes {}).1 =
        [] := by
  set nodes := buildTreeMetrics parseTime entities with hnodes
  have hwalk : ∀ top, IsTop nodes top → ∀ remaining,
      0 < (walk nodes (depth + 1).toNat [] top remaining).2 →
      (walk nodes (depth + 1).toNat [] top remaining).1.loaded = below nodes (depth + 1).toNat top ∧
        (walk nodes (depth + 1).toNat [] top remaining).1.stubs = [] := by
    intro top htop remaining hleft
    refine walk_loaded (nodes_distinct hdistinct) (acyclic_buildTreeMetrics hdistinct)
      (IsTop.mem hdistinct htop) ?_ ?_ hleft
    · intro id hid
      cases hid
    · intro x n hx
      exact climb_lt_levels hdistinct hdepth hx
  rw [showTree] at hpositive ⊢
  dsimp only at hpositive ⊢
  set roots := (topLevel nodes {}).1 with hroots
  set orphans := (topLevel nodes {}).2 with horphans
  obtain ⟨hloaded, hstubs⟩ := thread_loaded (below nodes (depth + 1).toNat)
    (fun x remaining => walk_le ..)
    (fun top htop => hwalk top
      (isTop_iff.2 (.inr ((List.mem_insertionSort _).1 htop)))) hpositive
  have hrootsLeft := hpositive.trans_le (thread_le (fun x remaining => walk_le ..) _ _)
  obtain ⟨hrootsLoaded, hrootsStubs⟩ := thread_loaded (below nodes (depth + 1).toNat)
    (fun x remaining => walk_le ..)
    (fun top htop => hwalk top (isTop_iff.2 (.inl (mem_sortedByPid.1 htop)))) hrootsLeft
  refine ⟨sortedByPid roots ++ orphans.insertionSort fun a b =>
      creationSortKey parseTime a.entity ≤ creationSortKey parseTime b.entity, ?_, ?_, ?_⟩
  · exact (sortedByPid_perm roots).append (List.perm_insertionSort _ orphans)
  · rw [loadedAll_append, hrootsLoaded, hloaded, List.flatMap_append]
  · rw [stubsAll_append, hrootsStubs, hstubs]
    rfl

/-- How often an id is shown: once for every node of the top level above it. -/
theorem count_loaded (depth : ℤ) {tops : List (Node Id)}
    (htops : tops.Perm ((topLevel (buildTreeMetrics parseTime entities) {}).1 ++
      (topLevel (buildTreeMetrics parseTime entities) {}).2)) (id : Id) :
    (tops.flatMap (below (buildTreeMetrics parseTime entities) (depth + 1).toNat)).count id =
      (tops.map fun top => if ∃ n < (depth + 1).toNat,
        climb (parentAmong (buildTreeMetrics parseTime entities)) n id = some top.entity.id
          then 1 else 0).sum := by
  rw [List.count_flatMap]
  refine congrArg List.sum (List.map_congr_left fun top htop => ?_)
  have hmem : IsTop (buildTreeMetrics parseTime entities) top := htops.mem_iff.1 htop
  exact count_below (nodes_distinct hdistinct) (acyclic_buildTreeMetrics hdistinct)
    (IsTop.mem hdistinct hmem) id

theorem topLevel_distinct : (((topLevel (buildTreeMetrics parseTime entities) {}).1 ++
      (topLevel (buildTreeMetrics parseTime entities) {}).2).map
        fun node => node.entity.id).Nodup := by
  have hsub : ∀ p : Node Id → Bool, (((buildTreeMetrics parseTime entities).filter p).map
      fun node => node.entity.id).Nodup := fun p =>
    (nodes_distinct hdistinct).sublist (List.filter_sublist.map _)
  rw [List.map_append]
  refine List.nodup_append.2 ⟨hsub _, hsub _, ?_⟩
  rintro id hroot other horphan rfl
  obtain ⟨root, hmem, rfl⟩ := List.mem_map.1 hroot
  obtain ⟨orphan, hmem', hid⟩ := List.mem_map.1 horphan
  obtain ⟨hnode, hflag⟩ := (mem_roots hdistinct).1 hmem
  obtain ⟨hnode', -, hflag', -⟩ := (mem_orphans hdistinct).1 hmem'
  rw [List.inj_on_of_nodup_map (nodes_distinct hdistinct) hnode' hnode hid, hflag] at hflag'
  cases hflag'

/-- What is shown, without a cap and at enough levels: all processes but PID 0, each once
if PID 0 has no parent. -/
theorem showTree_complete {depth : ℤ} (hdepth : (entities.length : ℤ) ≤ depth) {maxNodes : Option ℤ}
    (hpositive : 0 < (showTree parseTime (buildTreeMetrics parseTime entities) depth maxNodes {}).2)
    (hent : ent ∈ entities) (hpid : ent.process.pid ≠ 0) : ent.id ∈ loadedAll
        (showTree parseTime (buildTreeMetrics parseTime entities) depth maxNodes {}).1 ∧
      ((∀ node ∈ buildTreeMetrics parseTime entities, node.entity.process.pid = 0 →
          node.parentEntityId = none) →
        (loadedAll (showTree parseTime (buildTreeMetrics parseTime entities) depth maxNodes
          {}).1).count ent.id = 1) := by
  obtain ⟨tops, hperm, hloaded, -⟩ := showTree_loaded hdistinct hdepth hpositive
  obtain ⟨m, top, htop, hclimb⟩ := exists_top hdistinct hent hpid
  have hlt := climb_lt_levels hdistinct hdepth hclimb
  have hmem : top ∈ tops := hperm.mem_iff.2 htop
  rw [hloaded]
  constructor
  · refine List.mem_flatMap.2 ⟨top, hmem, List.count_pos_iff.1 ?_⟩
    rw [count_below (nodes_distinct hdistinct) (acyclic_buildTreeMetrics hdistinct)
      (IsTop.mem hdistinct htop), if_pos ⟨m, hlt, hclimb⟩]
    exact Nat.one_pos
  · intro hzero
    rw [count_loaded hdistinct depth hperm]
    have hone : ∀ other ∈ tops, (if ∃ n < (depth + 1).toNat,
        climb (parentAmong (buildTreeMetrics parseTime entities)) n ent.id = some other.entity.id
          then 1 else 0) = if top.entity.id = other.entity.id then 1 else 0 := by
      intro other hother
      refine if_congr ⟨?_, ?_⟩ rfl rfl
      · rintro ⟨n, -, hn⟩
        rw [top_unique hdistinct hzero htop (hperm.mem_iff.1 hother) hclimb hn]
      · intro hid
        exact ⟨m, hlt, hid ▸ hclimb⟩
    rw [List.map_congr_left hone]
    have hnodup : (tops.map fun node => node.entity.id).Nodup :=
      ((hperm.map _).nodup_iff).2 (topLevel_distinct hdistinct)
    have hsum := sum_indicator hnodup (List.mem_map_of_mem hmem)
    rw [List.map_map] at hsum
    exact hsum

end

/-- A process of which only the PIDs are known. -/
def bareProcess (id : ℕ) (pid ppid : ℤ) : Entity ℕ where
  id := id
  osFamily := none
  process := ⟨pid, some ppid, none, none, none, none, none, none, none, none⟩
  visibility := ⟨true, false, false, false, false⟩
  sources := ["windows.pslist".toList]
  confidence := .low
  findings := []
  observations := []

/-- System with a child, and two processes that are each other's parent. -/
def smallSystem : List (Entity ℕ) :=
  [bareProcess 1 4 0, bareProcess 2 300 4, bareProcess 3 500 600, bareProcess 4 600 500]

end Kairon.Process

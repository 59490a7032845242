/-
Kairon/Process/LayoutEnds.lean

When the process graph layout ends, and what it separates.

The children that are collected are those of the edges and of the nodes' lists
(`Child`), and the roots that are kept are the nodes without a parent whose first edge
is not one to themselves (`Rooted`).  The loop over the depths ends exactly if no cycle
can be reached from these (`depths_end_iff`); the cards never overlap, whatever the
depths are (`apart_layoutOf`).

`layout_separates_iff`: the layout is as it should be, exactly if no cycle can be reached
and, where the links are acyclic, every node with a parent is below a root that is kept.
-/
import Kairon.Lib.Gather
import Kairon.Lib.Layering
import Kairon.Process.GraphLayout

namespace Kairon.Process

open Postings (push lookup columns)
open Layering (Steps Below CycleFree Above Layered Visit)

variable {Id : Type} [DecidableEq Id] {nodes : List (GraphNodeLike Id)}
  {edges : List (GraphEdgeLike Id)}

/-! ### Statements -/

def Listed (nodes : List (GraphNodeLike Id)) (x : Id) : Prop :=
  ∃ node ∈ nodes, node.processEntityId = x

/-- An edge between two different nodes. -/
def EdgeJoins (nodes : List (GraphNodeLike Id)) (edge : GraphEdgeLike Id) (x y : Id) : Prop :=
  Listed nodes x ∧ Listed nodes y ∧ x ≠ y ∧ edge.source = x ∧ edge.target = y

/-- A node names a child in its own list. -/
def Names (node : GraphNodeLike Id) (x y : Id) : Prop :=
  node.processEntityId = x ∧ y ∈ node.children

/-- `y` is a child of `x` by an edge or by the list of a node. -/
def Child (nodes : List (GraphNodeLike Id)) (edges : List (GraphEdgeLike Id)) (x y : Id) : Prop :=
  (∃ edge ∈ edges, EdgeJoins nodes edge x y) ∨ ∃ node ∈ nodes, Names node x y

/-- The same between two different nodes. -/
def Link (nodes : List (GraphNodeLike Id)) (edges : List (GraphEdgeLike Id)) (x y : Id) : Prop :=
  Listed nodes x ∧ Listed nodes y ∧ x ≠ y ∧ Child nodes edges x y

/-- A node without a parent whose first edge does not come from itself. -/
def Rooted (nodes : List (GraphNodeLike Id)) (edges : List (GraphEdgeLike Id)) (x : Id) : Prop :=
  Listed nodes x ∧ (∀ y, ¬ Child nodes edges y x) ∧
    ∀ edge, (edges.find? fun edge => edge.target = x) = some edge → edge.source ≠ x

/-- Two cards do not overlap. -/
def Apart (a b : GraphLayoutNode Id) : Prop :=
  a.x + a.width ≤ b.x ∨ b.x + b.width ≤ a.x ∨ a.y + a.height ≤ b.y ∨ b.y + b.height ≤ a.y

/-- A layout that places every node once, with no two cards on each other, and without cycles
every child to the right of its parent. -/
structure Separates (nodes : List (GraphNodeLike Id)) (edges : List (GraphEdgeLike Id))
    (layout : GraphLayout Id) : Prop where
  placed : (layout.nodes.map GraphLayoutNode.id).Perm
    (nodes.map GraphNodeLike.processEntityId)
  apart : layout.nodes.Pairwise Apart
  deeper : (∀ x, ¬ Relation.TransGen (Link nodes edges) x x) → ∀ x y, Link nodes edges x y →
    ∀ a ∈ layout.nodes, ∀ b ∈ layout.nodes, a.id = x → b.id = y → a.depth < b.depth

/-! ### Children -/

/-- What holds of the links when the children are `R`. -/
structure Links.Has (nodes : List (GraphNodeLike Id)) (s : Links Id) (R : Id → Id → Prop) :
    Prop where
  children : ∀ x y, y ∈ lookup s.childrenByParent x ↔ R x y
  listed : ∀ x, (Dict.get s.incoming x).isSome = true ↔ Listed nodes x
  zero : ∀ y, Listed nodes y → ((Dict.get s.incoming y).getD 0 = 0 ↔ ∀ x, ¬ R x y)

theorem Links.Has.congr {s : Links Id} {R R' : Id → Id → Prop} (h : s.Has nodes R)
    (hsame : ∀ x y, R x y ↔ R' x y) : s.Has nodes R' := by
  have heq : R = R' := funext fun x => funext fun y => propext (hsame x y)
  exact heq ▸ h

theorem has_noLinks (nodes : List (GraphNodeLike Id)) :
    (noLinks nodes).Has nodes fun _ _ => False := by
  have hget : ∀ x, Dict.get (noLinks nodes).incoming x =
      (nodes.reverse.find? fun node => node.processEntityId = x).map fun _ => 0 := by
    intro x
    have hfold := Dict.get_foldl_set GraphNodeLike.processEntityId (fun _ => 0) nodes [] x
    rwa [show Dict.get ([] : List (Id × ℕ)) x = none from rfl, Option.or_none] at hfold
  refine ⟨fun x y => iff_of_false List.not_mem_nil False.elim, fun x => ?_, fun y _ => ?_⟩
  · rw [hget, Option.isSome_map, List.find?_isSome]
    simp only [List.mem_reverse, decide_eq_true_eq]
    rfl
  · rw [hget]
    refine iff_of_true ?_ fun _ => False.elim
    generalize nodes.reverse.find? (fun node => decide (node.processEntityId = y)) = found
    rcases found with - | node <;> rfl

variable {R : Id → Id → Prop}

/-- One more child. -/
theorem Links.Has.add {s t : Links Id} (h : s.Has nodes R) (parent child : Id)
    (hchildren : ∀ x y, y ∈ lookup t.childrenByParent x ↔
      y ∈ lookup s.childrenByParent x ∨ parent = x ∧ child = y)
    (hincoming : t.incoming = if (Dict.get s.incoming child).isSome then
      Dict.set child ((Dict.get s.incoming child).getD 0 + 1) s.incoming else s.incoming) :
    t.Has nodes fun x y => R x y ∨ parent = x ∧ child = y := by
  refine ⟨fun x y => ?_, fun x => ?_, fun y hy => ?_⟩
  · rw [hchildren, h.children]
  · rw [hincoming, ← h.listed]
    split_ifs with hsome
    · rw [Dict.get_set]
      split_ifs with hx
      · rw [← hx]
        exact iff_of_true rfl hsome
      · rfl
    · rfl
  · rw [hincoming]
    by_cases heq : child = y
    · subst heq
      rw [if_pos ((h.listed child).2 hy), Dict.get_set, if_pos rfl, Option.getD_some]
      exact iff_of_false (Nat.succ_ne_zero _) fun hnone => hnone parent (.inr ⟨rfl, rfl⟩)
    · have hsame : (Dict.get (if (Dict.get s.incoming child).isSome then
          Dict.set child ((Dict.get s.incoming child).getD 0 + 1) s.incoming
            else s.incoming) y) = Dict.get s.incoming y := by
        split_ifs
        · rw [Dict.get_set, if_neg heq]
        · rfl
      rw [hsame, h.zero y hy]
      exact forall_congr' fun x => not_congr (or_iff_left fun hx => heq hx.2).symm

/-- Children are added one after the other. -/
theorem Links.Has.foldl {β : Type} {step : Links Id → β → Links Id} {A : β → Id → Id → Prop}
    (hstep : ∀ s R b, Links.Has nodes s R → (step s b).Has nodes fun x y => R x y ∨ A b x y)
    {s : Links Id} (h : s.Has nodes R) (row : List β) :
    (row.foldl step s).Has nodes fun x y => R x y ∨ ∃ b ∈ row, A b x y := by
  induction row generalizing s R with
  | nil => exact h.congr fun x y => by simp
  | cons b row ih =>
    refine (ih (hstep s R b h)).congr fun x y => ?_
    simp only [List.mem_cons, exists_eq_or_imp, or_assoc]

theorem Links.Has.addEdge {s : Links Id} (h : s.Has nodes R) (edge : GraphEdgeLike Id) :
    (s.addEdge edge).Has nodes fun x y => R x y ∨ EdgeJoins nodes edge x y := by
  have hnone : ∀ x, (Dict.get s.incoming x).isNone = true ↔ ¬ Listed nodes x := by
    intro x
    rw [← h.listed, Option.not_isSome_iff_eq_none, Option.isNone_iff_eq_none]
  rw [Links.addEdge]
  split_ifs with hskip
  · simp only [hnone] at hskip
    refine h.congr fun x y => (or_iff_left ?_).symm
    rintro ⟨hx, hy, hne, rfl, rfl⟩
    exact hskip.elim (fun hnot => hnot hx) fun hskip =>
      hskip.elim (fun hnot => hnot hy) fun heq => hne heq
  · simp only [hnone, not_or, not_not] at hskip
    obtain ⟨hsource, htarget, hne⟩ := hskip
    refine (h.add edge.source edge.target (fun x y => ?_) ?_).congr fun x y => ?_
    · rw [Postings.mem_push]
      exact or_congr_right (and_congr_right fun _ => eq_comm)
    · rw [if_pos ((h.listed _).2 htarget)]
    · refine or_congr_right ⟨?_, fun hjoins => hjoins.2.2.2⟩
      rintro ⟨rfl, rfl⟩
      exact ⟨hsource, htarget, hne, rfl, rfl⟩

theorem Links.Has.addNode {s : Links Id} (h : s.Has nodes R) (node : GraphNodeLike Id) :
    (s.addNode node).Has nodes fun x y => R x y ∨ Names node x y := by
  have hstep : ∀ (s : Links Id) (R : Id → Id → Prop) (child : Id), s.Has nodes R →
      (s.addChild node.processEntityId child).Has nodes
        fun x y => R x y ∨ node.processEntityId = x ∧ child = y := by
    intro s R child h
    refine h.add node.processEntityId child (fun x y => ?_) rfl
    rw [Links.addChild]
    dsimp only
    split_ifs with hin
    · refine (or_iff_left_of_imp ?_).symm
      rintro ⟨rfl, rfl⟩
      exact hin
    · rw [Postings.mem_push]
      exact or_congr_right (and_congr_right fun _ => eq_comm)
  refine (Links.Has.foldl hstep h node.children).congr fun x y => or_congr_right ?_
  constructor
  · rintro ⟨child, hchild, hx, rfl⟩
    exact ⟨hx, hchild⟩
  · rintro ⟨hx, hy⟩
    exact ⟨y, hy, hx, rfl⟩

theorem has_buildLinks (nodes : List (GraphNodeLike Id)) (edges : List (GraphEdgeLike Id)) :
    (buildLinks nodes edges).Has nodes (Child nodes edges) := by
  have hedges := Links.Has.foldl (fun s R edge h => Links.Has.addEdge h edge)
    (has_noLinks nodes) edges
  refine (Links.Has.foldl (fun s R node h => Links.Has.addNode h node) hedges nodes).congr ?_
  intro x y
  rw [false_or]
  rfl

/-! ### Roots -/

variable {links : Links Id}

theorem mem_sortedNodes {node : GraphNodeLike Id} :
    node ∈ sortedNodes links nodes ↔ node ∈ nodes := List.mem_insertionSort _

theorem mem_rootIds (h : links.Has nodes (Child nodes edges)) {x : Id} :
    x ∈ (roots links (sortedNodes links nodes)).map GraphNodeLike.processEntityId ↔
      Listed nodes x ∧ ∀ y, ¬ Child nodes edges y x := by
  simp only [List.mem_map, roots, List.mem_filter, mem_sortedNodes, decide_eq_true_eq]
  constructor
  · rintro ⟨node, ⟨hnode, hzero⟩, rfl⟩
    have hlisted : Listed nodes node.processEntityId := ⟨node, hnode, rfl⟩
    exact ⟨hlisted, (h.zero _ hlisted).1 hzero⟩
  · rintro ⟨⟨node, hnode, rfl⟩, hnone⟩
    exact ⟨node, ⟨hnode, (h.zero _ ⟨node, hnode, rfl⟩).2 hnone⟩, rfl⟩

/-- The roots that are kept. -/
theorem mem_filteredRoots (h : links.Has nodes (Child nodes edges)) {x : Id} :
    x ∈ (filteredRoots edges (roots links (sortedNodes links nodes))).map
      GraphNodeLike.processEntityId ↔ Rooted nodes edges x := by
  -- the first edge to a root that comes from a root comes from the root itself
  have hself : Listed nodes x → (∀ y, ¬ Child nodes edges y x) →
      (((edges.find? fun edge => edge.target = x).all fun edge => edge.source ∉
        (roots links (sortedNodes links nodes)).map GraphNodeLike.processEntityId) = true ↔
        ∀ edge, (edges.find? fun edge => edge.target = x) = some edge → edge.source ≠ x) := by
    intro hlisted hnone
    generalize hfind : edges.find? (fun edge => decide (edge.target = x)) = found
    rcases found with - | edge
    · exact iff_of_true rfl fun _ h => absurd h.symm (Option.some_ne_none _)
    rw [Option.all_some, decide_eq_true_eq, mem_rootIds h]
    have hfound := List.find?_some hfind
    have htarget : edge.target = x := of_decide_eq_true hfound
    constructor
    · rintro hnot _ heq rfl
      obtain rfl := Option.some.inj heq
      exact hnot ⟨hlisted, hnone⟩
    · rintro hne ⟨hsource, -⟩
      exact hnone edge.source (.inl ⟨edge, List.mem_of_find?_eq_some hfind, hsource, hlisted,
        hne edge rfl, rfl, htarget⟩)
  have hroot := @mem_rootIds Id _ nodes edges links h x
  rw [Rooted]
  constructor
  · intro hx
    obtain ⟨node, hnode, rfl⟩ := List.mem_map.1 hx
    obtain ⟨hmem, hkept⟩ := List.mem_filter.1 hnode
    obtain ⟨hlisted, hnone⟩ := hroot.1 (List.mem_map_of_mem hmem)
    exact ⟨hlisted, hnone, (hself hlisted hnone).1 hkept⟩
  · rintro ⟨hlisted, hnone, hne⟩
    obtain ⟨node, hmem, rfl⟩ := List.mem_map.1 (hroot.2 ⟨hlisted, hnone⟩)
    exact List.mem_map_of_mem (List.mem_filter.2 ⟨hmem, (hself hlisted hnone).2 hne⟩)

/-! ### Depths -/

/-- What the search has for the ids. -/
def DepthSearch.depth (s : DepthSearch Id) (x : Id) : Option ℕ := Dict.get s.depthById x

variable {s : DepthSearch Id}

theorem above_iff {next : ℕ} {x : Id} :
    ((Dict.get s.depthById x).all fun depth => depth < next) = true ↔ Above s.depth next x := by
  rw [Above, DepthSearch.depth]
  rcases Dict.get s.depthById x with - | depth
  · exact iff_of_true rfl fun _ h => absurd h.symm (Option.some_ne_none _)
  · rw [Option.all_some, decide_eq_true_eq]
    exact ⟨fun h d hd => Option.some.inj hd ▸ h, fun h => h depth rfl⟩

theorem raise_of_above {next : ℕ} {child : Id} (h : Above s.depth next child) :
    (s.raise next child).queue = s.queue ++ [child] ∧
      ∀ x, (s.raise next child).depth x = if child = x then some next else s.depth x := by
  rw [DepthSearch.raise, if_pos (above_iff.2 h)]
  exact ⟨rfl, fun x => Dict.get_set _ _ _ _⟩

theorem raise_of_not_above {next : ℕ} {child : Id}
    (h : ¬ Above s.depth next child) : s.raise next child = s := by
  rw [DepthSearch.raise, if_neg fun habove => h (above_iff.1 habove)]

/-- Children raised one after the other. -/
theorem foldl_raise (next : ℕ) (children : List Id) (s : DepthSearch Id) (x : Id) :
    (x ∈ children → Above s.depth next x →
        (children.foldl (DepthSearch.raise next) s).depth x = some next ∧
          x ∈ (children.foldl (DepthSearch.raise next) s).queue) ∧
      (¬ (x ∈ children ∧ Above s.depth next x) →
        (children.foldl (DepthSearch.raise next) s).depth x = s.depth x) ∧
      (x ∈ s.queue → x ∈ (children.foldl (DepthSearch.raise next) s).queue) ∧
      (x ∈ (children.foldl (DepthSearch.raise next) s).queue → x ∈ s.queue ∨ x ∈ children) := by
  induction children generalizing s with
  | nil => exact ⟨fun h => absurd h List.not_mem_nil, fun _ => rfl, fun h => h, fun h => .inl h⟩
  | cons child children ih =>
    rw [List.foldl_cons]
    by_cases habove : Above s.depth next child
    · obtain ⟨hqueue, hdepth⟩ := raise_of_above habove
      obtain ⟨hraised, hsame, hkept, horigin⟩ := ih (s.raise next child)
      rw [hqueue, List.mem_append, List.mem_singleton] at hkept horigin
      refine ⟨fun hmem hx => ?_, fun hnot => ?_, fun hx => hkept (.inl hx), fun hx => ?_⟩
      · by_cases heq : child = x
        · subst heq
          have hnow : (s.raise next child).depth child = some next := by
            rw [hdepth, if_pos rfl]
          have hfull : ¬ Above (s.raise next child).depth next child := fun h =>
            lt_irrefl _ (h next hnow)
          exact ⟨(hsame fun h => hfull h.2).trans hnow, hkept (.inr rfl)⟩
        · refine hraised ((List.mem_cons.1 hmem).resolve_left fun h => heq h.symm) ?_
          intro d hd
          rw [hdepth, if_neg heq] at hd
          exact hx d hd
      · have hne : child ≠ x := fun heq => hnot ⟨heq ▸ List.mem_cons_self, heq ▸ habove⟩
        have hold : (s.raise next child).depth x = s.depth x := by rw [hdepth, if_neg hne]
        rw [hsame ?_, hold]
        rintro ⟨hmem, hx⟩
        refine hnot ⟨.tail _ hmem, fun d hd => hx d (hold.trans hd)⟩
      · rcases horigin hx with (hx | rfl) | hx
        · exact .inl hx
        · exact .inr (.head _)
        · exact .inr (.tail _ hx)
    · rw [raise_of_not_above habove]
      obtain ⟨hraised, hsame, hkept, horigin⟩ := ih s
      refine ⟨fun hmem hx => ?_, fun hnot => hsame fun h => hnot ⟨.tail _ h.1, h.2⟩,
        hkept, fun hx => (horigin hx).imp_right (.tail _)⟩
      refine hraised ((List.mem_cons.1 hmem).resolve_left ?_) hx
      rintro rfl
      exact habove hx

/-- What holds between the turns. -/
def DepthSearch.Sound (next : Id → Id → Prop) (start : Id → Prop) (s : DepthSearch Id) : Prop :=
  Layered next start s.depth (· ∈ s.queue)

variable {children : Id → List Id} {start : Id → Prop} {s t : DepthSearch Id}

variable {starts : List Id}

theorem sound_start (hstarts : ∀ x, x ∈ starts ↔ start x)
    (next : Id → Id → Prop) : (depthStart starts).Sound next start := by
  have hget : ∀ x, (depthStart starts).depth x =
      (starts.reverse.find? fun root => root = x).map fun _ => 0 := by
    intro x
    have hfold := Dict.get_foldl_set (fun root : Id => root) (fun _ => 0) starts [] x
    rwa [show Dict.get ([] : List (Id × ℕ)) x = none from rfl, Option.or_none] at hfold
  have hsome : ∀ x, x ∈ starts → (depthStart starts).depth x = some 0 := by
    intro x hx
    have hfound : (starts.reverse.find? fun root => decide (root = x)).isSome = true :=
      List.find?_isSome.2 ⟨x, List.mem_reverse.2 hx, decide_eq_true rfl⟩
    obtain ⟨root, hroot⟩ := Option.isSome_iff_exists.1 hfound
    rw [hget, hroot]
    rfl
  refine ⟨fun x hx => ⟨0, hsome x ((hstarts x).2 hx)⟩, fun x hx => ⟨0, hsome x hx⟩, ?_, ?_⟩
  · intro x d hd
    rw [hget] at hd
    obtain ⟨root, hroot, rfl⟩ := Option.map_eq_some_iff.1 hd
    have hfound := List.find?_some hroot
    obtain rfl : root = x := of_decide_eq_true hfound
    exact Steps.start ((hstarts root).1 (List.mem_reverse.1 (List.mem_of_find?_eq_some hroot)))
  · intro x d hd
    rw [hget] at hd
    obtain ⟨root, hroot, rfl⟩ := Option.map_eq_some_iff.1 hd
    have hfound := List.find?_some hroot
    obtain rfl : root = x := of_decide_eq_true hfound
    exact .inl (List.mem_reverse.1 (List.mem_of_find?_eq_some hroot))

/-- What a turn does. -/
theorem depthTurn_cases (h : depthTurn children s = .inl t) :
    ∃ cur queue, s.queue = cur :: queue ∧ t = (children cur).foldl
      (DepthSearch.raise ((Dict.get s.depthById cur).getD 0 + 1)) ⟨queue, s.depthById⟩ := by
  rw [depthTurn] at h
  rcases hqueue : s.queue with - | ⟨cur, queue⟩
  · rw [hqueue] at h
    cases h
  · rw [hqueue] at h
    exact ⟨cur, queue, rfl, (Sum.inl.inj h).symm⟩

variable {depths : List (Id × ℕ)}

theorem depthTurn_last (h : depthTurn children s = .inr depths) :
    s.queue = [] ∧ depths = s.depthById := by
  rw [depthTurn] at h
  rcases hqueue : s.queue with - | ⟨cur, queue⟩
  · rw [hqueue] at h
    exact ⟨rfl, (Sum.inr.inj h).symm⟩
  · rw [hqueue] at h
    cases h

theorem DepthSearch.Sound.turn (h : s.Sound (fun x y => y ∈ children x) start)
    (hturn : depthTurn children s = .inl t) : t.Sound (fun x y => y ∈ children x) start := by
  obtain ⟨cur, queue, hqueue, rfl⟩ := depthTurn_cases hturn
  obtain ⟨d, hd⟩ := h.waits cur (hqueue ▸ List.mem_cons_self)
  have hget : (Dict.get s.depthById cur).getD 0 + 1 = d + 1 := by
    rw [show Dict.get s.depthById cur = some d from hd, Option.getD_some]
  rw [hget]
  have hspec := foldl_raise (d + 1) (children cur) ⟨queue, s.depthById⟩
  refine Layered.visit h ⟨hd, fun y hy habove => (hspec y).1 hy habove,
    fun y hnot => (hspec y).2.1 hnot, fun y hy => ?_, fun y hy => ?_⟩
  · rw [hqueue] at hy
    exact (List.mem_cons.1 hy).imp_right (hspec y).2.2.1
  · refine ((hspec y).2.2.2 hy).imp_left fun hmem => ?_
    rw [hqueue]
    exact .tail _ hmem

variable {elements : Finset Id}

/-- A turn uses up some of what is left. -/
theorem foldl_raise_room {bound next : ℕ} (hnext : next ≤ bound)
    (row : List Id) (hrow : ∀ x ∈ row, x ∈ elements) (s : DepthSearch Id) :
    (row.foldl (DepthSearch.raise next) s).queue.length +
        Layering.room elements bound (row.foldl (DepthSearch.raise next) s).depth ≤
      s.queue.length + Layering.room elements bound s.depth := by
  induction row generalizing s with
  | nil => exact le_rfl
  | cons child row ih =>
    refine (ih (fun x hx => hrow x (.tail _ hx)) _).trans ?_
    by_cases habove : Above s.depth next child
    · obtain ⟨hqueue, hdepth⟩ := raise_of_above habove
      have hnow : (s.raise next child).depth child = some next := by rw [hdepth, if_pos rfl]
      have hothers : ∀ x, x ≠ child → (s.raise next child).depth x = s.depth x := by
        intro x hx
        rw [hdepth, if_neg fun heq => hx heq.symm]
      have hroom := Layering.room_raise (hrow child (.head _)) habove hnext hnow hothers
      rw [hqueue, List.length_append, List.length_singleton]
      omega
    · rw [raise_of_not_above habove]

theorem DepthSearch.Sound.falls (h : s.Sound (fun x y => y ∈ children x) start)
    (hfree : CycleFree (fun x y => y ∈ children x) start)
    (hin : ∀ x, Below (fun x y => y ∈ children x) start x → x ∈ elements)
    (hturn : depthTurn children s = .inl t) :
    t.queue.length + Layering.room elements elements.card t.depth <
      s.queue.length + Layering.room elements elements.card s.depth := by
  obtain ⟨cur, queue, hqueue, rfl⟩ := depthTurn_cases hturn
  obtain ⟨d, hd⟩ := h.waits cur (hqueue ▸ List.mem_cons_self)
  have hsteps := h.steps cur d hd
  have hbound : d + 1 ≤ elements.card := hsteps.lt_card hfree hin
  have hget : (Dict.get s.depthById cur).getD 0 + 1 = d + 1 := by
    rw [show Dict.get s.depthById cur = some d from hd, Option.getD_some]
  have hle := foldl_raise_room hbound (children cur)
    (fun x hx => hin x (hsteps.next (show x ∈ children cur from hx)).reaches)
    ⟨queue, s.depthById⟩
  rw [hget, hqueue, List.length_cons]
  have hsame : (DepthSearch.mk queue s.depthById).queue.length + Layering.room elements
      elements.card (DepthSearch.depth ⟨queue, s.depthById⟩) =
        queue.length + Layering.room elements elements.card s.depth := rfl
  rw [hsame] at hle
  omega

/-- What holds of the depths at the end. -/
theorem depths_end (hstarts : ∀ x, x ∈ starts ↔ start x) {fuel : ℕ}
    (h : Turns.run (depthTurn children) fuel (depthStart starts) = some depths) :
    Layered (fun x y => y ∈ children x) start (Dict.get depths) fun _ => False := by
  obtain ⟨last, hreached, hlast⟩ := Turns.exists_last h
  obtain ⟨hqueue, rfl⟩ := depthTurn_last hlast
  have hsound := hreached.keeps (P := DepthSearch.Sound (fun x y => y ∈ children x) start)
    (fun _ _ hs hturn => hs.turn hturn) (sound_start hstarts _)
  have hnone : (fun x => x ∈ last.queue) = fun _ : Id => False := by
    funext x
    rw [hqueue]
    exact propext (iff_of_false List.not_mem_nil id)
  exact hnone ▸ hsound

/-- The loop ends, exactly if no cycle can be reached. -/
theorem depths_end_iff (hstarts : ∀ x, x ∈ starts ↔ start x)
    (hin : ∀ x, Below (fun x y => y ∈ children x) start x → x ∈ elements) :
    (∃ fuel depths, Turns.run (depthTurn children) fuel (depthStart starts) = some depths) ↔
      CycleFree (fun x y => y ∈ children x) start := by
  constructor
  · rintro ⟨fuel, depths, hrun⟩
    exact (depths_end hstarts hrun).no_cycle
  · intro hfree
    refine Turns.run_of_falls (P := DepthSearch.Sound (fun x y => y ∈ children x) start)
      (fun s => s.queue.length + Layering.room elements elements.card s.depth) ?_
      (sound_start hstarts _)
    exact fun s t hs hturn => ⟨hs.turn hturn, hs.falls hfree hin hturn⟩

/-! ### Cards -/

/-- A node that the search did not come to has depth 0 either way. -/
theorem getD_allDepths (sorted : List (GraphNodeLike Id)) (depths : List (Id × ℕ)) (x : Id) :
    (Dict.get (allDepths sorted depths) x).getD 0 = (Dict.get depths x).getD 0 := by
  rw [allDepths]
  induction sorted generalizing depths with
  | nil => rfl
  | cons node sorted ih =>
    rw [List.foldl_cons, ih]
    split_ifs with hknown
    · rfl
    · rw [Dict.get_set]
      split_ifs with heq
      · rw [← heq, Option.not_isSome_iff_eq_none.1 hknown]
        rfl
      · rfl

variable {options : LayoutOptions}

variable {card : GraphLayoutNode Id}

theorem mem_column {column : ℕ × List (GraphNodeLike Id)} (h : card ∈ options.column column) :
    ∃ index, ∃ node ∈ column.2, card = options.card column.1 index node := by
  obtain ⟨index, hindex, rfl⟩ := List.mem_mapIdx.1 h
  exact ⟨index, _, List.getElem_mem hindex, rfl⟩

theorem ids_column (options : LayoutOptions) (column : ℕ × List (GraphNodeLike Id)) :
    (options.column column).map GraphLayoutNode.id =
      column.2.map GraphNodeLike.processEntityId := by
  rw [LayoutOptions.column]
  refine List.ext_getElem (by simp) fun index _ _ => ?_
  simp [LayoutOptions.card]

/-- Every node is placed once. -/
theorem placed_layoutOf (options : LayoutOptions) (edges : List (GraphEdgeLike Id))
    (depthOf : GraphNodeLike Id → ℕ) (sorted : List (GraphNodeLike Id)) :
    ((layoutOf options edges (columns depthOf sorted)).nodes.map GraphLayoutNode.id).Perm
      (sorted.map GraphNodeLike.processEntityId) := by
  have hflat : ((columns depthOf sorted).flatMap Prod.snd).Perm sorted := by
    have hgroups := @Gather.flatten_map_filter _ ℕ _ depthOf _
      (Postings.nodup_columns depthOf sorted) sorted
    rw [List.filter_eq_self.2 fun node hnode => decide_eq_true (Postings.mem_columns hnode)]
      at hgroups
    rw [Postings.columns_eq, List.flatMap_def, List.map_map]
    exact hgroups
  have hids : (layoutOf options edges (columns depthOf sorted)).nodes.map GraphLayoutNode.id =
      (((columns depthOf sorted).insertionSort fun a b => a.1 ≤ b.1).flatMap Prod.snd).map
        GraphNodeLike.processEntityId := by
    rw [layoutOf, List.map_flatMap, List.map_flatMap]
    exact congrArg (List.flatMap · _) (funext fun column => ids_column options column)
  rw [hids]
  exact (((List.perm_insertionSort _ _).flatMap_right _).trans hflat).map _

/-- A slot ends where the next one begins. -/
theorem slot_le (extent gap : ℕ) {m n : ℕ} (h : m < n) :
    m * (extent + gap) + extent ≤ n * (extent + gap) := by
  calc m * (extent + gap) + extent
      ≤ (m + 1) * (extent + gap) := by rw [Nat.succ_mul]; omega
    _ ≤ n * (extent + gap) := Nat.mul_le_mul_right _ h

/-- Cards in different columns. -/
theorem apart_of_ne (options : LayoutOptions) {first second : ℕ} (h : first ≠ second) (i j : ℕ)
    (a b : GraphNodeLike Id) : Apart (options.card first i a) (options.card second j b) := by
  rcases Nat.lt_or_gt_of_ne h with hlt | hlt
  · left
    have hle := slot_le options.cardWidth options.columnGap hlt
    show graphPadding + _ + options.cardWidth ≤ graphPadding + _
    omega
  · right
    left
    have hle := slot_le options.cardWidth options.columnGap hlt
    show graphPadding + _ + options.cardWidth ≤ graphPadding + _
    omega

/-- Cards in one column. -/
theorem apart_of_lt (options : LayoutOptions) {i j : ℕ} (h : i < j) (depth : ℕ)
    (a b : GraphNodeLike Id) : Apart (options.card depth i a) (options.card depth j b) := by
  right
  right
  left
  have hle := slot_le options.cardHeight options.rowGap h
  show graphPadding + _ + options.cardHeight ≤ graphPadding + _
  omega

/-- No two cards overlap. -/
theorem apart_layoutOf (options : LayoutOptions) (edges : List (GraphEdgeLike Id))
    (depthOf : GraphNodeLike Id → ℕ) (sorted : List (GraphNodeLike Id)) :
    (layoutOf options edges (columns depthOf sorted)).nodes.Pairwise Apart := by
  refine List.pairwise_flatMap.2 ⟨fun column _ => ?_, ?_⟩
  · refine List.pairwise_iff_getElem.2 fun i j hi hj hlt => ?_
    simp only [LayoutOptions.column, List.getElem_mapIdx]
    exact apart_of_lt options hlt _ _ _
  · have hkeys : (((columns depthOf sorted).insertionSort fun a b => a.1 ≤ b.1).map
        Prod.fst).Nodup :=
      (((List.perm_insertionSort _ _).map _).nodup_iff).2 (Postings.nodup_columns depthOf sorted)
    refine (List.pairwise_map.1 hkeys).imp fun {first second} hne a ha b hb => ?_
    obtain ⟨i, node, -, rfl⟩ := mem_column ha
    obtain ⟨j, other, -, rfl⟩ := mem_column hb
    exact apart_of_ne options hne i j node other

/-- Every card stands at the depth of its node. -/
theorem depth_layoutOf {depthOf : Id → ℕ} {sorted : List (GraphNodeLike Id)}
    (h : card ∈ (layoutOf options edges (columns (fun node => depthOf node.processEntityId)
      sorted)).nodes) : card.depth = depthOf card.id := by
  obtain ⟨column, hcolumn, hcard⟩ := List.mem_flatMap.1 h
  rw [List.mem_insertionSort, Postings.columns_eq] at hcolumn
  obtain ⟨depth, -, rfl⟩ := List.mem_map.1 hcolumn
  obtain ⟨index, node, hnode, rfl⟩ := mem_column hcard
  exact (of_decide_eq_true (List.mem_filter.1 hnode).2).symm

/-! ### The layout -/

/-- Only finitely many ids can be reached. -/
theorem exists_elements (nodes : List (GraphNodeLike Id)) (edges : List (GraphEdgeLike Id)) :
    ∃ elements : Finset Id, ∀ x, Below (Child nodes edges) (Rooted nodes edges) x →
      x ∈ elements := by
  refine ⟨(nodes.map GraphNodeLike.processEntityId ++
    nodes.flatMap GraphNodeLike.children).toFinset, fun x hx => ?_⟩
  obtain ⟨root, hroot, hpath⟩ := hx
  rw [List.mem_toFinset, List.mem_append, List.mem_flatMap]
  rcases Relation.ReflTransGen.cases_tail hpath with rfl | ⟨y, -, hchild⟩
  · exact .inl (List.mem_map.2 hroot.1)
  · rcases hchild with ⟨edge, -, -, hlisted, -⟩ | ⟨node, hnode, -, hx⟩
    · exact .inl (List.mem_map.2 hlisted)
    · exact .inr ⟨node, hnode, hx⟩

/-- What the layout is, once its loop has ended. -/
theorem buildProcessGraphLayout_spec {fuel : ℕ} {layout : GraphLayout Id}
    (h : buildProcessGraphLayout fuel nodes edges options = some layout) :
    ∃ depths : List (Id × ℕ), Layered (Child nodes edges) (Rooted nodes edges) (Dict.get depths)
        (fun _ => False) ∧
      (layout.nodes.map GraphLayoutNode.id).Perm (nodes.map GraphNodeLike.processEntityId) ∧
      layout.nodes.Pairwise Apart ∧
      ∀ card ∈ layout.nodes, card.depth = (Dict.get depths card.id).getD 0 := by
  have hlinks := has_buildLinks nodes edges
  have hchild : (fun x y => y ∈ lookup (buildLinks nodes edges).childrenByParent x) =
      Child nodes edges := funext fun x => funext fun y => propext (hlinks.children x y)
  rw [buildProcessGraphLayout] at h
  obtain ⟨depths, hrun, rfl⟩ := Option.map_eq_some_iff.1 h
  have hend := depths_end (fun x => @mem_filteredRoots Id _ nodes edges _ hlinks x) hrun
  rw [hchild] at hend
  refine ⟨depths, hend, ?_, apart_layoutOf _ _ _ _, fun card hcard => ?_⟩
  · exact (placed_layoutOf _ _ _ _).trans ((List.perm_insertionSort _ _).map _)
  · rw [← getD_allDepths (sortedNodes (buildLinks nodes edges) nodes) depths card.id]
    exact @depth_layoutOf Id _ edges options card (fun x => (Dict.get (allDepths
      (sortedNodes (buildLinks nodes edges) nodes) depths) x).getD 0) _ hcard

theorem layout_ends_iff (nodes : List (GraphNodeLike Id)) (edges : List (GraphEdgeLike Id))
    (options : LayoutOptions) :
    (∃ fuel layout, buildProcessGraphLayout fuel nodes edges options = some layout) ↔
      CycleFree (Child nodes edges) (Rooted nodes edges) := by
  have hlinks := has_buildLinks nodes edges
  have hchild : (fun x y => y ∈ lookup (buildLinks nodes edges).childrenByParent x) =
      Child nodes edges := funext fun x => funext fun y => propext (hlinks.children x y)
  obtain ⟨elements, hin⟩ := exists_elements nodes edges
  rw [← hchild] at hin ⊢
  rw [← depths_end_iff (fun x => @mem_filteredRoots Id _ nodes edges _ hlinks x) hin]
  refine exists_congr fun fuel => ?_
  simp only [buildProcessGraphLayout, Option.map_eq_some_iff]
  constructor
  · rintro ⟨layout, depths, hrun, -⟩
    exact ⟨depths, hrun⟩
  · rintro ⟨depths, hrun⟩
    exact ⟨_, depths, hrun, rfl⟩

/-- **What the layout separates**: the loop ends and the cards are as they should be, exactly if
no cycle can be reached from a root that is kept and, where the links form no cycle, every
node with a parent is below such a root. -/
theorem layout_separates_iff (nodes : List (GraphNodeLike Id)) (edges : List (GraphEdgeLike Id))
    (options : LayoutOptions) :
    (∃ fuel layout, buildProcessGraphLayout fuel nodes edges options = some layout ∧
        Separates nodes edges layout) ↔
      CycleFree (Child nodes edges) (Rooted nodes edges) ∧
        ((∀ x, ¬ Relation.TransGen (Link nodes edges) x x) → ∀ x y, Link nodes edges x y →
          Below (Child nodes edges) (Rooted nodes edges) y) := by
  constructor
  · rintro ⟨fuel, layout, hlayout, hseparates⟩
    obtain ⟨depths, hend, hplaced, -, hdepth⟩ := buildProcessGraphLayout_spec hlayout
    refine ⟨hend.no_cycle, fun hacyclic x y hlink => ?_⟩
    have hcard : ∀ z, Listed nodes z → ∃ card ∈ layout.nodes, card.id = z := fun z hz =>
      List.mem_map.1 (hplaced.mem_iff.2 (List.mem_map.2 hz))
    obtain ⟨a, ha, rfl⟩ := hcard x hlink.1
    obtain ⟨b, hb, rfl⟩ := hcard y hlink.2.1
    have hlt := hseparates.deeper hacyclic _ _ hlink a ha b hb rfl rfl
    rw [hdepth b hb] at hlt
    refine hend.depth_isSome.1 (Option.ne_none_iff_exists'.1 fun hnone => ?_)
    rw [hnone] at hlt
    exact Nat.not_lt_zero _ hlt
  · rintro ⟨hfree, hbelow⟩
    obtain ⟨fuel, layout, hlayout⟩ := (layout_ends_iff nodes edges options).2 hfree
    obtain ⟨depths, hend, hplaced, hapart, hdepth⟩ := buildProcessGraphLayout_spec hlayout
    refine ⟨fuel, layout, hlayout, hplaced, hapart, ?_⟩
    rintro hacyclic x y hlink a ha b hb rfl rfl
    rw [hdepth a ha, hdepth b hb]
    obtain ⟨e, he⟩ := hend.depth_isSome.2 (hbelow hacyclic _ _ hlink)
    rw [he, Option.getD_some]
    rcases hget : Dict.get depths a.id with - | d
    · -- a node with a parent is no root, so that a path to it has a step
      rw [Option.getD_none]
      refine Nat.pos_of_ne_zero ?_
      rintro rfl
      cases hend.steps b.id 0 he with
      | start hrooted => exact hrooted.2.1 a.id hlink.2.2.2
    · obtain ⟨f, hf, hlt⟩ := hend.lt_of_next hlink.2.2.2 hget
      obtain rfl := Option.some.inj (hf.symm.trans he)
      exact hlt

/-! ### Examples -/

/-- A process whose child and grandchild are each other's parents. -/
def childrenInCycle : List (GraphNodeLike ℕ) × List (GraphEdgeLike ℕ) :=
  ([{ processEntityId := 1, pid := 4 }, { processEntityId := 2, pid := 100 },
      { processEntityId := 3, pid := 200 }],
    [{ source := 1, target := 2 }, { source := 2, target := 3 }, { source := 3, target := 2 }])

/-- Its layout never ends. -/
theorem childrenInCycle_never : (childrenInCycle.1.map GraphNodeLike.processEntityId).Nodup ∧
    ¬ ∃ fuel layout, buildProcessGraphLayout fuel childrenInCycle.1 childrenInCycle.2 {} =
      some layout := by
  have hlisted : ∀ x ∈ [1, 2, 3], Listed childrenInCycle.1 x := by
    have hall : ∀ x ∈ [1, 2, 3], ∃ node ∈ childrenInCycle.1, node.processEntityId = x := by decide
    exact hall
  have hjoins : ∀ edge ∈ childrenInCycle.2,
      Child childrenInCycle.1 childrenInCycle.2 edge.source edge.target := by
    have hends : ∀ edge ∈ childrenInCycle.2, edge.source ∈ [1, 2, 3] ∧ edge.target ∈ [1, 2, 3] ∧
        edge.source ≠ edge.target := by decide
    intro edge hedge
    obtain ⟨hsource, htarget, hne⟩ := hends edge hedge
    exact .inl ⟨edge, hedge, hlisted _ hsource, hlisted _ htarget, hne, rfl, rfl⟩
  have hrooted : Rooted childrenInCycle.1 childrenInCycle.2 1 := by
    refine ⟨hlisted 1 (by decide), ?_, ?_⟩
    · rintro y (⟨edge, hedge, -, -, -, -, htarget⟩ | ⟨node, hnode, -, hchild⟩)
      · have hnone : ∀ edge ∈ childrenInCycle.2, edge.target ≠ 1 := by decide
        exact hnone edge hedge htarget
      · have hnone : ∀ node ∈ childrenInCycle.1, node.children = [] := by decide
        rw [hnone node hnode] at hchild
        cases hchild
    · have hnone : (childrenInCycle.2.find? fun edge => edge.target = 1).isNone := by decide
      intro edge hedge
      rw [hedge] at hnone
      cases hnone
  refine ⟨by decide, fun hends => ?_⟩
  refine (layout_ends_iff _ _ _).1 hends 2 ⟨1, hrooted, ?_⟩ ?_
  · exact Relation.ReflTransGen.single (hjoins { source := 1, target := 2 } (by simp [childrenInCycle]))
  · exact (Relation.TransGen.single (hjoins { source := 2, target := 3 }
      (by simp [childrenInCycle]))).tail (hjoins { source := 3, target := 2 }
        (by simp [childrenInCycle]))

end Kairon.Process

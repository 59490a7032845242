/-
Kairon/Graph/Shown.lean

What the compact graph keeps.

The graphs that are built are well formed (`WellFormed`), and every step from the
graph to what is shown keeps the edges between nodes that are there (`Joins`).  An
edge is kept by what stands before it only: `mem_keepEdges`.

`compact_keeps_focus_iff`: a process of the focus is lost exactly if no edge that is
shown touches it, unless no edge is shown at all.
-/
import Kairon.Graph.WellFormed

namespace Kairon.Graph

open Search (Text strip)
open Worklist (Visit search_start)

variable {plat : Platform} {graph : Graph} {focus : Focus} {request : CompactRequest}

/-! ### Parts of graphs -/

/-- An edge has the ids as its ends. -/
def Linked (edges : List Edge) (x y : Text) : Prop :=
  ∃ edge ∈ edges, edge.source = x ∧ edge.target = y ∨ edge.target = x ∧ edge.source = y

theorem joins_restrict (h : graph.Joins) (ids : List Text) : (graph.restrict ids).Joins := by
  have hkeep : ∀ id ∈ ids, id ∈ graph.nodes.map Node.id →
      id ∈ (graph.restrict ids).nodes.map Node.id := by
    intro id hid hin
    obtain ⟨node, hnode, rfl⟩ := List.mem_map.1 hin
    exact List.mem_map_of_mem (List.mem_filter.2 ⟨hnode, decide_eq_true hid⟩)
  intro edge hedge
  obtain ⟨hedge, hends⟩ := List.mem_filter.1 hedge
  obtain ⟨hsource, htarget⟩ := Bool.and_eq_true_iff.1 hends
  exact ⟨hkeep _ (of_decide_eq_true hsource) (h edge hedge).1,
    hkeep _ (of_decide_eq_true htarget) (h edge hedge).2⟩

theorem nodup_restrict (h : (graph.nodes.map Node.id).Nodup) (ids : List Text) :
    ((graph.restrict ids).nodes.map Node.id).Nodup :=
  h.sublist (List.filter_sublist.map _)

theorem Graph.WellFormed.restrict (h : graph.WellFormed) (ids : List Text) :
    (graph.restrict ids).WellFormed where
  named := fun node hnode => h.named node (List.mem_of_mem_filter hnode)
  nodup := nodup_restrict h.nodup ids
  joins := joins_restrict h.joins ids
  processes := fun edge hedge htype node hnode =>
    h.processes edge (List.mem_of_mem_filter hedge) htype node (List.mem_of_mem_filter hnode)

theorem Graph.WellFormed.linked_named (h : graph.WellFormed) (x y : Text)
    (hlinked : Linked graph.edges x y) : y ≠ [] := by
  have hid : y ∈ graph.nodes.map Node.id := by
    obtain ⟨edge, hedge, ⟨-, rfl⟩ | ⟨-, rfl⟩⟩ := hlinked
    · exact (h.joins edge hedge).2
    · exact (h.joins edge hedge).1
  obtain ⟨node, hnode, rfl⟩ := List.mem_map.1 hid
  exact h.named node hnode

/-- The filter restricts the graph. -/
theorem filter_cases (plat : Platform) (graph : Graph) (focus : Focus) :
    filterProcessGraph plat graph focus = graph ∧ ¬ focus.Given ∨
      focus.Given ∧ filterProcessGraph plat graph focus = graph.restrict
        (relatedIds graph.edges (focusIds plat graph focus)
          (focusIds plat graph focus).reverse) := by
  by_cases hgiven : focus.Given
  · exact .inr ⟨hgiven, if_pos hgiven⟩
  · exact .inl ⟨if_neg hgiven, hgiven⟩

theorem Graph.WellFormed.filter (h : graph.WellFormed) :
    (filterProcessGraph plat graph focus).WellFormed := by
  rcases filter_cases plat graph focus with ⟨heq, -⟩ | ⟨-, heq⟩
  · rwa [heq]
  · rw [heq]
    exact h.restrict _

/-! ### Relatives -/

/-- The ids at the other ends of the edges of an id. -/
def others (edges : List Edge) (current : Text) : List Text :=
  edges.flatMap fun edge =>
    (if edge.source = current then [edge.target] else []) ++
    if edge.target = current then [edge.source] else []

variable {edges : List Edge}

theorem mem_others {current id : Text} : id ∈ others edges current ↔ Linked edges current id := by
  rw [others, List.mem_flatMap]
  refine exists_congr fun edge => and_congr_right fun _ => ?_
  have hend : ∀ x y : Text, id ∈ (if x = current then [y] else []) ↔ x = current ∧ y = id := by
    intro x y
    split_ifs with hx
    · rw [List.mem_singleton, and_iff_right hx, eq_comm]
    · exact iff_of_false List.not_mem_nil fun h => hx h.1
  rw [List.mem_append, hend, hend]

theorem relateEdges_eq (edges : List Edge) (current : Text) (state : List Text × List Text) :
    relateEdges edges current state = (others edges current).foldl admitId state := by
  rw [relateEdges]
  induction edges generalizing state with
  | nil => rfl
  | cons edge edges ih =>
    have hsplit : others (edge :: edges) current =
        ((if edge.source = current then [edge.target] else []) ++
          if edge.target = current then [edge.source] else []) ++ others edges current := rfl
    rw [List.foldl_cons, ih, hsplit, List.foldl_append, relateEdge]
    split_ifs <;> rfl

theorem mem_foldl_admitId (ids : List Text) (state : List Text × List Text) (x : Text) :
    (x ∈ (ids.foldl admitId state).1 ↔ x ∈ state.1 ∨ x ∈ ids ∧ x ≠ []) ∧
      (x ∈ (ids.foldl admitId state).2 ↔ x ∈ state.2 ∨ (x ∈ ids ∧ x ≠ []) ∧ x ∉ state.1) := by
  induction ids generalizing state with
  | nil => simp
  | cons id ids ih =>
    obtain ⟨hfirst, hsecond⟩ := ih (admitId state id)
    rw [List.foldl_cons, hfirst, hsecond, admitId]
    clear ih hfirst hsecond
    simp only [List.mem_cons]
    split
    · next hskip =>
      -- what is skipped has no name, or is seen
      have hseen : x = id → x ≠ [] → x ∈ state.1 := by
        rintro rfl hne
        exact hskip.resolve_left hne
      constructor
      · grind
      · grind
    · next hnew =>
      obtain ⟨hne, hnot⟩ := not_or.1 hnew
      have hnamed : x = id → x ≠ [] ∧ x ∉ state.1 := by
        rintro rfl
        exact ⟨hne, hnot⟩
      simp only [List.mem_cons]
      constructor
      · grind
      · grind

/-- What edges lead to from an id, if it has a name. -/
def relatives (edges : List Edge) (current : Text) : Set Text :=
  {id | Linked edges current id ∧ id ≠ []}

variable {related pending : List Text}

theorem visit_relateEdges (current : Text) :
    Visit (relatives edges) {x | x ∈ related} {x | x ∈ current :: pending}
      {x | x ∈ (relateEdges edges current (related, pending)).1}
      {x | x ∈ (relateEdges edges current (related, pending)).2} current := by
  have hmem : ∀ x, (x ∈ (relateEdges edges current (related, pending)).1 ↔
        x ∈ related ∨ x ∈ relatives edges current) ∧
      (x ∈ (relateEdges edges current (related, pending)).2 ↔
        x ∈ pending ∨ x ∈ relatives edges current ∧ x ∉ related) := by
    intro x
    have hfold := mem_foldl_admitId (others edges current) (related, pending) x
    rw [mem_others, ← relateEdges_eq] at hfold
    exact hfold
  refine ⟨.head _, Set.ext fun x => (hmem x).1, ?_, ?_, ?_⟩
  · intro x hx
    exact (List.mem_cons.1 hx).imp_right fun hx => (hmem x).2.2 (.inl hx)
  · exact fun x hx hnew => (hmem x).2.2 (.inr ⟨hx, hnew⟩)
  · intro x hx
    exact ((hmem x).2.1 hx).imp_left fun hx => .tail _ hx

theorem search_relatedIds {known start : Set Text}
    (h : Worklist.Search (relatives edges) known start {x | x ∈ related} {x | x ∈ pending}) :
    Worklist.Search (relatives edges) known start {x | x ∈ relatedIds edges related pending} ∅ := by
  induction related, pending using relatedIds.induct edges with
  | case1 related =>
    rwa [relatedIds, ← List.setOfPred_mem_eq_empty_iff.2 rfl]
  | case2 related current pending ih =>
    rw [relatedIds]
    exact ih (h.visit (visit_relateEdges current))

/-- The ids that edges connect with the processes that are asked for; all of them if none is. -/
def Around (plat : Platform) (graph : Graph) (focus : Focus) (id : Text) : Prop :=
  focus.Given → ∃ node ∈ graph.nodes, focus.selects plat node = true ∧
    Relation.ReflTransGen (Linked graph.edges) node.id id

/-- `related_ids` are what edges connect with the focus. -/
theorem mem_relatedIds (hnamed : ∀ x y, Linked graph.edges x y → y ≠ []) {id : Text} :
    id ∈ relatedIds graph.edges (focusIds plat graph focus) (focusIds plat graph focus).reverse ↔
      ∃ node ∈ graph.nodes, focus.selects plat node = true ∧
        Relation.ReflTransGen (Linked graph.edges) node.id id := by
  have hreverse : {x | x ∈ (focusIds plat graph focus).reverse} =
      {x | x ∈ focusIds plat graph focus} := by
    ext x
    exact List.mem_reverse
  have hsearch : Worklist.Search (relatives graph.edges) {x | x ∈ focusIds plat graph focus}
      {x | x ∈ (focusIds plat graph focus).reverse} {x | x ∈ relatedIds graph.edges
        (focusIds plat graph focus) (focusIds plat graph focus).reverse} ∅ :=
    search_relatedIds search_start
  have hfocus : ∀ x, x ∈ focusIds plat graph focus ↔
      ∃ node ∈ graph.nodes, focus.selects plat node = true ∧ node.id = x := by
    intro x
    simp only [focusIds, List.mem_map, List.mem_filter, and_assoc]
  refine (hsearch.seen_iff id).trans ⟨?_, ?_⟩
  · rintro (hin | ⟨first, hin, hpath⟩)
    · obtain ⟨node, hnode, hselects, rfl⟩ := (hfocus id).1 hin
      exact ⟨node, hnode, hselects, Relation.ReflTransGen.refl⟩
    · rw [hreverse] at hin
      obtain ⟨node, hnode, hselects, rfl⟩ := (hfocus first).1 hin
      exact ⟨node, hnode, hselects,
        Relation.ReflTransGen.mono (fun x y (hstep : Worklist.Enters _ _ x y) => hstep.1.1) _ _
          hpath.to_reflTransGen⟩
  · rintro ⟨node, hnode, hselects, hpath⟩
    have hin := (hfocus node.id).2 ⟨node, hnode, hselects, rfl⟩
    -- along the path, every id is in the focus or reached without entering it
    induction hpath with
    | refl => exact .inl hin
    | @tail y z _ hstep ih =>
      by_cases hz : z ∈ focusIds plat graph focus
      · exact .inl hz
      have henters : Worklist.Enters (relatives graph.edges)
          {x | x ∈ focusIds plat graph focus} y z := ⟨⟨hstep, hnamed y z hstep⟩, hz⟩
      rcases ih with hy | ⟨first, hfirst, hreach⟩
      · exact .inr ⟨y, List.mem_reverse.2 hy, Relation.TransGen.single henters⟩
      · exact .inr ⟨first, hfirst, hreach.tail henters⟩

/-- The processes that are asked for are in the filtered graph. -/
theorem focus_mem_filter (hgraph : graph.WellFormed) {node : Node} (hnode : node ∈ graph.nodes)
    (hfocus : focus.selects plat node = true) :
    node ∈ (filterProcessGraph plat graph focus).nodes := by
  rcases filter_cases plat graph focus with ⟨heq, -⟩ | ⟨-, heq⟩
  · rwa [heq]
  · rw [heq]
    refine List.mem_filter.2 ⟨hnode, decide_eq_true ((mem_relatedIds hgraph.linked_named).2 ?_)⟩
    exact ⟨node, hnode, hfocus, Relation.ReflTransGen.refl⟩

/-- The edges of the filtered graph are those around the focus. -/
theorem edges_filter (hgraph : graph.WellFormed) :
    ∃ around : Text → Bool, (∀ id, around id = true ↔ Around plat graph focus id) ∧
      (filterProcessGraph plat graph focus).edges =
        graph.edges.filter (fun edge => around edge.source) ∧
      ∀ edge ∈ graph.edges, around edge.source = around edge.target := by
  rcases filter_cases plat graph focus with ⟨heq, hnot⟩ | ⟨hgiven, heq⟩
  · refine ⟨fun _ => true, fun id => iff_of_true rfl fun hgiven => absurd hgiven hnot, ?_,
      fun _ _ => rfl⟩
    rw [heq, List.filter_true]
  have haround : ∀ id, decide (id ∈ relatedIds graph.edges (focusIds plat graph focus)
      (focusIds plat graph focus).reverse) = true ↔ Around plat graph focus id := by
    intro id
    rw [decide_eq_true_eq, mem_relatedIds hgraph.linked_named]
    exact ⟨fun h _ => h, fun h => h hgiven⟩
  have hends : ∀ edge ∈ graph.edges, Around plat graph focus edge.source ↔
      Around plat graph focus edge.target := by
    intro edge hedge
    refine ⟨fun h _ => ?_, fun h _ => ?_⟩
    · obtain ⟨node, hnode, hselects, hpath⟩ := h hgiven
      exact ⟨node, hnode, hselects, hpath.tail ⟨edge, hedge, .inl ⟨rfl, rfl⟩⟩⟩
    · obtain ⟨node, hnode, hselects, hpath⟩ := h hgiven
      exact ⟨node, hnode, hselects, hpath.tail ⟨edge, hedge, .inr ⟨rfl, rfl⟩⟩⟩
  have hsame : ∀ edge ∈ graph.edges, decide (edge.source ∈ relatedIds graph.edges
      (focusIds plat graph focus) (focusIds plat graph focus).reverse) =
        decide (edge.target ∈ relatedIds graph.edges (focusIds plat graph focus)
          (focusIds plat graph focus).reverse) := fun edge hedge =>
    Bool.eq_iff_iff.2 ((haround _).trans ((hends edge hedge).trans (haround _).symm))
  refine ⟨_, haround, ?_, hsame⟩
  rw [heq]
  refine List.filter_congr fun edge hedge => ?_
  rw [← hsame edge hedge, Bool.and_self]

/-! ### Edges that are kept -/

/-- No filter by risk, mark or edge type. -/
structure CompactRequest.Plain (request : CompactRequest) : Prop where
  anyRisk : request.onlySuspicious = false
  anyMark : request.onlyMarked = false
  anyType : request.requestedTypes = []

/-- The activity of a source in a row of edges. -/
def activityOf (source : Text) (row : List Edge) : ℕ :=
  row.countP fun edge => edge.type ∈ activityTypes && edge.source = source

/-- An edge is shown: it is no activity, or activity is shown and there is not too much of the
source before it. -/
def Shown (request : CompactRequest) (before : List Edge) (edge : Edge) : Prop :=
  edge.type ∉ activityTypes ∨ request.includeActivity = true ∧
    (activityOf edge.source before : ℤ) < request.maxActivityPerProcess

/-- An edge that is shown touches an id. -/
def Touched (request : CompactRequest) (edges : List Edge) (id : Text) : Prop :=
  ∃ before edge rest, edges = before ++ edge :: rest ∧ Shown request before edge ∧
    (edge.source = id ∨ edge.target = id)

theorem relabel_source (edge : Edge) : edge.relabel.source = edge.source := by
  rw [Edge.relabel]
  split_ifs <;> rfl

theorem relabel_target (edge : Edge) : edge.relabel.target = edge.target := by
  rw [Edge.relabel]
  split_ifs <;> rfl

theorem relabel_type (edge : Edge) : edge.relabel.type =
    if edge.type = "spawned".toList then "parent_child".toList else edge.type := by
  by_cases hspawned : edge.type = "spawned".toList
  · rw [Edge.relabel, if_pos hspawned, if_pos hspawned]
  · rw [Edge.relabel, if_neg hspawned, if_neg hspawned]

theorem relabel_type_mem (edge : Edge) :
    edge.relabel.type ∈ activityTypes ↔ edge.type ∈ activityTypes := by
  rw [relabel_type]
  split_ifs with hspawned
  · rw [hspawned]
    decide
  · rfl

theorem activityOf_cons (source : Text) (edge : Edge) (row : List Edge) :
    activityOf source (edge :: row) = activityOf source row +
      if edge.type ∈ activityTypes ∧ edge.source = source then 1 else 0 := by
  rw [activityOf, activityOf, List.countP_cons]
  simp only [Bool.and_eq_true, decide_eq_true_eq]

/-- Edges are kept out of those that there are. -/
theorem mem_of_mem_keepEdges {seen : List Text} {edge : Edge}
    (h : edge ∈ keepEdges request seen edges) :
    ∃ original ∈ edges, original.relabel = edge ∧
      (request.showActivity = false → edge.type ∉ activityTypes) := by
  induction edges generalizing seen with
  | nil => cases h
  | cons first edges ih =>
    have hrest : ∀ {seen}, edge ∈ keepEdges request seen edges → ∃ original ∈ first :: edges,
        original.relabel = edge ∧ (request.showActivity = false → edge.type ∉ activityTypes) := by
      intro seen hmem
      obtain ⟨original, horiginal, hedge⟩ := ih hmem
      exact ⟨original, .tail _ horiginal, hedge⟩
    rw [keepEdges] at h
    split_ifs at h with htypes hactivity hshow hmany hother
    · exact hrest h
    · exact hrest h
    · rcases List.mem_cons.1 h with rfl | h
      · exact ⟨first, .head _, rfl, fun hnot => absurd hshow (by simp [hnot])⟩
      · exact hrest h
    · exact hrest h
    · exact hrest h
    · rcases List.mem_cons.1 h with rfl | h
      · exact ⟨first, .head _, rfl, fun _ => hactivity⟩
      · exact hrest h

/-- Without a filter by type, the edges that are shown are kept. -/
theorem mem_keepEdges (hplain : request.requestedTypes = []) {seen : List Text} {edge : Edge} :
    edge ∈ keepEdges request seen edges ↔ ∃ before original rest,
      edges = before ++ original :: rest ∧ original.relabel = edge ∧
        (original.type ∉ activityTypes ∨ request.includeActivity = true ∧
          ((seen.count original.source + activityOf original.source before : ℕ) : ℤ) <
            request.maxActivityPerProcess) := by
  have hshow : request.showActivity = request.includeActivity := by
    rw [CompactRequest.showActivity, hplain, List.any_nil, Bool.or_false]
  induction edges generalizing seen with
  | nil =>
    refine iff_of_false List.not_mem_nil ?_
    rintro ⟨before, original, rest, hsplit, -⟩
    exact absurd hsplit.symm (by simp)
  | cons first edges ih =>
    -- an edge is the first one, or it has the first one before it
    have hcases : (∃ before original rest, first :: edges = before ++ original :: rest ∧
        original.relabel = edge ∧ (original.type ∉ activityTypes ∨ request.includeActivity = true ∧
          ((seen.count original.source + activityOf original.source before : ℕ) : ℤ) <
            request.maxActivityPerProcess)) ↔
        (first.relabel = edge ∧ (first.type ∉ activityTypes ∨ request.includeActivity = true ∧
          (seen.count first.source : ℤ) < request.maxActivityPerProcess)) ∨
        ∃ before original rest, edges = before ++ original :: rest ∧
          original.relabel = edge ∧ (original.type ∉ activityTypes ∨
            request.includeActivity = true ∧
            ((seen.count original.source + activityOf original.source (first :: before) : ℕ) : ℤ) <
              request.maxActivityPerProcess) := by
      constructor
      · rintro ⟨before, original, rest, hsplit, hrelabel, hcond⟩
        rcases before with - | ⟨other, before⟩
        · obtain ⟨rfl, rfl⟩ := List.cons.inj hsplit
          exact .inl ⟨hrelabel, hcond⟩
        · obtain ⟨rfl, htail⟩ := List.cons.inj hsplit
          exact .inr ⟨before, original, rest, htail, hrelabel, hcond⟩
      · rintro (⟨hrelabel, hcond⟩ | ⟨before, original, rest, hsplit, hrelabel, hcond⟩)
        · exact ⟨[], first, edges, rfl, hrelabel, hcond⟩
        · exact ⟨first :: before, original, rest, by rw [hsplit]; rfl, hrelabel, hcond⟩
    rw [hcases, keepEdges]
    rw [if_neg (by simp [hplain]), relabel_source, hshow]
    by_cases hactivity : first.type ∈ activityTypes
    · rw [if_pos ((relabel_type_mem first).2 hactivity)]
      rcases hinclude : request.includeActivity with - | -
      · rw [if_neg (by simp), propext (@ih seen)]
        simp only [hactivity, hinclude, not_true_eq_false, Bool.false_eq_true, false_and, or_self,
          and_false, false_or, or_false]
      · have hcount : ∀ source before, (first.source :: seen).count source +
            activityOf source before = seen.count source + activityOf source (first :: before) := by
          intro source before
          rw [activityOf_cons, List.count_cons]
          simp only [hactivity, true_and, beq_iff_eq]
          omega
        rw [if_pos rfl]
        simp only [hactivity, not_true_eq_false, true_and, false_or]
        split_ifs with hmany
        · rw [propext (@ih (first.source :: seen))]
          simp only [hinclude, true_and, hcount]
          refine (or_iff_right ?_).symm
          rintro ⟨-, hfew⟩
          push_cast at hmany
          omega
        · rw [List.mem_cons, propext (@ih (first.source :: seen))]
          simp only [hinclude, true_and, hcount]
          refine or_congr_left ⟨fun heq => ⟨heq.symm, ?_⟩, fun hfirst => hfirst.1.symm⟩
          push_cast at hmany
          omega
    · have hcount : ∀ source before,
          activityOf source (first :: before) = activityOf source before := by
        intro source before
        rw [activityOf_cons, if_neg fun h => hactivity h.1, Nat.add_zero]
      rw [if_neg fun h => hactivity ((relabel_type_mem first).1 h),
        if_neg (by simp [hplain]), List.mem_cons, propext (@ih seen)]
      simp only [hcount]
      refine or_congr_left ⟨fun heq => ⟨heq.symm, .inl hactivity⟩, fun hfirst => hfirst.1.symm⟩

theorem mem_endIds {id : Text} :
    id ∈ endIds edges ↔ ∃ edge ∈ edges, edge.source = id ∨ edge.target = id := by
  rw [endIds, List.mem_flatMap]
  simp only [List.mem_cons, List.not_mem_nil, or_false, eq_comm]

/-- What is shown touches an id, exactly if an edge that is kept does. -/
theorem touched_iff (hplain : request.requestedTypes = []) {id : Text} :
    id ∈ endIds (keepEdges request [] edges) ↔ Touched request edges id := by
  have hzero : ∀ source : Text, ([] : List Text).count source = 0 := fun _ => List.count_nil
  rw [mem_endIds]
  simp only [mem_keepEdges hplain, hzero, Nat.zero_add]
  constructor
  · rintro ⟨edge, ⟨before, original, rest, hsplit, rfl, hshown⟩, hends⟩
    rw [relabel_source, relabel_target] at hends
    exact ⟨before, original, rest, hsplit, hshown, hends⟩
  · rintro ⟨before, original, rest, hsplit, hshown, hends⟩
    refine ⟨original.relabel, ⟨before, original, rest, hsplit, rfl, hshown⟩, ?_⟩
    rwa [relabel_source, relabel_target]

/-- In the filtered graph, what is shown touches what it touches in the graph. -/
theorem touched_filter (hgraph : graph.WellFormed) (request : CompactRequest) (id : Text) :
    Touched request (filterProcessGraph plat graph focus).edges id ↔
      Around plat graph focus id ∧ Touched request graph.edges id := by
  obtain ⟨around, haround, hedges, hends⟩ := @edges_filter plat graph focus hgraph
  have hshown : ∀ (before : List Edge) (edge : Edge), around edge.source = true →
      (Shown request (before.filter fun edge => around edge.source) edge ↔
        Shown request before edge) := by
    intro before edge hsource
    have hcount : activityOf edge.source (before.filter fun other => around other.source) =
        activityOf edge.source before := by
      rw [activityOf, activityOf, List.countP_filter]
      refine List.countP_congr fun other _ => ?_
      simp only [Bool.and_eq_true, decide_eq_true_eq]
      exact ⟨fun h => h.1, fun h => ⟨h, h.2 ▸ hsource⟩⟩
    rw [Shown, Shown, hcount]
  rw [Touched, hedges, ← haround]
  constructor
  · rintro ⟨before, edge, rest, hsplit, hedge, hid⟩
    obtain ⟨first, second, hall, rfl, hsecond⟩ := List.filter_eq_append_iff.1 hsplit
    obtain ⟨skipped, last, rfl, hskipped, hsource, -⟩ := List.filter_eq_cons_iff.1 hsecond
    have hmem : edge ∈ graph.edges := by simp [hall]
    refine ⟨?_, first ++ skipped, edge, last, by rw [hall, List.append_assoc], ?_, hid⟩
    · rcases hid with rfl | rfl
      · exact hsource
      · rw [← hends edge hmem]
        exact hsource
    · rw [← hshown _ _ hsource, List.filter_append, List.filter_eq_nil_iff.2 hskipped,
        List.append_nil]
      exact hedge
  · rintro ⟨hin, before, edge, rest, hsplit, hedge, hid⟩
    have hmem : edge ∈ graph.edges := by simp [hsplit]
    have hsource : around edge.source = true := by
      rcases hid with rfl | rfl
      · exact hin
      · rw [hends edge hmem]
        exact hin
    refine ⟨before.filter fun edge => around edge.source, edge,
      rest.filter fun edge => around edge.source, ?_, (hshown _ _ hsource).2 hedge, hid⟩
    rw [hsplit, List.filter_append]
    exact congrArg _ (List.filter_cons_of_pos hsource)

/-- Nothing is kept, exactly if nothing is shown. -/
theorem keepEdges_eq_nil (hplain : request.requestedTypes = []) :
    keepEdges request [] edges = [] ↔ ∀ id, ¬ Touched request edges id := by
  rw [List.eq_nil_iff_forall_not_mem]
  constructor
  · intro hnone id htouched
    obtain ⟨edge, hedge, -⟩ := mem_endIds.1 ((touched_iff hplain).2 htouched)
    exact hnone edge hedge
  · intro hnone edge hedge
    exact hnone edge.source ((touched_iff hplain).1 (mem_endIds.2 ⟨edge, hedge, .inl rfl⟩))

/-! ### The whole that is shown -/

theorem nodup_compactWhole (h : (graph.nodes.map Node.id).Nodup) (request : CompactRequest) :
    ((compactWhole graph request).nodes.map Node.id).Nodup := by
  have hkept : ((keepNodes request graph.nodes (keepEdges request [] graph.edges)).map
      Node.id).Nodup := h.sublist (List.filter_sublist.map _)
  rw [compactWhole]
  split_ifs
  · exact @nodup_restrict (Graph.restrict _ _) (nodup_restrict hkept _) _
  · exact nodup_restrict hkept _
  · exact nodup_restrict hkept _
  · exact hkept

/-- The nodes at the ends of a kept edge are kept. -/
theorem joins_compactWhole (h : graph.WellFormed) (request : CompactRequest) :
    (compactWhole graph request).Joins := by
  have hkept : Graph.Joins ⟨keepNodes request graph.nodes (keepEdges request [] graph.edges),
      keepEdges request [] graph.edges⟩ := by
    intro edge hedge
    have hne : keepEdges request [] graph.edges ≠ [] := List.ne_nil_of_mem hedge
    obtain ⟨original, horiginal, hrelabel, hactivity⟩ := mem_of_mem_keepEdges hedge
    have hend : ∀ id, id = edge.source ∨ id = edge.target → id ∈ graph.nodes.map Node.id →
        id ∈ (keepNodes request graph.nodes (keepEdges request [] graph.edges)).map Node.id := by
      intro id hid hin
      obtain ⟨node, hnode, rfl⟩ := List.mem_map.1 hin
      have hids : node.id ∈ endIds (keepEdges request [] graph.edges) :=
        mem_endIds.2 ⟨edge, hedge, hid.imp Eq.symm Eq.symm⟩
      have hshown : (request.showActivity || !node.isActivity) = true := by
        rcases hshow : request.showActivity with - | -
        · have htype : original.type ∉ activityTypes := by
            rw [← relabel_type_mem, hrelabel]
            exact hactivity hshow
          rw [← hrelabel, relabel_source, relabel_target] at hid
          rw [h.processes original horiginal htype node hnode hid]
          rfl
        · rfl
      refine List.mem_map_of_mem (List.mem_filter.2 ⟨hnode, ?_⟩)
      rw [if_neg fun hnil => hne hnil.1, decide_eq_true hids, hshown]
      rfl
    obtain ⟨hsource, htarget⟩ := h.joins original horiginal
    rw [← relabel_source, hrelabel] at hsource
    rw [← relabel_target, hrelabel] at htarget
    exact ⟨hend _ (.inl rfl) hsource, hend _ (.inr rfl) htarget⟩
  rw [compactWhole]
  split_ifs
  · exact @joins_restrict (Graph.restrict _ _) (joins_restrict hkept _) _
  · exact joins_restrict hkept _
  · exact joins_restrict hkept _
  · exact hkept

/-- Which processes are shown where there is no filter. -/
theorem process_shown_iff (hplain : request.Plain) {node : Node} (hnode : node ∈ graph.nodes)
    (hprocess : node.isActivity = false) :
    node ∈ (compactWhole graph request).nodes ↔ Touched request graph.edges node.id ∨
      request.includeActivity = false ∧ ∀ id, ¬ Touched request graph.edges id := by
  have hshow : request.showActivity = request.includeActivity := by
    rw [CompactRequest.showActivity, hplain.anyType, List.any_nil, Bool.or_false]
  have hwhole : compactWhole graph request =
      ⟨keepNodes request graph.nodes (keepEdges request [] graph.edges),
        keepEdges request [] graph.edges⟩ := by
    rw [compactWhole, hplain.anyRisk, hplain.anyMark]
    rfl
  rw [hwhole, keepNodes, List.mem_filter, and_iff_right hnode, hprocess, Bool.not_false,
    Bool.or_true, Bool.and_true, decide_eq_true_eq, hshow]
  rw [← touched_iff hplain.anyType, ← keepEdges_eq_nil hplain.anyType]
  split_ifs with hnone
  · refine iff_of_true (List.mem_map_of_mem (List.mem_filter.2 ⟨hnode, ?_⟩)) (.inr hnone.symm)
    rw [hprocess]
    rfl
  · exact (or_iff_left fun hother => hnone hother.symm).symm

/-! ### The cap -/

theorem length_selectNode {ids : List Text} {parent : Text → Option Text} {cap : ℤ}
    {selected : List Text} (h : (selected.length : ℤ) ≤ cap) (id : Text) :
    ((selectNode ids parent cap selected id).length : ℤ) ≤ cap := by
  rw [selectNode]
  split_ifs with hskip
  · exact h
  dsimp only
  split_ifs with hfits
  · rw [List.length_append]
    exact hfits
  · rw [List.length_append, List.length_singleton]
    push_cast
    omega

theorem length_selectedIds {cap : ℤ} (hcap : 0 ≤ cap) (graph : Graph) :
    ((selectedIds graph cap).length : ℤ) ≤ cap := by
  have hrun : ∀ (row selected : List Text), (selected.length : ℤ) ≤ cap →
      ((row.foldl (selectNode (graph.nodes.map Node.id) (parentOf graph.edges) cap)
        selected).length : ℤ) ≤ cap := by
    intro row
    induction row with
    | nil => exact fun _ h => h
    | cons id row ih => exact fun selected h => ih _ (length_selectNode h id)
  exact hrun _ [] hcap

/-- A part of a graph has no more nodes than ids. -/
theorem length_restrict (h : (graph.nodes.map Node.id).Nodup) (ids : List Text) :
    (graph.restrict ids).nodes.length ≤ ids.length := by
  have hsub : ∀ id ∈ (graph.restrict ids).nodes.map Node.id, id ∈ ids := by
    intro id hid
    obtain ⟨node, hnode, rfl⟩ := List.mem_map.1 hid
    exact of_decide_eq_true (List.mem_filter.1 hnode).2
  have hle := ((nodup_restrict h ids).subperm hsub).length_le
  rwa [List.length_map] at hle

/-- A graph is cut to its part, or it is shown whole. -/
theorem compact_cases (graph : Graph) (request : CompactRequest) :
    (0 < request.maxNodes ∧ (compactProcessGraph graph request).truncated = true ∧
      (compactProcessGraph graph request).graph = (compactWhole graph request).restrict
        (selectedIds (compactWhole graph request) request.maxNodes)) ∨
      (compactProcessGraph graph request).truncated = false ∧
        (compactProcessGraph graph request).graph = compactWhole graph request := by
  rw [compactProcessGraph]
  split_ifs with hcut
  · exact .inl ⟨hcut.1, rfl, rfl⟩
  · exact .inr ⟨rfl, rfl⟩

/-- **What the compact graph keeps**: the processes that are asked for are in a graph that is
neither cut nor filtered, a graph that is cut has at most the nodes that are allowed, and
every edge joins two nodes, if and only if each of these processes is touched by an edge that
is shown, or activity is not asked for and no edge around the focus is shown. -/
theorem compact_keeps_focus_iff (plat : Platform) (events : List Event) (graph : Graph)
    (hgraph : buildProcessGraph plat events = some graph) (focus : Focus)
    (request : CompactRequest) :
    (((compactProcessGraph (filterProcessGraph plat graph focus) request).truncated = false →
        request.Plain → ∀ node ∈ graph.nodes, focus.selects plat node = true →
        node.isActivity = false →
        node ∈ (compactProcessGraph (filterProcessGraph plat graph focus) request).graph.nodes) ∧
      ((compactProcessGraph (filterProcessGraph plat graph focus) request).truncated = true →
        ((compactProcessGraph (filterProcessGraph plat graph focus) request).graph.nodes.length :
          ℤ) ≤ request.maxNodes) ∧
      (compactProcessGraph (filterProcessGraph plat graph focus) request).graph.Joins) ↔
    ((compactProcessGraph (filterProcessGraph plat graph focus) request).truncated = false →
      request.Plain → ∀ node ∈ graph.nodes, focus.selects plat node = true →
      node.isActivity = false → Touched request graph.edges node.id ∨
        request.includeActivity = false ∧
          ∀ id, Around plat graph focus id → ¬ Touched request graph.edges id) := by
  have hwell := built_wellFormed hgraph
  have hfiltered : (filterProcessGraph plat graph focus).WellFormed := hwell.filter
  have hwhole := joins_compactWhole hfiltered request
  have hnodup := nodup_compactWhole hfiltered.nodup request
  rcases compact_cases (filterProcessGraph plat graph focus) request with
    ⟨hpos, htrue, hcut⟩ | ⟨hfalse, hshown⟩
  · rw [htrue, hcut]
    refine iff_of_true ⟨Bool.noConfusion, fun _ => ?_, joins_restrict hwhole _⟩ Bool.noConfusion
    have hle := length_restrict hnodup
      (selectedIds (compactWhole (filterProcessGraph plat graph focus) request) request.maxNodes)
    exact (Int.ofNat_le.2 hle).trans (length_selectedIds hpos.le _)
  rw [hfalse, hshown]
  -- a process of the focus is shown as the edges of the whole graph say
  have hiff : request.Plain → ∀ node ∈ graph.nodes, focus.selects plat node = true →
      node.isActivity = false →
      (node ∈ (compactWhole (filterProcessGraph plat graph focus) request).nodes ↔
        Touched request graph.edges node.id ∨ request.includeActivity = false ∧
          ∀ id, Around plat graph focus id → ¬ Touched request graph.edges id) := by
    intro hplain node hnode hfocus hprocess
    rw [process_shown_iff hplain (focus_mem_filter hwell hnode hfocus) hprocess]
    have haround : Around plat graph focus node.id := fun _ =>
      ⟨node, hnode, hfocus, Relation.ReflTransGen.refl⟩
    simp only [touched_filter hwell, and_iff_right haround, not_and]
  constructor
  · rintro ⟨hkept, -, -⟩ _ hplain node hnode hfocus hprocess
    exact (hiff hplain node hnode hfocus hprocess).1 (hkept rfl hplain node hnode hfocus hprocess)
  · intro htouched
    refine ⟨fun _ hplain node hnode hfocus hprocess => ?_, Bool.noConfusion, hwhole⟩
    exact (hiff hplain node hnode hfocus hprocess).2
      (htouched rfl hplain node hnode hfocus hprocess)

/-! ### Examples -/

/-- Two processes of one program; the first has a child. -/
def twoShells : List Event :=
  parentByPid ++ [processStart "other" "2024-03-22T11:00:05Z" "cmd.exe" 300 {}]

/-- The second is asked for and lost. -/
theorem twoShells_loses : ¬ ∀ graph, buildProcessGraph plainPlatform twoShells = some graph →
      (compactProcessGraph (filterProcessGraph plainPlatform graph
        { processName := "cmd.exe".toList }) {}).truncated = false →
      CompactRequest.Plain {} → ∀ node ∈ graph.nodes,
      Focus.selects plainPlatform { processName := "cmd.exe".toList } node = true →
      node.isActivity = false →
      node ∈ (compactProcessGraph (filterProcessGraph plainPlatform graph
        { processName := "cmd.exe".toList }) {}).graph.nodes := by
  have hshown : (buildProcessGraph plainPlatform twoShells).map (fun graph =>
      ((compactProcessGraph (filterProcessGraph plainPlatform graph
          { processName := "cmd.exe".toList }) {}).truncated,
        (compactProcessGraph (filterProcessGraph plainPlatform graph
          { processName := "cmd.exe".toList }) {}).graph.nodes.map Node.id,
        (graph.nodes.filter fun node => Focus.selects plainPlatform
          { processName := "cmd.exe".toList } node && !node.isActivity).map Node.id)) =
      some (false, ["parent".toList, "child".toList], ["parent".toList, "other".toList]) := by
    decide +kernel
  obtain ⟨graph, hgraph, heq⟩ := Option.map_eq_some_iff.1 hshown
  rw [Prod.mk.injEq, Prod.mk.injEq] at heq
  obtain ⟨hwhole, hnodes, hfocus⟩ := heq
  intro hkept
  have hother : "other".toList ∈ (graph.nodes.filter fun node => Focus.selects plainPlatform
      { processName := "cmd.exe".toList } node && !node.isActivity).map Node.id := by
    rw [hfocus]
    decide
  obtain ⟨node, hnode, hid⟩ := List.mem_map.1 hother
  obtain ⟨hnode, hcond⟩ := List.mem_filter.1 hnode
  obtain ⟨hselects, hprocess⟩ := Bool.and_eq_true_iff.1 hcond
  have hin := List.mem_map_of_mem (f := Node.id) (hkept graph hgraph hwhole ⟨rfl, rfl, rfl⟩ node
    hnode hselects (Bool.not_eq_true' _ ▸ hprocess))
  rw [hid, hnodes] at hin
  exact absurd hin (by decide)

/-- The first and its child are shown. -/
theorem parentByPid_shown : ∃ graph, buildProcessGraph plainPlatform parentByPid = some graph ∧
      ∀ node ∈ graph.nodes, Focus.selects plainPlatform { processName := "cmd.exe".toList } node →
        node.isActivity = false → node ∈ (compactProcessGraph (filterProcessGraph plainPlatform graph
          { processName := "cmd.exe".toList }) {}).graph.nodes := by
  have hbuilt : (buildProcessGraph plainPlatform parentByPid).map (fun graph =>
      ((compactProcessGraph (filterProcessGraph plainPlatform graph
          { processName := "cmd.exe".toList }) {}).truncated,
        graph.edges.map fun edge => (edge.type, edge.source, edge.target))) =
      some (false, [("spawned".toList, "parent".toList, "child".toList)]) := by decide +kernel
  have hnames : (buildProcessGraph plainPlatform parentByPid).map (fun graph =>
      graph.nodes.map Node.id) = some ["parent".toList, "child".toList] := by decide +kernel
  obtain ⟨graph, hgraph, heq⟩ := Option.map_eq_some_iff.1 hbuilt
  rw [Prod.mk.injEq] at heq
  obtain ⟨hwhole, hedges⟩ := heq
  rw [hgraph] at hnames
  have hids : graph.nodes.map Node.id = ["parent".toList, "child".toList] :=
    Option.some.inj hnames
  obtain ⟨edge, hedge, hends⟩ := List.map_eq_singleton_iff.1 hedges
  rw [Prod.mk.injEq, Prod.mk.injEq] at hends
  obtain ⟨htype, hsource, htarget⟩ := hends
  refine ⟨graph, hgraph, fun node hnode hfocus hprocess => ?_⟩
  refine ((compact_keeps_focus_iff plainPlatform parentByPid graph hgraph
    { processName := "cmd.exe".toList } {}).2 ?_).1 hwhole ⟨rfl, rfl, rfl⟩ node hnode hfocus
      hprocess
  intro _ _ other hother _ _
  refine .inl ⟨[], edge, [], hedge, .inl ?_, ?_⟩
  · rw [htype]
    decide
  · have hid := List.mem_map_of_mem (f := Node.id) hother
    rw [hids] at hid
    rw [hsource, htarget]
    simpa [eq_comm] using hid

end Kairon.Graph

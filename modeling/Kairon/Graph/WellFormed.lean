/-
Kairon/Graph/WellFormed.lean

The process graphs that are built are well formed.

The ids of the nodes are their keys, so that none is used twice.  The loop over the
events adds an edge with the node it leads to, and what a node is never changes once
it is there; before the loop all nodes are processes, which is why the `spawned`
edges, and only these, are edges between processes (`Joined`).
-/
import Kairon.Graph.Forest
import Kairon.Graph.Compact

namespace Kairon.Graph

open Search (Text strip)

variable {plat : Platform} {events : List Event} {t : Activity}

/-- Every edge joins two nodes. -/
def Graph.Joins (graph : Graph) : Prop :=
  ∀ edge ∈ graph.edges, edge.source ∈ graph.nodes.map Node.id ∧
    edge.target ∈ graph.nodes.map Node.id

/-- A process graph: ids are not empty and used once, edges join nodes, and only
activity leads to nodes that are not processes. -/
structure Graph.WellFormed (graph : Graph) : Prop where
  named : ∀ node ∈ graph.nodes, node.id ≠ []
  nodup : (graph.nodes.map Node.id).Nodup
  joins : graph.Joins
  processes : ∀ edge ∈ graph.edges, edge.type ∉ activityTypes → ∀ node ∈ graph.nodes,
    node.id = edge.source ∨ node.id = edge.target → node.isActivity = false

/-- What holds in the loop over the events. -/
structure Joined (t : Activity) : Prop where
  named : ∀ key ∈ t.nodes.map Prod.fst, key ≠ []
  nodup : (t.nodes.map Prod.fst).Nodup
  id_eq : ∀ entry ∈ t.nodes, entry.2.id = entry.1
  joins : ∀ edge ∈ t.edges, edge.source ∈ t.nodes.map Prod.fst ∧ edge.target ∈ t.nodes.map Prod.fst
  processes : ∀ edge ∈ t.edges, edge.type ∉ activityTypes → ∀ entry ∈ t.nodes,
    entry.1 = edge.source ∨ entry.1 = edge.target → entry.2.isActivity = false

/-! ### Before the loop -/

/-- What a node is, is not changed by its links and its risk. -/
theorem assess_annotate (link : ParentLink) (node : Node) :
    ((link.annotate node).assess plat).id = node.id ∧
      ((link.annotate node).assess plat).nodeType = node.nodeType := by
  have hannotate : (link.annotate node).id = node.id ∧
      (link.annotate node).nodeType = node.nodeType := by
    rcases link with _ | _ | parts | _ | _ | _
    · exact ⟨rfl, rfl⟩
    · exact ⟨rfl, rfl⟩
    · rcases parts with - | ⟨part, parts⟩ <;> exact ⟨rfl, rfl⟩
    · exact ⟨rfl, rfl⟩
    · exact ⟨rfl, rfl⟩
    · exact ⟨rfl, rfl⟩
  have hassess : ∀ other : Node, (other.assess plat).id = other.id ∧
      (other.assess plat).nodeType = other.nodeType := by
    intro other
    rw [Node.assess]
    dsimp only
    split_ifs <;> exact ⟨rfl, rfl⟩
  exact ⟨(hassess _).1.trans hannotate.1, (hassess _).2.trans hannotate.2⟩

theorem nodeType_startedProcesses (plat : Platform) (events : List Event) :
    ∀ entry ∈ (startedProcesses plat events).nodes, entry.2.nodeType = [] := by
  have hstep : ∀ (s : Started) (event : Event), (∀ entry ∈ s.nodes, entry.2.nodeType = []) →
      ∀ entry ∈ (startProcess plat s event).nodes, entry.2.nodeType = [] := by
    intro s event h entry hentry
    rw [startProcess] at hentry
    split_ifs at hentry
    · exact h entry hentry
    rcases Dict.mem_of_mem_set hentry with rfl | hentry
    · show ((Dict.get s.nodes (nodeId event)).getD (newNode plat event)).nodeType = []
      rcases hget : Dict.get s.nodes (nodeId event) with - | node
      · rfl
      · exact h _ (Dict.mem_of_get hget)
    · exact h entry hentry
  have hrun : ∀ (row : List Event) (s : Started), (∀ entry ∈ s.nodes, entry.2.nodeType = []) →
      ∀ entry ∈ (row.foldl (startProcess plat) s).nodes, entry.2.nodeType = [] := by
    intro row
    induction row with
    | nil => exact fun _ h => h
    | cons event row ih => exact fun s h => ih _ (hstep s event h)
  exact hrun _ {} fun _ hentry => absurd hentry List.not_mem_nil

theorem joined_start (plat : Platform) (events : List Event) :
    Joined (activityStart plat (startedProcesses plat events)) := by
  have hsound := startedProcesses_sound plat events
  have hentries : ∀ entry ∈ (activityStart plat (startedProcesses plat events)).nodes,
      ∃ node, (entry.1, node) ∈ (startedProcesses plat events).nodes ∧ entry.2.id = node.id ∧
        entry.2.nodeType = node.nodeType := by
    intro entry hentry
    obtain ⟨_, hlinked, rfl⟩ := List.mem_map.1 hentry
    obtain ⟨original, horiginal, rfl⟩ := List.mem_map.1 hlinked
    exact ⟨original.2, horiginal, assess_annotate _ _⟩
  refine ⟨?_, ?_, ?_, ?_, ?_⟩
  · rw [keys_activityStart]
    intro key hkey
    obtain ⟨entry, hentry, rfl⟩ := List.mem_map.1 hkey
    exact (hsound.id_eq entry hentry).2
  · rw [keys_activityStart]
    exact hsound.nodup
  · intro entry hentry
    obtain ⟨node, hnode, hid, -⟩ := hentries entry hentry
    exact hid.trans (hsound.id_eq _ hnode).1
  · intro edge hedge
    rw [keys_activityStart]
    obtain ⟨entry, hentry, hlink⟩ := mem_spawnedEdges hedge
    obtain ⟨htarget, -, hlink⟩ := edge_cases hlink
    refine ⟨?_, ?_⟩
    · rcases hlink with ⟨hnamed, -⟩ | ⟨hinferred, -⟩
      · obtain ⟨-, -, parent, hparent, -⟩ := parentLink_named hnamed
        exact List.mem_map_of_mem (f := Prod.fst) (Dict.mem_of_get hparent)
      · obtain ⟨_, _, holder, -, -, hid, hlast⟩ :=
          inferredParent_inferred (parentLink_inferred hinferred)
        rw [← hid]
        exact (hsound.holders holder (List.mem_of_mem_filter (lastHolder_spec hlast).1)).1
    · rw [htarget, (hsound.id_eq entry hentry).1]
      exact List.mem_map_of_mem hentry
  · intro _ _ _ entry hentry _
    obtain ⟨node, hnode, -, htype⟩ := hentries entry hentry
    rw [Node.isActivity, htype, nodeType_startedProcesses plat events _ hnode]
    rfl

/-! ### The loop -/

theorem activityEdgeType_mem (event : Event) : activityEdgeType event ∈ activityTypes := by
  rw [activityEdgeType]
  split_ifs <;> decide

theorem activityNodePayload_id {event : Event} {payload : Node}
    (h : activityNodePayload plat event = some payload) : payload.id ≠ [] := by
  rw [activityNodePayload] at h
  split_ifs at h
  obtain ⟨labelled, -, rfl⟩ := Option.map_eq_some_iff.1 h
  exact List.append_ne_nil_of_left_ne_nil (by decide) _

theorem Joined.attach (h : Joined t) (event : Event) {node : Node}
    (hnode : node.id ∈ t.nodes.map Prod.fst) :
    Joined (t.attach plat event node) ∧ ∀ entry ∈ t.nodes,
      entry ∈ (t.attach plat event node).nodes := by
  rw [Activity.attach]
  rcases hactivity : activityNodePayload plat event with - | payload
  · exact ⟨h, fun _ hentry => hentry⟩
  dsimp only
  split
  · exact ⟨h, fun _ hentry => hentry⟩
  -- the nodes, with the activity among them
  generalize hnodes : (if (Dict.get t.nodes payload.id).isSome then t.nodes
    else Dict.set payload.id payload t.nodes) = nodes
  have hspec : (∀ key ∈ nodes.map Prod.fst, key ≠ []) ∧ (nodes.map Prod.fst).Nodup ∧
      (∀ entry ∈ nodes, entry.2.id = entry.1) ∧ payload.id ∈ nodes.map Prod.fst ∧ (∀ entry ∈ t.nodes, entry ∈ nodes) ∧
      ∀ entry ∈ nodes, entry ∈ t.nodes ∨ entry.1 ∉ t.nodes.map Prod.fst := by
    subst hnodes
    split_ifs with hknown
    · obtain ⟨other, hother⟩ := Option.isSome_iff_exists.1 hknown
      exact ⟨h.named, h.nodup, h.id_eq,
        List.mem_map_of_mem (f := Prod.fst) (Dict.mem_of_get hother),
        fun _ hentry => hentry, fun _ hentry => .inl hentry⟩
    · have hnew := Dict.get_eq_none.1 (Option.not_isSome_iff_eq_none.1 hknown)
      refine ⟨?_, Dict.nodup_keys_set _ _ h.nodup, ?_, ?_, ?_, ?_⟩
      · rw [Dict.keys_set hnew]
        intro key hkey
        rcases List.mem_append.1 hkey with hkey | hkey
        · exact h.named key hkey
        · rw [List.mem_singleton.1 hkey]
          exact activityNodePayload_id hactivity
      · intro entry hentry
        rcases Dict.mem_of_mem_set hentry with rfl | hentry
        · rfl
        · exact h.id_eq entry hentry
      · rw [Dict.keys_set hnew]
        simp
      · exact fun entry hentry => Dict.mem_set_of_ne hentry fun heq =>
          hnew (heq ▸ List.mem_map_of_mem hentry)
      · intro entry hentry
        rcases Dict.mem_of_mem_set hentry with rfl | hentry
        · exact .inr hnew
        · exact .inl hentry
  obtain ⟨hnamed, hnodup, hid, hpayload, hkept, hfrom⟩ := hspec
  have hkeys : ∀ id ∈ t.nodes.map Prod.fst, id ∈ nodes.map Prod.fst := by
    intro id hin
    obtain ⟨entry, hentry, rfl⟩ := List.mem_map.1 hin
    exact List.mem_map_of_mem (hkept entry hentry)
  have hedges : ∀ edge, edge ∈ (if activityEdgeId node payload.id ∈ t.edgeIds then t.edges
      else t.edges ++ [activityEdge event node payload]) →
      edge ∈ t.edges ∨ edge = activityEdge event node payload := by
    intro edge hedge
    split_ifs at hedge
    · exact .inl hedge
    · exact (List.mem_append.1 hedge).imp_right List.mem_singleton.1
  refine ⟨⟨hnamed, hnodup, hid, fun edge hedge => ?_,
    fun edge hedge htype entry hentry hend => ?_⟩, hkept⟩
  · rcases hedges edge hedge with hold | rfl
    · exact ⟨hkeys _ (h.joins edge hold).1, hkeys _ (h.joins edge hold).2⟩
    · exact ⟨hkeys _ hnode, hpayload⟩
  · rcases hedges edge hedge with hold | rfl
    · rcases hfrom entry hentry with hentry | hnew
      · exact h.processes edge hold htype entry hentry hend
      · obtain ⟨hsource, htarget⟩ := h.joins edge hold
        exact absurd (hend.elim (fun heq => heq ▸ hsource) fun heq => heq ▸ htarget) hnew
    · exact absurd (activityEdgeType_mem event) htype

theorem mark_isActivity (node : Node) (event : Event) :
    (node.mark event).isActivity = node.isActivity := by
  rw [Node.mark, Node.isActivity, Node.isActivity]
  split_ifs <;> rfl

theorem Joined.visit (h : Joined t) (event : Event) (ref : Text) :
    Joined (visitCompared plat event t ref) := by
  rw [visitCompared]
  rcases hget : Dict.get t.nodes ref with - | node
  · exact h
  dsimp only
  split
  · have hmem := Dict.mem_of_get hget
    have hin : ref ∈ t.nodes.map Prod.fst := List.mem_map_of_mem (f := Prod.fst) hmem
    have hnode : node.id = ref := h.id_eq _ hmem
    obtain ⟨hattached, hkept⟩ := @Joined.attach plat _ h event _ (hnode ▸ hin)
    have hhere := List.mem_map_of_mem (f := Prod.fst) (hkept _ hmem)
    have hkeys : (Dict.set ref (node.mark event) (t.attach plat event node).nodes).map Prod.fst =
        (t.attach plat event node).nodes.map Prod.fst := Dict.keys_set_of_mem hhere
    refine ⟨?_, ?_, ?_, ?_, ?_⟩
    · exact hkeys ▸ hattached.named
    · exact Dict.nodup_keys_set _ _ hattached.nodup
    · intro entry hentry
      rcases Dict.mem_of_mem_set hentry with rfl | hentry
      · exact (mark_alike node event).id.trans hnode
      · exact hattached.id_eq entry hentry
    · intro edge hedge
      show _ ∈ (Dict.set ref (node.mark event) _).map Prod.fst ∧ _ ∈
        (Dict.set ref (node.mark event) _).map Prod.fst
      rw [hkeys]
      exact hattached.joins edge hedge
    · intro edge hedge htype entry hentry hend
      rcases Dict.mem_of_mem_set hentry with rfl | hentry
      · rw [mark_isActivity]
        exact hattached.processes edge hedge htype _ (hkept _ hmem) hend
      · exact hattached.processes edge hedge htype entry hentry hend
  · exact h

theorem Joined.foldl (h : Joined t) (rest : List Event) :
    Joined (rest.foldl (eventCompared plat) t) := by
  have hrefs : ∀ (event : Event) (refs : List Text) (t : Activity), Joined t →
      Joined (refs.foldl (visitCompared plat event) t) := by
    intro event refs
    induction refs with
    | nil => exact fun _ h => h
    | cons ref refs ih => exact fun t h => ih _ (h.visit event ref)
  induction rest generalizing t with
  | nil => exact h
  | cons event rest ih => exact ih (hrefs event _ t h)

/-- **The graphs that are built are well formed.** -/
theorem built_wellFormed {graph : Graph} (h : buildProcessGraph plat events = some graph) :
    graph.WellFormed := by
  rw [buildProcessGraph_eq, buildByComparing] at h
  split_ifs at h with hmade
  obtain rfl := Option.some.inj h
  have hjoined := @Joined.foldl plat _ (joined_start plat events)
    (events.filter fun event => !isProcessStartEvent event)
  generalize (events.filter fun event => !isProcessStartEvent event).foldl (eventCompared plat)
    (activityStart plat (startedProcesses plat events)) = t at hjoined
  have hids : t.graph.nodes.map Node.id = t.nodes.map Prod.fst := by
    rw [Activity.graph, List.map_map]
    exact List.map_congr_left hjoined.id_eq
  refine ⟨fun node hnode => ?_, hids ▸ hjoined.nodup,
    fun edge hedge => hids ▸ hjoined.joins edge hedge, ?_⟩
  · have hid : node.id ∈ t.graph.nodes.map Node.id := List.mem_map_of_mem hnode
    exact hjoined.named _ (hids ▸ hid)
  intro edge hedge htype node hnode hend
  obtain ⟨entry, hentry, rfl⟩ := List.mem_map.1 hnode
  rw [hjoined.id_eq entry hentry] at hend
  exact hjoined.processes edge hedge htype entry hentry hend

end Kairon.Graph

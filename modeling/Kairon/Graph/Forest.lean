/-
Kairon/Graph/Forest.lean

The `spawned` edges of the disk process graph.

A process has at most one edge into it (`targets_sublist`).  The edge comes from the
parent that is named, unless it was first seen later, or from the last holder of the
parent PID (`parentLink_inferred`).  Neither the test for a named parent nor that for
a holder is strict, and a named parent may be without a time, so that processes that
were first seen at one instant can be each other's parents: `spawned_edges_in_time`
says that a cycle has no other reason.

The first timestamp of a process is the least as a text; `TextsOrdered` says that
texts and instants agree on this.
-/
import Kairon.Lib.Orbit
import Kairon.Graph.Indexed

namespace Kairon.Graph

open Search (Text strip)

variable {plat : Platform} {events : List Event} {s : Started}

/-! ### Statements -/

/-- `spawned` edges. -/
def Graph.spawned (graph : Graph) : List Edge :=
  graph.edges.filter fun edge => edge.type = "spawned".toList

/-- The source of the edge into a process. -/
def spawnedParent (edges : List Edge) (id : Text) : Option Text :=
  (edges.find? fun edge => edge.target = id).map Edge.source

/-- The instant at which a process was first seen. -/
def Started.since (plat : Platform) (s : Started) (id : Text) : Option ℤ :=
  (Dict.get s.nodes id).bind fun node => safeParseDt plat node.firstSeen

/-- The timestamps of one process are ordered as texts as they are in time. -/
def TextsOrdered (plat : Platform) (events : List Event) : Prop :=
  ∀ first ∈ events, ∀ second ∈ events, isProcessStartEvent first = true →
    isProcessStartEvent second = true → nodeId first = nodeId second →
    first.timestamp ≤ second.timestamp → ∀ a b, safeParseDt plat first.timestamp = some a →
    safeParseDt plat second.timestamp = some b → a ≤ b

/-- An edge from the last process, other than the child, that was logged with the parent PID
on the host when the child was first seen. -/
def FromLastHolder (plat : Platform) (s : Started) (edge : Edge) : Prop :=
  ∃ child pid start, Dict.get s.nodes edge.target = some child ∧ child.parentPid = some pid ∧
    safeParseDt plat child.firstSeen = some start ∧
    ∃ holder ∈ s.holders, holder.id = edge.source ∧
      holder.precedes edge.target (plat.lower child.host) pid start = true ∧
      ∀ other ∈ s.holders, other.precedes edge.target (plat.lower child.host) pid start = true →
        other.ts.getD 0 ≤ holder.ts.getD 0

/-! ### Links -/

theorem lastHolder_spec {row : List Holder} {holder : Holder} (h : lastHolder row = some holder) :
    holder ∈ row ∧ ∀ other ∈ row, other.key ≤ holder.key := by
  rcases row with - | ⟨first, row⟩
  · cases h
  obtain rfl := Option.some.inj h
  clear h
  induction row generalizing first with
  | nil => exact ⟨.head _, fun other hother => by rw [List.mem_singleton.1 hother]; rfl⟩
  | cons next row ih =>
    rw [List.foldl_cons]
    split_ifs with hlt
    · obtain ⟨hmem, hle⟩ := ih next
      refine ⟨.tail _ hmem, fun other hother => ?_⟩
      rcases List.mem_cons.1 hother with rfl | hother
      · exact hlt.le.trans (hle next (.head _))
      · exact hle other hother
    · obtain ⟨hmem, hle⟩ := ih first
      refine ⟨?_, fun other hother => ?_⟩
      · rcases List.mem_cons.1 hmem with hmem | hmem
        · rw [hmem]
          exact .head _
        · exact .tail _ (.tail _ hmem)
      · rcases List.mem_cons.1 hother with rfl | hother
        · exact hle _ (.head _)
        rcases List.mem_cons.1 hother with rfl | hother
        · exact (not_lt.1 hlt).trans (hle first (.head _))
        · exact hle other (.tail _ hother)

theorem ts_le_of_key_le {first second : Holder} (h : first.key ≤ second.key) :
    first.ts.getD 0 ≤ second.ts.getD 0 := by
  rcases Prod.Lex.toLex_le_toLex.1 h with hlt | ⟨heq, -⟩
  · exact hlt.le
  · exact heq.le

variable {node : Node}

/-- A parent that is inferred is the last holder. -/
theorem inferredParent_inferred {holderId : Text}
    (h : inferredParent plat s node = .inferred holderId) :
    ∃ pid start holder, node.parentPid = some pid ∧ safeParseDt plat node.firstSeen = some start ∧
      holder.id = holderId ∧ lastHolder (s.holders.filter fun holder =>
        holder.precedes node.id (plat.lower node.host) pid start) = some holder := by
  rw [inferredParent] at h
  split at h
  · next pid start hpid hstart =>
    split_ifs at h with hmissing
    split at h
    · cases h
    next holder hlast =>
    refine ⟨pid, start, holder, hpid, hstart, ?_, hlast⟩
    dsimp only at h
    split at h
    · split_ifs at h with hname
      exact ParentLink.inferred.inj h
    · exact ParentLink.inferred.inj h
  · cases h

theorem inferredParent_ne_named {parentId : Text} :
    inferredParent plat s node ≠ .named parentId := by
  rw [inferredParent]
  split
  · split_ifs
    · exact ParentLink.noConfusion
    split
    · exact ParentLink.noConfusion
    · dsimp only
      split
      · split_ifs <;> exact ParentLink.noConfusion
      · exact ParentLink.noConfusion
  · exact ParentLink.noConfusion

/-- A parent that is named is a process that was not first seen later. -/
theorem parentLink_named {parentId : Text} (h : parentLink plat s node = .named parentId) :
    node.parentEntityId = parentId ∧ parentId ≠ node.id ∧ ∃ parent,
      Dict.get s.nodes parentId = some parent ∧
        earlier (safeParseDt plat node.firstSeen) (safeParseDt plat parent.firstSeen) = false := by
  rw [parentLink] at h
  split at h
  · next parent hget =>
    split_ifs at h with hself hearlier
    · exact absurd h inferredParent_ne_named
    · obtain rfl := ParentLink.named.inj h
      exact ⟨rfl, fun heq => hself (.inr heq), parent, hget, Bool.eq_false_iff.2 hearlier⟩
  · exact absurd h inferredParent_ne_named

theorem parentLink_inferred {holderId : Text} (h : parentLink plat s node = .inferred holderId) :
    inferredParent plat s node = .inferred holderId := by
  rw [parentLink] at h
  split at h
  · split_ifs at h with hself hearlier
    exact h
  · exact h

theorem edge_cases {link : ParentLink} {edge : Edge} (h : link.edge node = some edge) :
    edge.target = node.id ∧ edge.type = "spawned".toList ∧
      (link = .named edge.source ∧ edge.reason = "sysmon_parent_process_guid".toList ∨
        link = .inferred edge.source ∧
          edge.reason = "security_4688_parent_pid_inferred".toList) := by
  rcases link with _ | parentId | _ | _ | _ | holderId
  · cases h
  · obtain rfl := Option.some.inj h
    exact ⟨rfl, rfl, .inl ⟨rfl, rfl⟩⟩
  · cases h
  · cases h
  · cases h
  · obtain rfl := Option.some.inj h
    exact ⟨rfl, rfl, .inr ⟨rfl, rfl⟩⟩

/-! ### Edges -/

theorem mem_spawnedEdges {edge : Edge} (h : edge ∈ spawnedEdges plat s) :
    ∃ entry ∈ s.nodes, (parentLink plat s entry.2).edge entry.2 = some edge :=
  List.mem_filterMap.1 h

/-- The targets are processes, each at most once. -/
theorem targets_sublist (hid : ∀ entry ∈ s.nodes, entry.2.id = entry.1) :
    ((spawnedEdges plat s).map Edge.target).Sublist (s.nodes.map Prod.fst) := by
  rw [spawnedEdges]
  generalize hlink : (fun entry : Text × Node => (parentLink plat s entry.2).edge entry.2) = link
  have htarget : ∀ entry ∈ s.nodes, ∀ edge, link entry = some edge → edge.target = entry.1 := by
    intro entry hentry edge hedge
    subst hlink
    rw [(edge_cases hedge).1, hid entry hentry]
  clear hlink hid
  generalize s.nodes = nodes at htarget ⊢
  induction nodes with
  | nil => exact List.Sublist.refl _
  | cons entry nodes ih =>
    have hrest := ih fun other hother => htarget other (.tail _ hother)
    rcases hedge : link entry with - | edge
    · rw [List.filterMap_cons_none hedge, List.map_cons]
      exact hrest.cons _
    · rw [List.filterMap_cons_some hedge, List.map_cons, List.map_cons,
        htarget entry List.mem_cons_self edge hedge]
      exact hrest.cons_cons _

theorem activityEdgeType_ne (event : Event) : activityEdgeType event ≠ "spawned".toList := by
  rw [activityEdgeType]
  split_ifs <;> decide

theorem attach_spawned (t : Activity) (event : Event) (node : Node) :
    (t.attach plat event node).edges.filter (fun edge => edge.type = "spawned".toList) =
      t.edges.filter fun edge => edge.type = "spawned".toList := by
  rw [Activity.attach]
  rcases activityNodePayload plat event with - | payload
  · rfl
  dsimp only
  split_ifs with hfull hknown hedge hedge
  · rfl
  · rfl
  · rw [List.filter_append, List.filter_cons_of_neg, List.filter_nil, List.append_nil]
    exact fun hspawned => activityEdgeType_ne event (of_decide_eq_true hspawned)
  · rfl
  · rw [List.filter_append, List.filter_cons_of_neg, List.filter_nil, List.append_nil]
    exact fun hspawned => activityEdgeType_ne event (of_decide_eq_true hspawned)

theorem foldl_visitCompared_spawned (event : Event) (refs : List Text) (t : Activity) :
    (refs.foldl (visitCompared plat event) t).edges.filter
        (fun edge => edge.type = "spawned".toList) =
      t.edges.filter fun edge => edge.type = "spawned".toList := by
  induction refs generalizing t with
  | nil => rfl
  | cons ref refs ih =>
    rw [List.foldl_cons, ih, visitCompared]
    rcases Dict.get t.nodes ref with - | node
    · rfl
    dsimp only
    split_ifs
    · exact attach_spawned t event node
    · rfl

/-- The `spawned` edges of the graph are the edges of the links. -/
theorem spawned_eq {graph : Graph} (h : buildProcessGraph plat events = some graph) :
    graph.spawned = spawnedEdges plat (startedProcesses plat events) := by
  have hloop : ∀ (rest : List Event) (t : Activity),
      (rest.foldl (eventCompared plat) t).edges.filter
          (fun edge => edge.type = "spawned".toList) =
        t.edges.filter fun edge => edge.type = "spawned".toList := by
    intro rest
    induction rest with
    | nil => exact fun _ => rfl
    | cons event rest ih =>
      intro t
      rw [List.foldl_cons, ih, eventCompared, foldl_visitCompared_spawned]
  rw [buildProcessGraph_eq, buildByComparing] at h
  split_ifs at h with hmade
  obtain rfl := Option.some.inj h
  rw [Graph.spawned, Activity.graph]
  refine (hloop _ _).trans (List.filter_eq_self.2 fun edge hedge => decide_eq_true ?_)
  obtain ⟨entry, -, hlink⟩ := mem_spawnedEdges hedge
  exact (edge_cases hlink).2.1

/-! ### Times -/

theorem safeParseDt_ne_nil {text : Text} {t : ℤ} (h : safeParseDt plat text = some t) :
    text ≠ [] := by
  rintro rfl
  rw [safeParseDt, if_pos (show strip [] = [] from rfl)] at h
  cases h

/-- A process is not first seen after it was logged. -/
theorem since_le_holder (hordered : TextsOrdered plat events) {holder : Holder} {a b : ℤ}
    (hholder : holder ∈ (startedProcesses plat events).holders)
    (hsince : (startedProcesses plat events).since plat holder.id = some a)
    (hts : holder.ts = some b) : a ≤ b := by
  have hsound := startedProcesses_sound plat events
  obtain ⟨-, event, hevent, hid, hparse⟩ := hsound.holders holder hholder
  obtain ⟨node, hget, hfirst⟩ := Option.bind_eq_some_iff.1 hsince
  have hseen := hsound.firstSeen _ (Dict.mem_of_get hget)
  rw [hts] at hparse
  obtain ⟨hne, hle⟩ := hseen.least event hevent hid (safeParseDt_ne_nil hparse.symm)
  rcases hseen.origin with hnil | ⟨other, hother, hsame, htext⟩
  · exact absurd hnil hne
  rw [List.mem_filter] at hevent hother
  refine hordered other hother.1 event hevent.1 hother.2 hevent.2 (hsame.trans hid.symm) ?_ a b ?_
    hparse.symm
  · rw [htext]
    exact hle
  · rw [htext]
    exact hfirst

/-- The parent at the other end of an edge was not first seen later. -/
theorem source_not_later (hordered : TextsOrdered plat events) {edge : Edge}
    (hedge : edge ∈ spawnedEdges plat (startedProcesses plat events)) {a b : ℤ}
    (hsource : (startedProcesses plat events).since plat edge.source = some a)
    (htarget : (startedProcesses plat events).since plat edge.target = some b) : a ≤ b := by
  have hsound := startedProcesses_sound plat events
  obtain ⟨entry, hentry, hlink⟩ := mem_spawnedEdges hedge
  obtain ⟨htarget_eq, -, hlink⟩ := edge_cases hlink
  have hget : Dict.get (startedProcesses plat events).nodes edge.target = some entry.2 := by
    rw [htarget_eq, (hsound.id_eq entry hentry).1]
    exact Dict.get_of_mem hsound.nodup hentry
  have hchild : safeParseDt plat entry.2.firstSeen = some b := by
    rw [Started.since, hget] at htarget
    exact htarget
  rcases hlink with ⟨hnamed, -⟩ | ⟨hinferred, -⟩
  · obtain ⟨-, -, parent, hparent, hnot⟩ := parentLink_named hnamed
    rw [Started.since, hparent] at hsource
    have hfirst : safeParseDt plat parent.firstSeen = some a := hsource
    rw [hchild, hfirst] at hnot
    exact not_lt.1 (of_decide_eq_false hnot)
  · obtain ⟨pid, start, holder, -, hstart, hid, hlast⟩ :=
      inferredParent_inferred (parentLink_inferred hinferred)
    obtain ⟨hmem, hprecedes⟩ := List.mem_filter.1 (lastHolder_spec hlast).1
    obtain ⟨-, hany⟩ := Bool.and_eq_true_iff.1 hprecedes
    obtain ⟨ts, hts, hle⟩ := (Option.any_eq_true _ _).1 hany
    obtain rfl : start = b := Option.some.inj (hstart.symm.trans hchild)
    exact (since_le_holder hordered hmem (hid ▸ hsource) hts).trans (of_decide_eq_true hle)

theorem spawnedParent_eq_some {edges : List Edge} {id source : Text}
    (h : spawnedParent edges id = some source) :
    ∃ edge ∈ edges, edge.target = id ∧ edge.source = source := by
  obtain ⟨edge, hfind, hsource⟩ := Option.map_eq_some_iff.1 h
  have htarget := List.find?_some hfind
  exact ⟨edge, List.mem_of_find?_eq_some hfind, of_decide_eq_true htarget, hsource⟩

/-- **The `spawned` edges in time.**  Every process has at most one edge into it; no edge
comes from a process that was first seen later, or from the process itself; a cycle of edges
has a process without a time, or all its processes were first seen at one instant; and a
parent that is inferred from a PID is the last holder of it. -/
theorem spawned_edges_in_time (plat : Platform) (events : List Event)
    (hordered : TextsOrdered plat events) (graph : Graph)
    (hgraph : buildProcessGraph plat events = some graph) :
    (graph.spawned.map Edge.target).Nodup ∧
    (∀ edge ∈ graph.spawned, edge.source ≠ edge.target ∧
      ∀ a b, (startedProcesses plat events).since plat edge.source = some a →
        (startedProcesses plat events).since plat edge.target = some b → a ≤ b) ∧
    (∀ cycle, Loop (spawnedParent graph.spawned) cycle →
      (∃ id ∈ cycle, (startedProcesses plat events).since plat id = none) ∨
        ∀ x ∈ cycle, ∀ y ∈ cycle, (startedProcesses plat events).since plat x =
          (startedProcesses plat events).since plat y) ∧
    ∀ edge ∈ graph.spawned, edge.reason = "security_4688_parent_pid_inferred".toList →
      FromLastHolder plat (startedProcesses plat events) edge := by
  have hsound := startedProcesses_sound plat events
  rw [spawned_eq hgraph]
  refine ⟨hsound.nodup.sublist (targets_sublist fun entry hentry => (hsound.id_eq entry hentry).1),
    ?_, ?_, ?_⟩
  · intro edge hedge
    refine ⟨?_, fun a b hsource htarget => source_not_later hordered hedge hsource htarget⟩
    obtain ⟨entry, -, hlink⟩ := mem_spawnedEdges hedge
    obtain ⟨htarget, -, ⟨hnamed, -⟩ | ⟨hinferred, -⟩⟩ := edge_cases hlink
    · rw [htarget]
      exact (parentLink_named hnamed).2.1
    · obtain ⟨pid, start, holder, -, -, hid, hlast⟩ :=
        inferredParent_inferred (parentLink_inferred hinferred)
      obtain ⟨-, hprecedes⟩ := List.mem_filter.1 (lastHolder_spec hlast).1
      simp only [Holder.precedes, Bool.and_eq_true, decide_eq_true_eq] at hprecedes
      rw [htarget, ← hid]
      exact hprecedes.1.2
  · intro cycle hloop
    by_cases hnone : ∃ id ∈ cycle, (startedProcesses plat events).since plat id = none
    · exact .inl hnone
    refine .inr fun x hx y hy => ?_
    have htimed : ∀ id ∈ cycle, ∃ t, (startedProcesses plat events).since plat id = some t :=
      fun id hid => Option.ne_none_iff_exists'.1 fun heq => hnone ⟨id, hid, heq⟩
    -- around the cycle no time is later than the one before
    have hlevel := hloop.level
      (f := fun id => ((startedProcesses plat events).since plat id).getD 0)
      (fun child hchild parent hparent => by
        obtain ⟨edge, hedge, rfl, rfl⟩ := spawnedParent_eq_some hparent
        obtain ⟨a, ha⟩ := htimed _ (hloop.parent_mem hchild hparent)
        obtain ⟨b, hb⟩ := htimed _ hchild
        show Option.getD _ 0 ≤ Option.getD _ 0
        rw [ha, hb]
        exact source_not_later hordered hedge ha hb) hx hy
    obtain ⟨a, ha⟩ := htimed x hx
    obtain ⟨b, hb⟩ := htimed y hy
    rw [ha, hb] at hlevel ⊢
    exact congrArg some hlevel
  · intro edge hedge hreason
    obtain ⟨entry, hentry, hlink⟩ := mem_spawnedEdges hedge
    obtain ⟨htarget, -, ⟨-, hother⟩ | ⟨hinferred, -⟩⟩ := edge_cases hlink
    · rw [hreason] at hother
      exact absurd hother (by decide)
    · obtain ⟨pid, start, holder, hpid, hstart, hid, hlast⟩ :=
        inferredParent_inferred (parentLink_inferred hinferred)
      obtain ⟨hmem, hbest⟩ := lastHolder_spec hlast
      obtain ⟨hholder, hprecedes⟩ := List.mem_filter.1 hmem
      rw [← htarget] at hprecedes hbest
      refine ⟨entry.2, pid, start, ?_, hpid, hstart, holder, hholder, hid, hprecedes,
        fun other hin hother => ts_le_of_key_le (hbest other (List.mem_filter.2 ⟨hin, hother⟩))⟩
      rw [htarget, (hsound.id_eq entry hentry).1]
      exact Dict.get_of_mem hsound.nodup hentry

/-! ### Examples -/

/-- `str.lower` and the parsers, as they are for the texts of the examples. -/
def plainPlatform : Platform where
  lower := fun text => text
  int := fun _ _ => none
  parse := fun text =>
    if text = "2024-03-22T11:00:00Z".toList then some 1711105200000000
    else if text = "2024-03-22T11:00:05Z".toList then some 1711105205000000
    else none
  baseName := fun text => text

def processStart (id timestamp name : String) (pid : ℤ) (process : ProcessFields) : Event where
  id := id.toList
  timestamp := timestamp.toList
  eventType := "sysmon_process_creation".toList
  hostName := "hosta".toList
  process := { process with pid := .int pid, name := name.toList }

/-- Two processes of one instant that name each other as parents. -/
def mutualParents : List Event :=
  [processStart "1" "2024-03-22T11:00:00Z" "a.exe" 100
      { entityId := "guid-a".toList, parentEntityId := "guid-b".toList },
    processStart "2" "2024-03-22T11:00:00Z" "b.exe" 200
      { entityId := "guid-b".toList, parentEntityId := "guid-a".toList }]

/-- Each is linked to the other. -/
theorem mutualParents_cycle :
    ¬ ∀ graph, buildProcessGraph plainPlatform mutualParents = some graph →
      Acyclic (spawnedParent graph.spawned) := by
  have hclimb : (buildProcessGraph plainPlatform mutualParents).map
      (fun graph => climb (spawnedParent graph.spawned) 2 "guid-a".toList) =
        some (some "guid-a".toList) := by decide +kernel
  obtain ⟨graph, hgraph, hcyclic⟩ := Option.map_eq_some_iff.1 hclimb
  exact fun hacyclic => hacyclic graph hgraph _ ⟨1, hcyclic⟩

/-- A process, and one started five seconds later by the PID. -/
def parentByPid : List Event :=
  [processStart "parent" "2024-03-22T11:00:00Z" "cmd.exe" 100 {},
    processStart "child" "2024-03-22T11:00:05Z" "psexec.exe" 200
      { parentPid := .int 100, parentName := "cmd.exe".toList }]

/-- The second is linked to the first. -/
theorem parentByPid_linked : TextsOrdered plainPlatform parentByPid ∧
    ∃ graph, buildProcessGraph plainPlatform parentByPid = some graph ∧
      graph.spawned.map (fun edge => (edge.source, edge.target)) =
        [("parent".toList, "child".toList)] ∧
      ∀ edge ∈ graph.spawned, edge.reason = "security_4688_parent_pid_inferred".toList →
        FromLastHolder plainPlatform (startedProcesses plainPlatform parentByPid) edge := by
  have hordered : TextsOrdered plainPlatform parentByPid := by
    have hid : ∀ first ∈ parentByPid, ∀ second ∈ parentByPid, nodeId first = nodeId second →
        first.timestamp = second.timestamp := by decide +kernel
    intro first hfirst second hsecond _ _ hsame _ a b ha hb
    rw [hid first hfirst second hsecond hsame, hb] at ha
    exact (Option.some.inj ha).symm.le
  have hedges : (buildProcessGraph plainPlatform parentByPid).map
      (fun graph => graph.spawned.map fun edge => (edge.source, edge.target)) =
        some [("parent".toList, "child".toList)] := by decide +kernel
  obtain ⟨graph, hgraph, hlinked⟩ := Option.map_eq_some_iff.1 hedges
  exact ⟨hordered, graph, hgraph, hlinked,
    (spawned_edges_in_time plainPlatform parentByPid hordered graph hgraph).2.2.2⟩

end Kairon.Graph

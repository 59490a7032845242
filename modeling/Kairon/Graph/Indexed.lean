/-
Kairon/Graph/Indexed.lean

The index of the nodes changes nothing.

`IndexOf` says that the dictionaries of an index have exactly the nodes that were
added, each under its own keys; a node that matches an event has one of the keys
that are looked up (`found_of_matches`).  Along the loop over the events the fields
that are compared stay as they are (`Alike`), so that the index stays right while
nodes are marked and added (`Agrees`).

`index_changes_nothing`: the candidates that match are the nodes that match, once
each in the order in which they were added, and the graph is the same as with every
event compared with every node.
-/
import Kairon.Graph.Build

namespace Kairon.Graph

open Search (Text strip)
open Postings (Indexes lookup)

variable {plat : Platform}

/-! ### One index -/

section

variable {ρ : Type} [DecidableEq ρ] {index : NodeMatchIndex ρ} {nodeOf : ρ → Node}

/-- What an index has: everything that was added under its keys. -/
structure IndexOf (plat : Platform) (index : NodeMatchIndex ρ) (nodeOf : ρ → Node) : Prop where
  nodup : index.order.Nodup
  byEntity : Indexes index.byEntity index.order fun x => textKey (nodeEntity (nodeOf x))
  byPid : Indexes index.byPid index.order fun x => (nodeOf x).pid
  byPath : Indexes index.byPath index.order fun x => nodePath plat (nodeOf x)
  byName : Indexes index.byName index.order fun x => textKey (nodeName plat (nodeOf x))

omit [DecidableEq ρ] in
theorem indexOf_empty (nodeOf : ρ → Node) : IndexOf plat {} nodeOf where
  nodup := List.nodup_nil
  byEntity := Postings.indexes_nil _
  byPid := Postings.indexes_nil _
  byPath := Postings.indexes_nil _
  byName := Postings.indexes_nil _

theorem IndexOf.add (h : IndexOf plat index nodeOf) (ref : ρ) :
    IndexOf plat (index.add plat ref (nodeOf ref)) nodeOf := by
  rw [NodeMatchIndex.add]
  split
  · exact h
  · next hnew =>
    exact {
      nodup := List.nodup_append.2 ⟨h.nodup, List.nodup_singleton _, by
        rintro x hx y hy rfl
        exact hnew (List.mem_singleton.1 hy ▸ hx)⟩
      byEntity := h.byEntity.push ref
      byPid := h.byPid.push ref
      byPath := h.byPath.push ref
      byName := h.byName.push ref }

theorem order_add (index : NodeMatchIndex ρ) (ref : ρ) (node : Node) :
    (index.add plat ref node).order =
      if ref ∈ index.order then index.order else index.order ++ [ref] := by
  rw [NodeMatchIndex.add]
  split <;> rfl

/-- The fields of a node that are compared with an event. -/
structure Alike (first second : Node) : Prop where
  id : second.id = first.id
  entityId : second.entityId = first.entityId
  pid : second.pid = first.pid
  name : second.name = first.name
  path : second.path = first.path
  host : second.host = first.host

theorem Alike.refl (node : Node) : Alike node node := ⟨rfl, rfl, rfl, rfl, rfl, rfl⟩

theorem Alike.trans {first second third : Node} (h : Alike first second)
    (h' : Alike second third) : Alike first third :=
  ⟨h'.id.trans h.id, h'.entityId.trans h.entityId, h'.pid.trans h.pid, h'.name.trans h.name,
    h'.path.trans h.path, h'.host.trans h.host⟩

theorem Alike.matches_eq {first second : Node} (h : Alike first second) (event : Event) :
    nodeMatchesEventPath plat second event = nodeMatchesEventPath plat first event := by
  rw [nodeMatchesEventPath, nodeMatchesEventPath, nodeEntity, nodeEntity, sameHost, sameHost,
    nodePath, nodePath, nodeName, nodeName, h.id, h.entityId, h.pid, h.name, h.path, h.host]

omit [DecidableEq ρ] in
theorem IndexOf.congr {nodeOf' : ρ → Node} (h : IndexOf plat index nodeOf)
    (hsame : ∀ x ∈ index.order, Alike (nodeOf x) (nodeOf' x)) : IndexOf plat index nodeOf' where
  nodup := h.nodup
  byEntity := h.byEntity.congr fun x hx => by
    rw [nodeEntity, nodeEntity, (hsame x hx).id, (hsame x hx).entityId]
  byPid := h.byPid.congr fun x hx => (hsame x hx).pid
  byPath := h.byPath.congr fun x hx => by rw [nodePath, nodePath, (hsame x hx).path]
  byName := h.byName.congr fun x hx => by rw [nodeName, nodeName, (hsame x hx).name]

theorem textKey_eq_some {text key : Text} : textKey text = some key ↔ text ≠ [] ∧ text = key := by
  rw [textKey]
  split_ifs with h
  · exact iff_of_false nofun fun hk => hk.1 h
  · exact ⟨fun hk => ⟨h, Option.some.inj hk⟩, fun hk => congrArg some hk.2⟩

omit [DecidableEq ρ] in
theorem IndexOf.found_mem (h : IndexOf plat index nodeOf) {event : Event} :
    ∀ x ∈ index.found plat event, x ∈ index.order := by
  intro x hx
  rw [NodeMatchIndex.found, List.mem_append, List.mem_append, List.mem_append] at hx
  rcases hx with ((hx | hx) | hx) | hx
  · split_ifs at hx with hentity
    · cases hx
    · exact ((h.byEntity _ x).1 hx).1
  · rcases hpid : eventPid plat event with - | pid
    · rw [hpid] at hx
      cases hx
    · rw [hpid] at hx
      exact ((h.byPid pid x).1 hx).1
  · obtain ⟨path, -, hx⟩ := List.mem_flatMap.1 hx
    exact ((h.byPath path x).1 hx).1
  · split_ifs at hx with hname
    · cases hx
    · exact ((h.byName _ x).1 hx).1

theorem IndexOf.candidates_mem (h : IndexOf plat index nodeOf) {event : Event} :
    ∀ x ∈ index.candidates plat event, x ∈ index.order := by
  intro x hx
  rw [NodeMatchIndex.candidates, List.mem_insertionSort, List.mem_eraseDups] at hx
  exact h.found_mem x hx

omit [DecidableEq ρ] in
/-- A node that matches an event is found under one of its keys. -/
theorem IndexOf.found_of_matches (h : IndexOf plat index nodeOf) {event : Event} {x : ρ}
    (hx : x ∈ index.order) (hmatch : nodeMatchesEventPath plat (nodeOf x) event = true) :
    x ∈ index.found plat event := by
  rw [NodeMatchIndex.found, List.mem_append, List.mem_append, List.mem_append]
  rw [nodeMatchesEventPath, Bool.or_eq_true, Bool.or_eq_true, Bool.or_eq_true] at hmatch
  rcases hmatch with ((hentity | hpid) | hpath) | hname
  · simp only [Bool.and_eq_true, decide_eq_true_eq] at hentity
    obtain ⟨⟨hnode, hevent⟩, heq⟩ := hentity
    refine .inl (.inl (.inl ?_))
    rw [if_neg hevent]
    exact (h.byEntity _ x).2 ⟨hx, textKey_eq_some.2 ⟨hnode, heq⟩⟩
  · obtain ⟨hpid, -⟩ := Bool.and_eq_true_iff.1 hpid
    obtain ⟨pid, hnode, hevent⟩ := (Option.any_eq_true _ _).1 hpid
    refine .inl (.inl (.inr ?_))
    rw [of_decide_eq_true hevent]
    exact (h.byPid pid x).2 ⟨hx, hnode⟩
  · obtain ⟨path, hnode, hevent⟩ := (Option.any_eq_true _ _).1 hpath
    exact .inl (.inr (List.mem_flatMap.2
      ⟨path, of_decide_eq_true hevent, (h.byPath path x).2 ⟨hx, hnode⟩⟩))
  · simp only [Bool.and_eq_true, decide_eq_true_eq] at hname
    obtain ⟨⟨hnode, hevent⟩, heq⟩ := hname
    refine .inr ?_
    rw [if_neg hevent]
    exact (h.byName _ x).2 ⟨hx, textKey_eq_some.2 ⟨hnode, heq⟩⟩

/-- The candidates that match are the nodes that match. -/
theorem IndexOf.candidates_filter (h : IndexOf plat index nodeOf) (event : Event) :
    (index.candidates plat event).filter (fun x => nodeMatchesEventPath plat (nodeOf x) event) =
      index.order.filter fun x => nodeMatchesEventPath plat (nodeOf x) event :=
  Postings.filter_found h.nodup h.found_mem fun _ hx hmatch => h.found_of_matches hx hmatch

/-- Any nodes added one after the other. -/
theorem foldl_add (plat : Platform) (nodeOf : ρ → Node) (refs : List ρ) :
    IndexOf plat (refs.foldl (fun (index : NodeMatchIndex ρ) ref =>
        index.add plat ref (nodeOf ref)) {}) nodeOf ∧
      (refs.foldl (fun (index : NodeMatchIndex ρ) ref =>
        index.add plat ref (nodeOf ref)) {}).order = refs.eraseDups := by
  induction refs using List.reverseRecOn with
  | nil => exact ⟨indexOf_empty nodeOf, rfl⟩
  | append_singleton refs ref ih =>
    obtain ⟨hindex, horder⟩ := ih
    rw [List.foldl_append, List.foldl_cons, List.foldl_nil]
    refine ⟨hindex.add ref, ?_⟩
    rw [order_add, horder, List.eraseDups_append]
    split_ifs with hmem
    · rw [List.mem_eraseDups] at hmem
      have hnone : [ref].removeAll refs = [] := by simp [List.removeAll, hmem]
      rw [hnone, List.eraseDups_nil, List.append_nil]
    · rw [List.mem_eraseDups] at hmem
      have hone : [ref].removeAll refs = [ref] := by simp [List.removeAll, hmem]
      rw [hone]
      rfl

end

/-! ### Along the loop -/

/-- The node under a key. -/
def nodeAt (nodes : List (Text × Node)) (ref : Text) : Node := (Dict.get nodes ref).getD default

theorem nodeAt_of_get {nodes : List (Text × Node)} {ref : Text} {node : Node}
    (h : Dict.get nodes ref = some node) : nodeAt nodes ref = node := by
  rw [nodeAt, h, Option.getD_some]

/-- The index has the nodes that there are. -/
structure Agrees (plat : Platform) (s : Activity) (index : NodeMatchIndex Text) : Prop where
  indexed : IndexOf plat index (nodeAt s.nodes)
  order : index.order = s.nodes.map Prod.fst

/-- Nodes stay, with the fields that are compared. -/
def Extends (s t : Activity) : Prop :=
  ∀ ref ∈ s.nodes.map Prod.fst, ref ∈ t.nodes.map Prod.fst ∧
    Alike (nodeAt s.nodes ref) (nodeAt t.nodes ref)

theorem Extends.refl (s : Activity) : Extends s s := fun ref hin => ⟨hin, Alike.refl _⟩

theorem Extends.trans {s t u : Activity} (h : Extends s t) (h' : Extends t u) : Extends s u := by
  intro ref hin
  obtain ⟨ht, halike⟩ := h ref hin
  obtain ⟨hu, halike'⟩ := h' ref ht
  exact ⟨hu, halike.trans halike'⟩

theorem mark_alike (node : Node) (event : Event) : Alike node (node.mark event) := by
  rw [Node.mark]
  split_ifs <;> exact ⟨rfl, rfl, rfl, rfl, rfl, rfl⟩

variable {s : Activity}

theorem added_new {event : Event} {node payload : Node}
    (h : s.added plat event node = some payload) : payload.id ∉ s.nodes.map Prod.fst := by
  obtain ⟨-, hcond⟩ := Option.filter_eq_some_iff.1 h
  exact Dict.get_eq_none.1 (Option.isNone_iff_eq_none.1 (Bool.and_eq_true_iff.1 hcond).2)

theorem attach_nodes (s : Activity) (event : Event) (node : Node) :
    (s.attach plat event node).nodes = (s.added plat event node).elim s.nodes
      fun payload => Dict.set payload.id payload s.nodes := by
  rw [Activity.attach, Activity.added]
  rcases activityNodePayload plat event with - | payload
  · rfl
  dsimp only
  by_cases hfull : 25 ≤ (Dict.get s.counts node.id).getD 0
  · have hcond : ¬ (decide ((Dict.get s.counts node.id).getD 0 < 25) &&
        (Dict.get s.nodes payload.id).isNone) = true := by simp [hfull]
    rw [if_pos hfull, Option.filter_some, if_neg hcond]
    rfl
  rw [if_neg hfull]
  by_cases hknown : (Dict.get s.nodes payload.id).isSome = true
  · have hcond : ¬ (decide ((Dict.get s.counts node.id).getD 0 < 25) &&
        (Dict.get s.nodes payload.id).isNone) = true := by
      simp [Option.isSome_iff_ne_none.1 hknown]
    rw [if_pos hknown, Option.filter_some, if_neg hcond]
    rfl
  · have hcond : (decide ((Dict.get s.counts node.id).getD 0 < 25) &&
        (Dict.get s.nodes payload.id).isNone) = true := by
      simp [Option.not_isSome_iff_eq_none.1 hknown, not_le.1 hfull]
    rw [if_neg hknown, Option.filter_some, if_pos hcond]
    rfl

theorem visit_extends {event : Event} {ref : Text} {node : Node}
    (hget : Dict.get s.nodes ref = some node) : Extends s (s.visit plat event ref node) := by
  have hattached : ∀ key ∈ s.nodes.map Prod.fst,
      key ∈ (s.attach plat event node).nodes.map Prod.fst ∧
        Dict.get (s.attach plat event node).nodes key = Dict.get s.nodes key := by
    intro key hkey
    rw [attach_nodes]
    rcases hadded : s.added plat event node with - | payload
    · exact ⟨hkey, rfl⟩
    · have hne : payload.id ≠ key := fun heq => added_new hadded (heq ▸ hkey)
      rw [Option.elim_some, Dict.keys_set (added_new hadded), Dict.get_set, if_neg hne]
      exact ⟨List.mem_append_left _ hkey, rfl⟩
  have href : ref ∈ s.nodes.map Prod.fst := by
    by_contra hnot
    rw [Dict.get_eq_none.2 hnot] at hget
    cases hget
  intro key hkey
  obtain ⟨hin, hsame⟩ := hattached key hkey
  rw [Activity.visit]
  dsimp only
  rw [Dict.keys_set_of_mem (hattached ref href).1]
  refine ⟨hin, ?_⟩
  by_cases heq : ref = key
  · subst heq
    rw [nodeAt_of_get hget, nodeAt, Dict.get_set, if_pos rfl]
    exact mark_alike node event
  · rw [nodeAt, nodeAt, Dict.get_set, if_neg heq, hsame]
    exact Alike.refl _

theorem visitCompared_extends (s : Activity) (event : Event) (ref : Text) :
    Extends s (visitCompared plat event s ref) := by
  rw [visitCompared]
  rcases hget : Dict.get s.nodes ref with - | node
  · exact Extends.refl s
  · dsimp only
    split_ifs
    · exact visit_extends hget
    · exact Extends.refl s

theorem visitIndexed_fst (event : Event) (s : Activity × NodeMatchIndex Text) (ref : Text) :
    (visitIndexed plat event s ref).1 = visitCompared plat event s.1 ref := by
  rw [visitIndexed, visitCompared]
  rcases Dict.get s.1.nodes ref with - | node
  · rfl
  · dsimp only
    split_ifs <;> rfl

variable {index : NodeMatchIndex Text}

theorem Agrees.visit (h : Agrees plat s index) (event : Event) (ref : Text) :
    Agrees plat (visitIndexed plat event (s, index) ref).1
      (visitIndexed plat event (s, index) ref).2 := by
  rw [visitIndexed]
  rcases hget : Dict.get s.nodes ref with - | node
  · exact h
  dsimp only
  split_ifs with hmatch
  · have hext : Extends s (s.visit plat event ref node) := visit_extends hget
    have hkept : IndexOf plat index (nodeAt (s.visit plat event ref node).nodes) :=
      h.indexed.congr fun x hx => (hext x (h.order ▸ hx)).2
    have href : ref ∈ s.nodes.map Prod.fst := by
      by_contra hnot
      rw [Dict.get_eq_none.2 hnot] at hget
      cases hget
    have hnodes : (s.visit plat event ref node).nodes =
        Dict.set ref (node.mark event) (s.attach plat event node).nodes := rfl
    rw [attach_nodes] at hnodes
    rcases hadded : s.added plat event node with - | payload
    · rw [hadded, Option.elim_none] at hnodes
      refine ⟨hkept, ?_⟩
      rw [Option.elim_none, hnodes, Dict.keys_set_of_mem href]
      exact h.order
    · have hnew := added_new hadded
      rw [hadded, Option.elim_some] at hnodes
      have hne : ref ≠ payload.id := fun heq => hnew (heq ▸ href)
      have hat : nodeAt (s.visit plat event ref node).nodes payload.id = payload := by
        rw [hnodes, nodeAt, Dict.get_set, if_neg hne, Dict.get_set, if_pos rfl, Option.getD_some]
      have hmem : ref ∈ (Dict.set payload.id payload s.nodes).map Prod.fst := by
        rw [Dict.keys_set hnew]
        exact List.mem_append_left _ href
      refine ⟨?_, ?_⟩
      · have hadd := hkept.add payload.id
        rw [hat] at hadd
        exact hadd
      · rw [Option.elim_some, order_add, h.order, if_neg hnew, hnodes, Dict.keys_set_of_mem hmem,
          Dict.keys_set hnew]
  · exact h

theorem Agrees.foldl (h : Agrees plat s index) (event : Event) (refs : List Text) :
    (refs.foldl (visitIndexed plat event) (s, index)).1 = refs.foldl (visitCompared plat event) s ∧
      Agrees plat (refs.foldl (visitIndexed plat event) (s, index)).1
        (refs.foldl (visitIndexed plat event) (s, index)).2 := by
  induction refs generalizing s index with
  | nil => exact ⟨rfl, h⟩
  | cons ref refs ih =>
    obtain ⟨hfst, hagrees⟩ := ih (h.visit event ref)
    rw [List.foldl_cons, List.foldl_cons]
    exact ⟨hfst.trans (by rw [visitIndexed_fst]), hagrees⟩

/-- Nodes that do not match the event may be left out. -/
theorem foldl_visitCompared_filter {s t : Activity} (event : Event) {refs : List Text}
    (hrefs : ∀ ref ∈ refs, ref ∈ s.nodes.map Prod.fst) (h : Extends s t) :
    refs.foldl (visitCompared plat event) t =
      (refs.filter fun ref => nodeMatchesEventPath plat (nodeAt s.nodes ref) event).foldl
        (visitCompared plat event) t := by
  induction refs generalizing t with
  | nil => rfl
  | cons ref refs ih =>
    have hrest := fun other hother => hrefs other (.tail _ hother)
    rw [List.foldl_cons, ih hrest (h.trans (visitCompared_extends t event ref)), List.filter_cons]
    split_ifs with hmatch
    · rfl
    · obtain ⟨hin, halike⟩ := h ref (hrefs ref (.head _))
      have hskip : visitCompared plat event t ref = t := by
        rw [visitCompared]
        rcases hget : Dict.get t.nodes ref with - | node
        · rfl
        · rw [nodeAt_of_get hget] at halike
          exact if_neg (halike.matches_eq event ▸ hmatch)
      rw [hskip]

/-- One event, with the index and without. -/
theorem Agrees.event (h : Agrees plat s index) (event : Event) :
    (eventIndexed plat (s, index) event).1 = eventCompared plat s event ∧
      Agrees plat (eventIndexed plat (s, index) event).1
        (eventIndexed plat (s, index) event).2 := by
  obtain ⟨hfst, hagrees⟩ := h.foldl event (index.candidates plat event)
  refine ⟨?_, hagrees⟩
  have hin : ∀ ref ∈ index.candidates plat event, ref ∈ s.nodes.map Prod.fst := by
    intro ref href
    exact h.order ▸ h.indexed.candidates_mem ref href
  calc (eventIndexed plat (s, index) event).1
      = (index.candidates plat event).foldl (visitCompared plat event) s := hfst
    _ = ((index.candidates plat event).filter fun ref =>
          nodeMatchesEventPath plat (nodeAt s.nodes ref) event).foldl
            (visitCompared plat event) s := foldl_visitCompared_filter event hin (Extends.refl s)
    _ = ((s.nodes.map Prod.fst).filter fun ref =>
          nodeMatchesEventPath plat (nodeAt s.nodes ref) event).foldl
            (visitCompared plat event) s := by rw [h.indexed.candidates_filter, h.order]
    _ = eventCompared plat s event :=
        (foldl_visitCompared_filter event (fun _ href => href) (Extends.refl s)).symm

theorem Agrees.events (h : Agrees plat s index) (events : List Event) :
    (events.foldl (eventIndexed plat) (s, index)).1 = events.foldl (eventCompared plat) s := by
  induction events generalizing s index with
  | nil => rfl
  | cons event events ih =>
    obtain ⟨hfst, hagrees⟩ := h.event event
    rw [List.foldl_cons, List.foldl_cons, ← hfst]
    exact ih hagrees

theorem keys_activityStart (s : Started) :
    (activityStart plat s).nodes.map Prod.fst = s.nodes.map Prod.fst := by
  rw [activityStart, linkedNodes, List.map_map, List.map_map]
  rfl

theorem agrees_indexAll (hnodup : (s.nodes.map Prod.fst).Nodup) :
    Agrees plat s (indexAll plat s.nodes) := by
  have hall : indexAll plat s.nodes = (s.nodes.map Prod.fst).foldl
      (fun (index : NodeMatchIndex Text) ref => index.add plat ref (nodeAt s.nodes ref)) {} := by
    rw [indexAll, List.foldl_map]
    refine List.foldl_ext _ _ _ fun index entry hentry => ?_
    rw [nodeAt_of_get (Dict.get_of_mem hnodup hentry)]
  obtain ⟨hindex, horder⟩ := foldl_add plat (nodeAt s.nodes) (s.nodes.map Prod.fst)
  rw [hall]
  exact ⟨hindex, horder.trans (Postings.eraseDups_of_nodup hnodup)⟩

theorem buildProcessGraph_eq (plat : Platform) (events : List Event) :
    buildProcessGraph plat events = buildByComparing plat events := by
  rw [buildProcessGraph, buildByComparing]
  split_ifs with hmade
  · have hnodup : ((activityStart plat (startedProcesses plat events)).nodes.map
        Prod.fst).Nodup := by
      rw [keys_activityStart]
      exact (startedProcesses_sound plat events).nodup
    rw [(agrees_indexAll hnodup).events]
  · rfl

/-- **The index changes nothing**: of its candidates for an event, those that match are the
nodes that were added and match, each once and in the order in which they were added; and
the graph that is built with it is the graph for which every event is compared with every
node. -/
theorem index_changes_nothing (plat : Platform) :
    (∀ (ρ : Type) [DecidableEq ρ] (nodeOf : ρ → Node) (refs : List ρ) (event : Event),
      ((refs.foldl (fun (index : NodeMatchIndex ρ) ref =>
            index.add plat ref (nodeOf ref)) {}).candidates plat event).filter
          (fun ref => nodeMatchesEventPath plat (nodeOf ref) event) =
        refs.eraseDups.filter fun ref => nodeMatchesEventPath plat (nodeOf ref) event) ∧
    ∀ events, buildProcessGraph plat events = buildByComparing plat events := by
  refine ⟨fun ρ _ nodeOf refs event => ?_, buildProcessGraph_eq plat⟩
  obtain ⟨hindex, horder⟩ := foldl_add plat nodeOf refs
  rw [hindex.candidates_filter, horder]

end Kairon.Graph

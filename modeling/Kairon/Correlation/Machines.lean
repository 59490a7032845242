/-
Kairon/Correlation/Machines.lean

Whether a correlation crosses machines.

Most rules of `_generate_findings` compare hosts in their loops and are local:
they relate events of the machine of their trigger, and see no others
(`Kairon.Local`).  Three kinds do not:

  * a USB finding is rated by the high-risk processes of all machines;
  * an execution cleanup has a reason that looks at the Defender events of all
    machines;
  * a node or an edge of the process graph takes its process events by id, and a
    PowerShell node without such an event takes DNS and SRUM events of any
    machine.

`neverCrosses_iff` says when none of this shows: when the findings relate events
of one machine, and events of other machines leave those of a machine as they
are.
-/
import Kairon.Lib.Local
import Kairon.Correlation.Findings

namespace Kairon.Findings

open Local
open Search (Text)
open Identity (normalizeHostAlias)

variable (str : Strings)

/-! ### Machines -/

/-- The machine of an event: its host, normalized. -/
def machine (e : Event) : Option Text := normalizeHostAlias str.lower (eventHost e)

/-- A finding is on a machine if its events are, and it has events. -/
def onMachine (H : Option Text) (f : Finding) : Bool :=
  f.events ≠ [] && f.events.all fun e => machine str e = H

/-- The events of a finding, all on one machine, and not none. -/
def Finding.On (f : Finding) (H : Option Text) : Prop :=
  f.events ≠ [] ∧ ∀ e ∈ f.events, machine str e = H

variable {str}

theorem onMachine_iff {H : Option Text} {f : Finding} : onMachine str H f = true ↔ f.On str H := by
  simp [onMachine, Finding.On]

theorem Finding.On.onMachine_eq {f : Finding} {M : Option Text} (h : f.On str M)
    (H : Option Text) : onMachine str H f = decide (M = H) := by
  obtain ⟨hne, hall⟩ := h
  obtain ⟨e, he⟩ := List.exists_mem_of_ne_nil _ hne
  by_cases hMH : M = H
  · rw [decide_eq_true hMH, onMachine_iff]
    exact ⟨hne, fun e he => (hall e he).trans hMH⟩
  · rw [decide_eq_false hMH, Bool.eq_false_iff]
    intro hon
    exact hMH ((hall e he).symm.trans ((onMachine_iff.1 hon).2 e he))

/-! ### The checks of hosts -/

theorem eventHost_of_recordHost {e : Event} (h : e.recordHost ≠ []) : eventHost e = e.recordHost := by
  unfold eventHost Event.recordHost
  unfold Event.recordHost at h
  rcases hhost : e.host with - | value | -
  · rfl
  · rw [hhost] at h
    exact absurd rfl h
  · rfl

theorem sameHostValue_eq {left right : Text} (h : sameHostValue str left right = true) :
    normalizeHostAlias str.lower left = normalizeHostAlias str.lower right := by
  simp only [sameHostValue, Bool.and_eq_true, decide_eq_true_eq] at h
  exact h.2

theorem machine_of_sameHost {left right : Event} (h : sameHost str left right = true) :
    machine str right = machine str left := by
  have hvalue := sameHostValue_eq h
  simp only [sameHost, sameHostValue, Bool.and_eq_true, decide_eq_true_eq, ne_eq] at h
  rw [machine, machine, eventHost_of_recordHost h.1.1, eventHost_of_recordHost h.1.2, hvalue]

/-- Events that name their hosts are on the same machine only if the hosts are the same. -/
theorem machine_of_sameMachine {left right : Event} (hleft : eventHost left ≠ [])
    (hright : eventHost right ≠ []) (h : sameMachine str left right = true) :
    machine str right = machine str left := by
  rw [sameMachine, if_pos ⟨hleft, hright⟩] at h
  exact (sameHostValue_eq h).symm

/-! ### Local rules -/

theorem processes_ofClass (H : Option Text) (events : List Event) :
    processes (ofClass (machine str) H events) = ofClass (machine str) H (processes events) :=
  (ofClass_filter H _ events).symm

theorem inventoryExec_ofClass (H : Option Text) (events : List Event) :
    inventoryExec (ofClass (machine str) H events) = ofClass (machine str) H (inventoryExec events) :=
  (ofClass_filter H _ events).symm

theorem defender_ofClass (H : Option Text) (events : List Event) :
    defender (ofClass (machine str) H events) = ofClass (machine str) H (defender events) :=
  (ofClass_filter H _ events).symm

/-- A finding about an event and others of its machine. -/
theorem on_baseFinding {findingType : FindingType} {e : Event} {rest : List Event}
    {reasons : List Text} {confidence : Text} {riskScore : ℤ}
    (h : ∀ e' ∈ rest, machine str e' = machine str e) :
    (baseFinding findingType (e :: rest) reasons confidence riskScore).On str (machine str e) :=
  ⟨List.cons_ne_nil _ _, List.forall_mem_cons.2 ⟨rfl, h⟩⟩

section Download

variable (events : List Event) (download : Event)

variable {c : Event × Bool × Bool}

theorem mem_downloadCandidates (h : c ∈ downloadCandidates str events download) :
    machine str c.1 = machine str download := by
  obtain ⟨process, -, hprocess⟩ := List.mem_filterMap.1 h
  simp only [Option.ite_none_right_eq_some, Bool.and_eq_true, Option.some.injEq] at hprocess
  obtain ⟨⟨⟨-, hhost⟩, -⟩, rfl⟩ := hprocess
  exact machine_of_sameHost hhost

theorem mem_matchedDefender (h : c ∈ matchedDefender str events download) :
    machine str c.1 = machine str download := by
  obtain ⟨detection, -, hdetection⟩ := List.mem_filterMap.1 h
  simp only [Option.ite_none_right_eq_some, Bool.and_eq_true, Option.some.injEq] at hdetection
  obtain ⟨⟨⟨-, hhost⟩, -⟩, rfl⟩ := hdetection
  exact machine_of_sameHost hhost

theorem downloadCandidates_ofClass :
    downloadCandidates str (ofClass (machine str) (machine str download) events) download
      = downloadCandidates str events download := by
  unfold downloadCandidates
  rw [processes_ofClass]
  refine filterMap_ofClass fun process _ c hc => ?_
  simp only [Option.ite_none_right_eq_some, Bool.and_eq_true] at hc
  exact machine_of_sameHost hc.1.1.2

theorem matchedDefender_ofClass :
    matchedDefender str (ofClass (machine str) (machine str download) events) download
      = matchedDefender str events download := by
  unfold matchedDefender
  rw [defender_ofClass]
  refine filterMap_ofClass fun detection _ c hc => ?_
  simp only [Option.ite_none_right_eq_some, Bool.and_eq_true] at hc
  exact machine_of_sameHost hc.1.1.2

theorem downloadRule_ofClass :
    downloadRule str (ofClass (machine str) (machine str download) events) download
      = downloadRule str events download := by
  unfold downloadRule
  rw [downloadCandidates_ofClass]
  refine List.filterMap_congr fun candidate hcandidate => ?_
  have hmachine := mem_downloadCandidates events download (List.mem_of_mem_take hcandidate)
  rw [← hmachine, matchedDefender_ofClass]

theorem on_downloadRule {f : Finding} (h : f ∈ downloadRule str events download) :
    f.On str (machine str download) := by
  obtain ⟨candidate, hcandidate, hf⟩ := List.mem_filterMap.1 h
  obtain ⟨detection, hdetection, rfl⟩ := Option.map_eq_some_iff.1 hf
  have hprocess := mem_downloadCandidates events download (List.mem_of_mem_take hcandidate)
  have hdefender := mem_matchedDefender events candidate.1 (List.mem_of_mem_head? hdetection)
  refine on_baseFinding (List.forall_mem_cons.2 ⟨hprocess, fun e he => ?_⟩)
  rw [List.mem_singleton.1 he]
  exact hdefender.trans hprocess

end Download

section Persistence

variable (events : List Event) (persistence : Event)

theorem mem_persistenceMatches {e : Event} (h : e ∈ persistenceMatches str events persistence) :
    machine str e = machine str persistence := by
  have hcond := (List.mem_filter.1 h).2
  simp only [Bool.and_eq_true] at hcond
  exact machine_of_sameHost hcond.1.2

theorem persistenceMatches_ofClass :
    persistenceMatches str (ofClass (machine str) (machine str persistence) events) persistence
      = persistenceMatches str events persistence := by
  unfold persistenceMatches
  rw [processes_ofClass]
  refine filter_ofClass fun process _ hcond => ?_
  simp only [Bool.and_eq_true] at hcond
  exact machine_of_sameHost hcond.1.2

variable {events persistence}

theorem mem_supportingInventory (hnamed : ∀ e ∈ events, eventHost e ≠ [])
    (hpersistence : persistence ∈ events) {e : Event}
    (h : e ∈ supportingInventory str events persistence) :
    machine str e = machine str persistence := by
  obtain ⟨hmem, hcond⟩ := List.mem_filter.1 h
  simp only [Bool.and_eq_true] at hcond
  exact machine_of_sameMachine (hnamed _ hpersistence) (hnamed _ (List.mem_of_mem_filter hmem))
    hcond.1

theorem supportingInventory_ofClass (hnamed : ∀ e ∈ events, eventHost e ≠ [])
    (hpersistence : persistence ∈ events) :
    supportingInventory str (ofClass (machine str) (machine str persistence) events) persistence
      = supportingInventory str events persistence := by
  unfold supportingInventory
  rw [inventoryExec_ofClass]
  refine filter_ofClass fun e he hcond => ?_
  simp only [Bool.and_eq_true] at hcond
  exact machine_of_sameMachine (hnamed _ hpersistence) (hnamed _ (List.mem_of_mem_filter he))
    hcond.1

theorem persistenceRule_ofClass (hnamed : ∀ e ∈ events, eventHost e ≠ [])
    (hpersistence : persistence ∈ events) :
    persistenceRule str (ofClass (machine str) (machine str persistence) events) persistence
      = persistenceRule str events persistence := by
  rw [persistenceRule, persistenceMatches_ofClass, supportingInventory_ofClass hnamed hpersistence]
  rfl

theorem on_persistenceRule (hnamed : ∀ e ∈ events, eventHost e ≠ [])
    (hpersistence : persistence ∈ events) {f : Finding}
    (h : persistenceRule str events persistence = some f) : f.On str (machine str persistence) := by
  unfold persistenceRule persistenceFinding at h
  simp only [Option.ite_none_left_eq_some, Option.some.injEq] at h
  rw [← h.2]
  refine on_baseFinding fun e he => ?_
  rcases List.mem_append.1 he with he | he
  · exact mem_persistenceMatches events persistence (List.mem_of_mem_take he)
  · exact mem_supportingInventory hnamed hpersistence (List.mem_of_mem_take he)

end Persistence

section Single

variable {e : Event} {f : Finding}

theorem on_single {findingType : FindingType} {reasons : List Text} {confidence : Text}
    {riskScore : ℤ} (h : baseFinding findingType [e] reasons confidence riskScore = f) :
    f.On str (machine str e) := by
  rw [← h]
  exact on_baseFinding fun e' he' => absurd he' List.not_mem_nil

theorem on_userActivityRule (h : userActivityRule str e = some f) : f.On str (machine str e) := by
  unfold userActivityRule at h
  dsimp only at h
  split_ifs at h <;> exact on_single (Option.some.inj h)

theorem on_ntfsRule (h : ntfsRule str e = some f) : f.On str (machine str e) := by
  unfold ntfsRule at h
  dsimp only at h
  split_ifs at h <;> exact on_single (Option.some.inj h)

theorem on_windowsUiRule (h : windowsUiRule str e = some f) : f.On str (machine str e) := by
  unfold windowsUiRule at h
  dsimp only at h
  split_ifs at h <;> exact on_single (Option.some.inj h)

end Single

section Cloud

variable (events : List Event) (cloud : Event)

theorem nearbySuspicious_ofClass :
    nearbySuspicious str (ofClass (machine str) (machine str cloud) events) cloud
      = nearbySuspicious str events cloud := by
  unfold nearbySuspicious
  rw [processes_ofClass, defender_ofClass, ← ofClass_append]
  refine filter_ofClass fun e _ hcond => ?_
  simp only [Bool.and_eq_true] at hcond
  exact machine_of_sameHost hcond.1.2

theorem cloudRule_ofClass : cloudRule str (ofClass (machine str) (machine str cloud) events) cloud
      = cloudRule str events cloud := by
  rw [cloudRule, nearbySuspicious_ofClass, cloudRule]

theorem on_cloudRule {f : Finding} (h : cloudRule str events cloud = some f) :
    f.On str (machine str cloud) := by
  unfold cloudRule cloudFinding at h
  simp only [Option.ite_none_left_eq_some, Option.some.injEq] at h
  rw [← h.2]
  refine on_baseFinding fun e he => ?_
  have hcond := (List.mem_filter.1 (List.mem_of_mem_take he)).2
  simp only [Bool.and_eq_true] at hcond
  exact machine_of_sameHost hcond.1.2

end Cloud

/-! ### Rules that are local but for one question to all the events -/

section Usb

variable (events : List Event) (usb : Event)

theorem usbNearby_ofClass : usbNearby str (ofClass (machine str) (machine str usb) events) usb
      = usbNearby str events usb := by
  unfold usbNearby
  refine filterMap_ofClass fun e _ c hc => ?_
  simp only [Option.ite_none_right_eq_some, Bool.and_eq_true] at hc
  exact machine_of_sameHost hc.1.2

theorem mem_usbNearby {c : Event × Text} (h : c ∈ usbNearby str events usb) :
    machine str c.1 = machine str usb := by
  obtain ⟨e, -, he⟩ := List.mem_filterMap.1 h
  simp only [Option.ite_none_right_eq_some, Bool.and_eq_true] at he
  obtain ⟨⟨-, hhost⟩, hreason⟩ := he
  obtain ⟨reason, -, rfl⟩ := Option.map_eq_some_iff.1 hreason
  exact machine_of_sameHost hhost

theorem on_usbFinding (busy : Bool) {f : Finding}
    (h : usbFinding busy usb (usbNearby str events usb) = some f) :
    f.On str (machine str usb) := by
  unfold usbFinding at h
  simp only [Option.ite_none_left_eq_some, Option.some.injEq] at h
  rw [← h.2]
  refine on_baseFinding fun e he => ?_
  obtain ⟨c, hc, rfl⟩ := List.mem_map.1 (List.mem_of_mem_take he)
  exact mem_usbNearby events usb hc

theorem usbFinding_isSome (busy : Bool) (nearby : List (Event × Text)) :
    (usbFinding busy usb nearby).isSome = decide (nearby ≠ []) := by
  by_cases h : nearby = []
  · simp [usbFinding, h]
  · simp [usbFinding, h]

/-- A finding says whether any process is of high risk, unless an event nearby is. -/
theorem usbFinding_eq_iff (busy busy' : Bool) (nearby : List (Event × Text)) :
    usbFinding busy usb nearby = usbFinding busy' usb nearby ↔
      (nearby ≠ [] → highRisk (nearby.map Prod.fst) = false → busy = busy') := by
  by_cases h : nearby = []
  · simp [usbFinding, h]
  · rw [usbFinding, usbFinding, if_neg h, if_neg h]
    rcases hhigh : highRisk (nearby.map Prod.fst) with - | -
    · rcases busy with - | - <;> rcases busy' with - | - <;> simp [h, baseFinding]
    · simp

end Usb

section Cleanup

variable (events : List Event) (exec : Event)

theorem deletionMatches_ofClass :
    deletionMatches str (ofClass (machine str) (machine str exec) events) exec
      = deletionMatches str events exec := by
  unfold deletionMatches
  rw [← ofClass_filter]
  refine filterMap_ofClass fun deletion _ c hc => ?_
  simp only [Option.ite_none_right_eq_some, Bool.and_eq_true] at hc
  exact machine_of_sameHost hc.1.1.2

theorem mem_deletionMatches {c : Event × Bool} (h : c ∈ deletionMatches str events exec) :
    machine str c.1 = machine str exec := by
  obtain ⟨deletion, -, hdeletion⟩ := List.mem_filterMap.1 h
  simp only [Option.ite_none_right_eq_some, Bool.and_eq_true, Option.some.injEq] at hdeletion
  obtain ⟨⟨⟨-, hhost⟩, -⟩, rfl⟩ := hdeletion
  exact machine_of_sameHost hhost

theorem on_cleanupFinding (detected : Bool) {f : Finding}
    (h : cleanupFinding str detected exec (deletionMatches str events exec) = some f) :
    f.On str (machine str exec) := by
  obtain ⟨first, hfirst, rfl⟩ := Option.map_eq_some_iff.1 h
  refine on_baseFinding fun e he => ?_
  rw [List.mem_singleton.1 he]
  exact mem_deletionMatches events exec (List.mem_of_mem_head? hfirst)

theorem cleanupFinding_isSome (detected : Bool) (deletions : List (Event × Bool)) :
    (cleanupFinding str detected exec deletions).isSome = decide (deletions ≠ []) := by
  cases deletions with
  | nil => rfl
  | cons first rest => rfl

/-- The reasons of a cleanup tell whether its file was detected. -/
theorem cleanupReasons_ne : ∀ executable : Bool, distinct (["Executed file later deleted".toList] ++
        (if true then ["Suspicious file deleted after detection".toList] else []) ++
        (if executable then ["Executed file later deleted".toList] else []))
      ≠ distinct (["Executed file later deleted".toList] ++
        (if false then ["Suspicious file deleted after detection".toList] else []) ++
        (if executable then ["Executed file later deleted".toList] else [])) := by
  decide +kernel

/-- A finding says whether any Defender event has the path. -/
theorem cleanupFinding_eq_iff (detected detected' : Bool) (deletions : List (Event × Bool)) :
    cleanupFinding str detected exec deletions = cleanupFinding str detected' exec deletions ↔
      (deletions ≠ [] → detected = detected') := by
  cases deletions with
  | nil => exact ⟨fun _ h => absurd rfl h, fun _ => rfl⟩
  | cons first rest =>
    refine ⟨fun heq _ => ?_, fun h => by rw [h (List.cons_ne_nil _ _)]⟩
    have hreasons := congrArg Finding.reasons (Option.some.inj heq)
    have hne := cleanupReasons_ne (decide (extension str exec.path ∈ executableExtensions))
    rcases detected with - | -
    · rcases detected' with - | -
      · rfl
      · exact absurd hreasons.symm hne
    · rcases detected' with - | -
      · exact absurd hreasons hne
      · rfl

end Cleanup

/-! ### Rules about the process graph -/

variable (str) in
/-- One list of events is another with events of other machines added. -/
structure Extends (H : Option Text) (events events' : List Event) : Prop where
  sublist : events.Sublist events'
  same : ofClass (machine str) H events = ofClass (machine str) H events'

namespace Extends

variable {H : Option Text} {events events' : List Event} (h : Extends str H events events')

include h

theorem filter (p : Event → Bool) : Extends str H (events.filter p) (events'.filter p) :=
  ⟨h.sublist.filter p, by rw [ofClass_filter, ofClass_filter, h.same]⟩

theorem eventsOf (ids : List Text) : Extends str H (eventsOf events ids) (eventsOf events' ids) :=
  (h.filter _).filter _

theorem take_eq (n : ℕ) (hfront : ∀ e ∈ events'.take n, machine str e = H) :
    events.take n = events'.take n :=
  take_eq_take h.sublist h.same n hfront

/-- If the longer list is of the machine, nothing was added. -/
theorem eq_of_all (hall : ∀ e ∈ events', machine str e = H) : events = events' := by
  have htake := h.take_eq events'.length fun e he => hall e (List.mem_of_mem_take he)
  rwa [List.take_of_length_le h.sublist.length_le, List.take_length] at htake

end Extends

/-- The process events of the nodes of an edge. -/
def edgeEvents (graph : Graph) (events : List Event) (edge : Edge) : List Event :=
  match graph.node edge.source, graph.node edge.target with
  | some parent, some child => eventsOf events (parent.sourceEvents ++ child.sourceEvents)
  | _, _ => []

section Edges

variable {graph : Graph} {events events' : List Event} {edge : Edge}
  {finding : List Event → Edge → Node → Node → Option Finding}

/-- What holds of a rule about edges that reads events as process events of the two nodes. -/
structure ReadsEdge (finding : List Event → Edge → Node → Node → Option Finding) : Prop where
  events_eq : ∀ events edge parent child f, finding events edge parent child = some f →
    f.events = eventsOf events (parent.sourceEvents ++ child.sourceEvents)
  congr : ∀ events events' edge parent child,
    eventsOf events (parent.sourceEvents ++ child.sourceEvents)
      = eventsOf events' (parent.sourceEvents ++ child.sourceEvents) →
    finding events edge parent child = finding events' edge parent child

theorem readsEdge_officeFinding : ReadsEdge (officeFinding str) where
  events_eq events edge parent child f h := by
    simp only [officeFinding, Option.ite_none_right_eq_some, Option.some.injEq] at h
    rw [← h.2]
    rfl
  congr events events' edge parent child h := by
    unfold officeFinding
    rw [h]

theorem readsEdge_chainFinding : ReadsEdge (chainFinding str) where
  events_eq events edge parent child f h := by
    simp only [chainFinding, Option.ite_none_left_eq_some, Option.some.injEq] at h
    rw [← h.2]
    rfl
  congr events events' edge parent child h := by
    unfold chainFinding
    rw [h]

theorem exists_nodes_of_edgeRule {f : Finding} (h : edgeRule finding graph events edge = some f) :
    ∃ parent child, graph.node edge.source = some parent ∧ graph.node edge.target = some child ∧
      finding events edge parent child = some f := by
  unfold edgeRule at h
  rcases hparent : graph.node edge.source with - | parent
  · simp [hparent] at h
  · rcases hchild : graph.node edge.target with - | child
    · simp [hparent, hchild] at h
    · rw [hparent, hchild] at h
      exact ⟨parent, child, rfl, rfl, h⟩

theorem ReadsEdge.edgeRule_events (hfinding : ReadsEdge finding) {f : Finding}
    (h : edgeRule finding graph events edge = some f) : f.events = edgeEvents graph events edge := by
  obtain ⟨parent, child, hparent, hchild, hf⟩ := exists_nodes_of_edgeRule h
  rw [edgeEvents, hparent, hchild]
  exact hfinding.events_eq events edge parent child f hf

theorem ReadsEdge.edgeRule_congr (hfinding : ReadsEdge finding)
    (h : edgeEvents graph events edge = edgeEvents graph events' edge) :
    edgeRule finding graph events edge = edgeRule finding graph events' edge := by
  unfold edgeRule
  unfold edgeEvents at h
  rcases hparent : graph.node edge.source with - | parent
  · rfl
  · rcases hchild : graph.node edge.target with - | child
    · rfl
    · rw [hparent, hchild] at h
      exact hfinding.congr events events' edge parent child h

theorem Extends.edgeEvents {H : Option Text} (h : Extends str H events events') :
    Extends str H (edgeEvents graph events edge) (edgeEvents graph events' edge) := by
  unfold Findings.edgeEvents
  rcases graph.node edge.source with - | parent
  · exact ⟨List.Sublist.refl _, rfl⟩
  · rcases graph.node edge.target with - | child
    · exact ⟨List.Sublist.refl _, rfl⟩
    · exact h.eventsOf _

end Edges

section Nodes

variable (str) in
/-- The events that a finding about a node relates: the process events of the node, and the first
related DNS and SRUM events. -/
def nodeRelated (events : List Event) (node : Node) : List Event :=
  let own := eventsOf events node.sourceEvents
  own ++ (relatedDns str events (nodeHost own) node).take 2 ++
    (relatedSrum str events (nodeHost own) node).take 2

variable {events events' : List Event} {node : Node}

theorem powershellRule_events {f : Finding} (h : powershellRule str events node = some f) :
    f.events = nodeRelated str events node := by
  simp only [powershellRule, powershellFinding, Option.ite_none_left_eq_some,
    Option.some.injEq] at h
  rw [← h.2]
  rfl

/-- A finding about a node sees the first two DNS and SRUM events, and no further. -/
theorem powershellFinding_congr (own : List Event) {dns dns' srum srum' : List Event}
    (hdns : dns.take 2 = dns'.take 2) (hsrum : srum.take 2 = srum'.take 2) :
    powershellFinding node own dns srum = powershellFinding node own dns' srum' := by
  have hnil : ∀ {l l' : List Event}, l.take 2 = l'.take 2 → (l = [] ↔ l' = []) := by
    intro l l' htake
    have htwo : ∀ l : List Event, l.take 2 = [] ↔ l = [] := by
      intro l
      cases l with
      | nil => simp
      | cons a l => simp
    rw [← htwo l, ← htwo l', htake]
  simp only [powershellFinding, hnil hdns, hnil hsrum, hdns, hsrum, ne_eq]

theorem machine_of_ofNodeHost {own : List Event} {e : Event} (hne : own ≠ [])
    (hnamed : ∀ e ∈ own, eventHost e ≠ []) {H : Option Text} (hown : ∀ e ∈ own, machine str e = H)
    (h : ofNodeHost str (nodeHost own) e = true) : machine str e = H := by
  cases own with
  | nil => exact absurd rfl hne
  | cons first rest =>
    have hfirst := hnamed first (.head _)
    simp only [ofNodeHost, nodeHost, List.head?_cons, Option.map_some, Option.getD_some,
      Bool.or_eq_true] at h
    rcases h with h | h
    · exact absurd (of_decide_eq_true h) hfirst
    · exact (sameHostValue_eq h).symm.trans (hown first (.head _))

/-- Where what a node relates in the longer list is of the machine, its finding stays as it is. -/
theorem powershellRule_congr {H : Option Text} (h : Extends str H events events')
    (hrelated : ∀ e ∈ nodeRelated str events' node, machine str e = H) :
    powershellRule str events node = powershellRule str events' node := by
  have hown : eventsOf events node.sourceEvents = eventsOf events' node.sourceEvents :=
    (h.eventsOf _).eq_of_all fun e he =>
      hrelated e (List.mem_append_left _ (List.mem_append_left _ he))
  have hdns : Extends str H
      (relatedDns str events (nodeHost (eventsOf events' node.sourceEvents)) node)
      (relatedDns str events' (nodeHost (eventsOf events' node.sourceEvents)) node) :=
    (h.filter _).filter _
  have hsrum : Extends str H
      (relatedSrum str events (nodeHost (eventsOf events' node.sourceEvents)) node)
      (relatedSrum str events' (nodeHost (eventsOf events' node.sourceEvents)) node) :=
    (h.filter _).filter _
  unfold powershellRule
  rw [hown]
  refine powershellFinding_congr _ (hdns.take_eq 2 fun e he => ?_) (hsrum.take_eq 2 fun e he => ?_)
  · exact hrelated e (List.mem_append_left _ (List.mem_append_right _ he))
  · exact hrelated e (List.mem_append_right _ he)

end Nodes

/-- Findings about the graph: they stay if and only if nothing of another machine comes among the
events that a finding of the machine relates. -/
theorem graphFindings_eq_iff {τ : Type} {rule : List Event → τ → Option Finding}
    {related : List Event → τ → List Event} {H : Option Text} {events events' : List Event}
    (hevents : ∀ t f, rule events' t = some f → f.events = related events' t)
    (hcongr : ∀ t, (∀ e ∈ related events' t, machine str e = H) → rule events t = rule events' t)
    (triggers : List τ) :
    (triggers.filterMap (rule events)).filter (onMachine str H)
        = (triggers.filterMap (rule events')).filter (onMachine str H) ↔
      ∀ t ∈ triggers, (rule events t).any (onMachine str H) = true →
        ∀ e ∈ related events' t, machine str e = H := by
  have hsame : ∀ t f, rule events' t = some f → f.On str H → rule events t = rule events' t := by
    intro t f hf hon
    refine hcongr t fun e he => hon.2 e ?_
    rw [hevents t f hf]
    exact he
  have hle : ∀ t ∈ triggers, (rule events' t).filter (onMachine str H)
      = (rule events t).filter (onMachine str H) ∨
        (rule events' t).filter (onMachine str H) = none := by
    intro t _
    rcases hf : (rule events' t).filter (onMachine str H) with - | f
    · exact .inr rfl
    · obtain ⟨hrule, hon⟩ := Option.filter_eq_some_iff.1 hf
      rw [hsame t f hrule (onMachine_iff.1 hon), hf]
      exact .inl rfl
  rw [List.filter_filterMap, List.filter_filterMap, eq_comm]
  refine (filterMap_eq_iff_of_le hle).trans ⟨fun heq t ht hany => ?_, fun h t ht => ?_⟩
  · obtain ⟨f, hrule, hon⟩ := (Option.any_eq_true _ _).1 hany
    have hkept : (rule events' t).filter (onMachine str H) = some f :=
      (heq t ht).trans (Option.filter_eq_some_iff.2 ⟨hrule, hon⟩)
    obtain ⟨hrule', hon'⟩ := Option.filter_eq_some_iff.1 hkept
    rw [← hevents t f hrule']
    exact (onMachine_iff.1 hon').2
  · rcases hf : (rule events t).filter (onMachine str H) with - | f
    · rcases hle t ht with heq | hnone
      · rw [heq, hf]
      · exact hnone
    · obtain ⟨hrule, hon⟩ := Option.filter_eq_some_iff.1 hf
      rw [← hcongr t (h t ht ((Option.any_eq_true _ _).2 ⟨f, hrule, hon⟩)), hf]

/-! ### The findings of a machine -/

section Groups

variable (str) (graph : Graph) (H : Option Text) (events : List Event)

/-- The findings on a machine, one list for each rule. -/
def machineGroups : List (List Finding) :=
  [ ((events.filter downloadEvent).flatMap (downloadRule str events)).filter (onMachine str H),
    (graph.edges.filterMap (officeRule str graph events)).filter (onMachine str H),
    ((graph.nodes.filter (suspiciousPowershell str)).filterMap
      (powershellRule str events)).filter (onMachine str H),
    ((events.filter persistenceEvent).filterMap (persistenceRule str events)).filter
      (onMachine str H),
    ((events.filter userActivityEvent).filterMap (userActivityRule str)).filter (onMachine str H),
    ((events.filter (ntfsEvent str)).filterMap (ntfsRule str)).filter (onMachine str H),
    ((events.filter (windowsUiEvent str)).filterMap (windowsUiRule str)).filter (onMachine str H),
    ((events.filter cloudUpload).filterMap (cloudRule str events)).filter (onMachine str H),
    ((events.filter usbEvent).filterMap (usbRule str events)).filter (onMachine str H),
    ((executionSources events).filterMap (cleanupRule str events)).filter (onMachine str H),
    (graph.edges.filterMap (chainRule str graph events)).filter (onMachine str H) ]

theorem filter_generateFindings : (generateFindings str graph events).filter (onMachine str H)
      = (machineGroups str graph H events).flatten := by
  simp only [generateFindings, machineGroups, List.filter_append, List.flatten_cons,
    List.flatten_nil, List.append_nil, List.append_assoc]

end Groups

section Comparison

variable {graph : Graph} {H : Option Text} {events events' : List Event}

/-- A local rule makes the same findings of the machine. -/
theorem localFindings_eq (h : Extends str H events events') (trigger : List Event → List Event)
    (rule : List Event → Event → Option Finding)
    (htrigger : ∀ l, ofClass (machine str) H (trigger l) = trigger (ofClass (machine str) H l))
    (hlocal : ∀ l ∈ [events, events'], ∀ e ∈ trigger l,
      rule (ofClass (machine str) (machine str e) l) e = rule l e)
    (hon : ∀ l ∈ [events, events'], ∀ e ∈ trigger l, ∀ f, rule l e = some f →
      f.On str (machine str e)) :
    ((trigger events).filterMap (rule events)).filter (onMachine str H)
      = ((trigger events').filterMap (rule events')).filter (onMachine str H) := by
  have hside : ∀ l ∈ [events, events'], ((trigger l).filterMap (rule l)).filter (onMachine str H)
        = (trigger (ofClass (machine str) H l)).filterMap (rule (ofClass (machine str) H l)) :=
    fun l hl => filter_filterMap_local trigger rule H (htrigger l) (hlocal l hl)
      fun e he f hf => (hon l hl e he f hf).onMachine_eq H
  rw [hside events (by simp), hside events' (by simp), h.same]

theorem filter_ofClass_comm (p : Event → Bool) (l : List Event) :
    ofClass (machine str) H (l.filter p) = (ofClass (machine str) H l).filter p :=
  ofClass_filter H p l

theorem executionSources_ofClass (l : List Event) : ofClass (machine str) H (executionSources l)
      = executionSources (ofClass (machine str) H l) := by
  rw [executionSources, executionSources, ofClass_filter, ofClass_append, processes_ofClass,
    inventoryExec_ofClass]

theorem downloadFindings_eq (h : Extends str H events events') :
    ((events.filter downloadEvent).flatMap (downloadRule str events)).filter (onMachine str H)
      = ((events'.filter downloadEvent).flatMap (downloadRule str events')).filter
          (onMachine str H) := by
  have hside : ∀ l : List Event,
      ((l.filter downloadEvent).flatMap (downloadRule str l)).filter (onMachine str H)
        = ((ofClass (machine str) H l).filter downloadEvent).flatMap
            (downloadRule str (ofClass (machine str) H l)) :=
    fun l => filter_flatMap_local (List.filter downloadEvent) (downloadRule str) H
      (filter_ofClass_comm _ l) (fun e _ => downloadRule_ofClass l e)
      fun e _ f hf => (on_downloadRule l e hf).onMachine_eq H
  rw [hside, hside, h.same]

theorem persistenceFindings_eq (h : Extends str H events events')
    (hnamed : ∀ e ∈ events', eventHost e ≠ []) :
    ((events.filter persistenceEvent).filterMap (persistenceRule str events)).filter
        (onMachine str H)
      = ((events'.filter persistenceEvent).filterMap (persistenceRule str events')).filter
          (onMachine str H) := by
  have hboth : ∀ l ∈ [events, events'], ∀ e ∈ l, eventHost e ≠ [] := by
    intro l hl
    rcases List.mem_pair.1 hl with rfl | rfl
    · exact fun e he => hnamed e (h.sublist.subset he)
    · exact hnamed
  exact localFindings_eq h (List.filter persistenceEvent) (persistenceRule str)
    (filter_ofClass_comm _)
    (fun l hl e he => persistenceRule_ofClass (hboth l hl) (List.mem_of_mem_filter he))
    fun l hl e he f hf => on_persistenceRule (hboth l hl) (List.mem_of_mem_filter he) hf

/-- A rule about single events makes the same findings of the machine. -/
theorem singleFindings_eq (h : Extends str H events events') (p : Event → Bool)
    {rule : Event → Option Finding}
    (hon : ∀ e f, rule e = some f → f.On str (machine str e)) :
    ((events.filter p).filterMap rule).filter (onMachine str H)
      = ((events'.filter p).filterMap rule).filter (onMachine str H) :=
  localFindings_eq h (List.filter p) (fun _ => rule)
    (filter_ofClass_comm _) (fun _ _ _ _ => rfl) fun _ _ e _ f hf => hon e f hf

theorem cloudFindings_eq (h : Extends str H events events') :
    ((events.filter cloudUpload).filterMap (cloudRule str events)).filter (onMachine str H)
      = ((events'.filter cloudUpload).filterMap (cloudRule str events')).filter
          (onMachine str H) :=
  localFindings_eq h (List.filter cloudUpload) (cloudRule str) (filter_ofClass_comm _)
    (fun l _ e _ => cloudRule_ofClass l e) fun l _ e _ _ hf => on_cloudRule l e hf

/-- The USB findings of the machine are made of its events and of the one question. -/
theorem usbFindings_filter (l : List Event) :
    ((l.filter usbEvent).filterMap (usbRule str l)).filter (onMachine str H)
      = ((ofClass (machine str) H l).filter usbEvent).filterMap fun usb =>
          usbFinding (highRisk (processes l)) usb
            (usbNearby str (ofClass (machine str) H l) usb) :=
  filter_filterMap_local (List.filter usbEvent)
    (fun l' usb => usbFinding (highRisk (processes l)) usb (usbNearby str l' usb)) H
    (filter_ofClass_comm _ l)
    (fun usb _ => congrArg (usbFinding (highRisk (processes l)) usb) (usbNearby_ofClass l usb))
    fun usb _ _ hf => (on_usbFinding l usb _ hf).onMachine_eq H

theorem cleanupFindings_filter (l : List Event) :
    ((executionSources l).filterMap (cleanupRule str l)).filter (onMachine str H)
      = (executionSources (ofClass (machine str) H l)).filterMap fun exec =>
          cleanupFinding str (detectedPath str l exec) exec
            (deletionMatches str (ofClass (machine str) H l) exec) :=
  filter_filterMap_local executionSources
    (fun l' exec =>
      cleanupFinding str (detectedPath str l exec) exec (deletionMatches str l' exec)) H
    (executionSources_ofClass l)
    (fun exec _ => congrArg (cleanupFinding str (detectedPath str l exec) exec)
      (deletionMatches_ofClass l exec))
    fun exec _ _ hf => (on_cleanupFinding l exec _ hf).onMachine_eq H

theorem usbFindings_eq_iff (h : Extends str H events events') :
    ((events.filter usbEvent).filterMap (usbRule str events)).filter (onMachine str H)
        = ((events'.filter usbEvent).filterMap (usbRule str events')).filter (onMachine str H) ↔
      ∀ usb ∈ events.filter usbEvent, machine str usb = H → usbNearby str events usb ≠ [] →
        highRisk ((usbNearby str events usb).map Prod.fst) = false →
          highRisk (processes events) = highRisk (processes events') := by
  rw [usbFindings_filter, usbFindings_filter, ← h.same, ← filter_ofClass_comm]
  refine filterMap_ofClass_eq_iff (fun usb => ?_) fun usb hmachine => ?_
  · rw [usbFinding_isSome, usbFinding_isSome]
  · rw [← hmachine, usbNearby_ofClass]
    exact usbFinding_eq_iff usb _ _ _

theorem cleanupFindings_eq_iff (h : Extends str H events events') :
    ((executionSources events).filterMap (cleanupRule str events)).filter (onMachine str H)
        = ((executionSources events').filterMap (cleanupRule str events')).filter
            (onMachine str H) ↔
      ∀ exec ∈ executionSources events, machine str exec = H →
        deletionMatches str events exec ≠ [] →
          detectedPath str events exec = detectedPath str events' exec := by
  rw [cleanupFindings_filter, cleanupFindings_filter, ← h.same, ← executionSources_ofClass]
  refine filterMap_ofClass_eq_iff (fun exec => ?_) fun exec hmachine => ?_
  · rw [cleanupFinding_isSome, cleanupFinding_isSome]
  · rw [← hmachine, deletionMatches_ofClass]
    exact cleanupFinding_eq_iff exec _ _ _

end Comparison

/-! ### Never crossing machines -/

/-- The findings that are derived from an edge of the process graph. -/
def Finding.FromEdge (f : Finding) : Prop :=
  f.findingType = .officePowershell ∨ f.findingType = .suspiciousProcessChain

section Claim

variable (str) (graph : Graph) (H : Option Text) (events events' : List Event)

/-- The events of a list are on one machine. -/
def OneMachine (events : List Event) : Prop :=
  ∀ a ∈ events, ∀ b ∈ events, machine str a = machine str b

/-- Findings relate events of one machine, and those on a machine stay as they are when events of
other machines are added. -/
structure NeverCrosses : Prop where
  confined : ∀ f ∈ generateFindings str graph events, ¬ f.FromEdge → OneMachine str f.events
  unchanged : (generateFindings str graph events).filter (onMachine str H)
    = (generateFindings str graph events').filter (onMachine str H)

/-- What it takes.  `powershell` is about the nodes with related DNS or SRUM events. -/
structure Undisturbed : Prop where
  powershell : ∀ node ∈ graph.nodes.filter (suspiciousPowershell str),
    (powershellRule str events node).isSome = true →
      OneMachine str (eventsOf events node.sourceEvents) ∧
      (eventsOf events node.sourceEvents = [] →
        OneMachine str ((relatedDns str events [] node).take 2 ++
          (relatedSrum str events [] node).take 2))
  powershell_added : ∀ node ∈ graph.nodes.filter (suspiciousPowershell str),
    (powershellRule str events node).any (onMachine str H) = true →
      ∀ e ∈ nodeRelated str events' node, machine str e = H
  office_added : ∀ edge ∈ graph.edges,
    (officeRule str graph events edge).any (onMachine str H) = true →
      ∀ e ∈ edgeEvents graph events' edge, machine str e = H
  chain_added : ∀ edge ∈ graph.edges,
    (chainRule str graph events edge).any (onMachine str H) = true →
      ∀ e ∈ edgeEvents graph events' edge, machine str e = H
  usb : ∀ usb ∈ events.filter usbEvent, machine str usb = H → usbNearby str events usb ≠ [] →
    highRisk ((usbNearby str events usb).map Prod.fst) = false →
      highRisk (processes events) = highRisk (processes events')
  cleanup : ∀ exec ∈ executionSources events, machine str exec = H →
    deletionMatches str events exec ≠ [] →
      detectedPath str events exec = detectedPath str events' exec

end Claim

section Proof

variable {graph : Graph} {H : Option Text} {events events' : List Event}

theorem Finding.On.oneMachine {f : Finding} {M : Option Text} (h : f.On str M) :
    OneMachine str f.events :=
  fun a ha b hb => (h.2 a ha).trans (h.2 b hb).symm

/-- Related DNS and SRUM events are of the machine of the node, if it has one. -/
theorem nodeRelated_oneMachine {node : Node} (hnamed : ∀ e ∈ events, eventHost e ≠ [])
    (hne : eventsOf events node.sourceEvents ≠ [])
    (hown : OneMachine str (eventsOf events node.sourceEvents)) :
    OneMachine str (nodeRelated str events node) := by
  obtain ⟨first, hfirst⟩ := List.exists_mem_of_ne_nil _ hne
  have hownnamed : ∀ e ∈ eventsOf events node.sourceEvents, eventHost e ≠ [] := fun e he =>
    hnamed e (List.mem_of_mem_filter (List.mem_of_mem_filter he))
  have hall : ∀ e ∈ nodeRelated str events node, machine str e = machine str first := by
    intro e he
    rcases List.mem_append.1 he with he | he
    · rcases List.mem_append.1 he with he | he
      · exact hown e he first hfirst
      · have hcond := (List.mem_filter.1 (List.mem_of_mem_take he)).2
        simp only [Bool.and_eq_true] at hcond
        exact machine_of_ofNodeHost hne hownnamed (fun e he => hown e he first hfirst) hcond.1.2
    · have hcond := (List.mem_filter.1 (List.mem_of_mem_take he)).2
      simp only [Bool.and_eq_true] at hcond
      exact machine_of_ofNodeHost hne hownnamed (fun e he => hown e he first hfirst) hcond.1.1.2
  exact fun a ha b hb => (hall a ha).trans (hall b hb).symm

/-- A finding about a node relates events of one machine. -/
theorem nodeRelated_oneMachine_iff (node : Node) (hnamed : ∀ e ∈ events, eventHost e ≠ []) :
    OneMachine str (nodeRelated str events node) ↔
      OneMachine str (eventsOf events node.sourceEvents) ∧
      (eventsOf events node.sourceEvents = [] →
        OneMachine str ((relatedDns str events [] node).take 2 ++
          (relatedSrum str events [] node).take 2)) := by
  by_cases hown : eventsOf events node.sourceEvents = []
  · have hrelated : nodeRelated str events node = (relatedDns str events [] node).take 2 ++
        (relatedSrum str events [] node).take 2 := by
      unfold nodeRelated
      rw [hown]
      rfl
    rw [hrelated, hown]
    exact ⟨fun h => ⟨fun a ha => absurd ha List.not_mem_nil, fun _ => h⟩, fun h => h.2 rfl⟩
  · refine ⟨fun h => ⟨fun a ha b hb => ?_, fun hnil => absurd hnil hown⟩,
      fun h => nodeRelated_oneMachine hnamed hown h.1⟩
    exact h a (List.mem_append_left _ (List.mem_append_left _ ha)) b
      (List.mem_append_left _ (List.mem_append_left _ hb))

theorem findingType_office {edge : Edge} {f : Finding}
    (h : officeRule str graph events edge = some f) : f.FromEdge := by
  obtain ⟨_, _, -, -, hf⟩ := exists_nodes_of_edgeRule h
  simp only [officeFinding, Option.ite_none_right_eq_some, Option.some.injEq] at hf
  rw [← hf.2]
  exact .inl rfl

theorem findingType_chain {edge : Edge} {f : Finding}
    (h : chainRule str graph events edge = some f) : f.FromEdge := by
  obtain ⟨_, _, -, -, hf⟩ := exists_nodes_of_edgeRule h
  simp only [chainFinding, Option.ite_none_left_eq_some, Option.some.injEq] at hf
  rw [← hf.2]
  exact .inr rfl

theorem findingType_powershell {node : Node} {f : Finding}
    (h : powershellRule str events node = some f) : ¬ f.FromEdge := by
  simp only [powershellRule, powershellFinding, Option.ite_none_left_eq_some,
    Option.some.injEq] at h
  have htype : f.findingType = .powershellNetwork := by
    rw [← h.2]
    rfl
  unfold Finding.FromEdge
  rw [htype]
  decide

/-- A finding that no node and no edge of the graph makes is on one machine. -/
theorem confined_iff (hnamed : ∀ e ∈ events, eventHost e ≠ []) :
    (∀ f ∈ generateFindings str graph events, ¬ f.FromEdge → OneMachine str f.events) ↔
      ∀ node ∈ graph.nodes.filter (suspiciousPowershell str),
        (powershellRule str events node).isSome = true →
          OneMachine str (nodeRelated str events node) := by
  constructor
  · intro h node hnode hsome
    obtain ⟨f, hf⟩ := Option.isSome_iff_exists.1 hsome
    have hmem : f ∈ generateFindings str graph events := by
      have hgroup := List.mem_filterMap.2 ⟨node, hnode, hf⟩
      simp only [generateFindings, List.mem_append]
      tauto
    rw [← powershellRule_events hf]
    exact h f hmem (findingType_powershell hf)
  · intro h f hf hedge
    simp only [generateFindings, List.mem_append, or_assoc] at hf
    rcases hf with hf | hf | hf | hf | hf | hf | hf | hf | hf | hf | hf
    · obtain ⟨e, -, hf⟩ := List.mem_flatMap.1 hf
      exact (on_downloadRule events e hf).oneMachine
    · obtain ⟨edge, -, hf⟩ := List.mem_filterMap.1 hf
      exact absurd (findingType_office hf) hedge
    · obtain ⟨node, hnode, hf⟩ := List.mem_filterMap.1 hf
      rw [powershellRule_events hf]
      exact h node hnode (Option.isSome_iff_exists.2 ⟨f, hf⟩)
    · obtain ⟨e, he, hf⟩ := List.mem_filterMap.1 hf
      exact (on_persistenceRule hnamed (List.mem_of_mem_filter he) hf).oneMachine
    · obtain ⟨e, -, hf⟩ := List.mem_filterMap.1 hf
      exact (on_userActivityRule hf).oneMachine
    · obtain ⟨e, -, hf⟩ := List.mem_filterMap.1 hf
      exact (on_ntfsRule hf).oneMachine
    · obtain ⟨e, -, hf⟩ := List.mem_filterMap.1 hf
      exact (on_windowsUiRule hf).oneMachine
    · obtain ⟨e, -, hf⟩ := List.mem_filterMap.1 hf
      exact (on_cloudRule events e hf).oneMachine
    · obtain ⟨e, -, hf⟩ := List.mem_filterMap.1 hf
      exact (on_usbFinding events e _ hf).oneMachine
    · obtain ⟨e, -, hf⟩ := List.mem_filterMap.1 hf
      exact (on_cleanupFinding events e _ hf).oneMachine
    · obtain ⟨edge, -, hf⟩ := List.mem_filterMap.1 hf
      exact absurd (findingType_chain hf) hedge

end Proof

section Main

variable {graph : Graph} {H : Option Text} {events events' : List Event}

theorem length_filterMap_graph {τ : Type} {rule : List Event → τ → Option Finding}
    {related : List Event → τ → List Event}
    (hevents : ∀ t f, rule events' t = some f → f.events = related events' t)
    (hcongr : ∀ t, (∀ e ∈ related events' t, machine str e = H) → rule events t = rule events' t)
    (triggers : List τ) :
    ((triggers.filterMap (rule events')).filter (onMachine str H)).length
      ≤ ((triggers.filterMap (rule events)).filter (onMachine str H)).length := by
  rw [List.filter_filterMap, List.filter_filterMap]
  refine length_filterMap_le fun t _ => ?_
  rcases hf : (rule events' t).filter (onMachine str H) with - | f
  · exact .inr rfl
  · obtain ⟨hrule, hon⟩ := Option.filter_eq_some_iff.1 hf
    have hsame : rule events t = rule events' t := by
      refine hcongr t fun e he => (onMachine_iff.1 hon).2 e ?_
      rw [hevents t f hrule]
      exact he
    rw [hsame, hf]
    exact .inl rfl

theorem edge_congr (h : Extends str H events events')
    {finding : List Event → Edge → Node → Node → Option Finding} (hfinding : ReadsEdge finding)
    (edge : Edge) (hall : ∀ e ∈ edgeEvents graph events' edge, machine str e = H) :
    edgeRule finding graph events edge = edgeRule finding graph events' edge :=
  hfinding.edgeRule_congr (h.edgeEvents.eq_of_all hall)

/-- The findings of a machine stay as they are if and only if nothing of the other machines gets
into the questions that are asked of all events. -/
theorem unchanged_iff (h : Extends str H events events')
    (hnamed : ∀ e ∈ events', eventHost e ≠ []) :
    (generateFindings str graph events).filter (onMachine str H)
        = (generateFindings str graph events').filter (onMachine str H) ↔
      (∀ node ∈ graph.nodes.filter (suspiciousPowershell str),
        (powershellRule str events node).any (onMachine str H) = true →
          ∀ e ∈ nodeRelated str events' node, machine str e = H) ∧
      (∀ edge ∈ graph.edges, (officeRule str graph events edge).any (onMachine str H) = true →
        ∀ e ∈ edgeEvents graph events' edge, machine str e = H) ∧
      (∀ edge ∈ graph.edges, (chainRule str graph events edge).any (onMachine str H) = true →
        ∀ e ∈ edgeEvents graph events' edge, machine str e = H) ∧
      (∀ usb ∈ events.filter usbEvent, machine str usb = H → usbNearby str events usb ≠ [] →
        highRisk ((usbNearby str events usb).map Prod.fst) = false →
          highRisk (processes events) = highRisk (processes events')) ∧
      (∀ exec ∈ executionSources events, machine str exec = H →
        deletionMatches str events exec ≠ [] →
          detectedPath str events exec = detectedPath str events' exec) := by
  have hpowershell : (∀ node f, powershellRule str events' node = some f →
      f.events = nodeRelated str events' node) ∧ ∀ node,
      (∀ e ∈ nodeRelated str events' node, machine str e = H) →
        powershellRule str events node = powershellRule str events' node :=
    ⟨fun _ _ hf => powershellRule_events hf, fun _ hall => powershellRule_congr h hall⟩
  have hedge : ∀ finding, ReadsEdge finding →
      (∀ edge f, edgeRule finding graph events' edge = some f →
        f.events = edgeEvents graph events' edge) ∧ ∀ edge,
      (∀ e ∈ edgeEvents graph events' edge, machine str e = H) →
        edgeRule finding graph events edge = edgeRule finding graph events' edge :=
    fun _ hfinding => ⟨fun _ _ hf => hfinding.edgeRule_events hf, edge_congr h hfinding⟩
  obtain ⟨hofficeEvents, hofficeCongr⟩ := hedge (officeFinding str) readsEdge_officeFinding
  obtain ⟨hchainEvents, hchainCongr⟩ := hedge (chainFinding str) readsEdge_chainFinding
  have husb := usbFindings_eq_iff h
  have hcleanup := cleanupFindings_eq_iff h
  have hlengths : ∀ g ∈ (machineGroups str graph H events).zip (machineGroups str graph H events'),
      g.2.length ≤ g.1.length := by
    simp only [machineGroups, List.zip_cons_cons, List.zip_nil_right, List.forall_mem_cons,
      List.not_mem_nil, false_imp_iff, implies_true, and_true]
    refine ⟨(congrArg List.length (downloadFindings_eq h)).ge,
      length_filterMap_graph hofficeEvents hofficeCongr _,
      length_filterMap_graph hpowershell.1 hpowershell.2 _,
      (congrArg List.length (persistenceFindings_eq h hnamed)).ge,
      (congrArg List.length (singleFindings_eq h _ fun _ _ => on_userActivityRule)).ge,
      (congrArg List.length (singleFindings_eq h _ fun _ _ => on_ntfsRule)).ge,
      (congrArg List.length (singleFindings_eq h _ fun _ _ => on_windowsUiRule)).ge,
      (congrArg List.length (cloudFindings_eq h)).ge, ?_, ?_,
      length_filterMap_graph hchainEvents hchainCongr _⟩
    · rw [usbFindings_filter, usbFindings_filter, ← h.same, List.length_filterMap_eq_countP,
        List.length_filterMap_eq_countP]
      exact (List.countP_congr fun usb _ => by simp only [usbFinding_isSome]).le
    · rw [cleanupFindings_filter, cleanupFindings_filter, ← h.same,
        List.length_filterMap_eq_countP, List.length_filterMap_eq_countP]
      exact (List.countP_congr fun exec _ => by simp only [cleanupFinding_isSome]).le
  have hgroups := flatten_eq_iff hlengths
  rw [List.map_fst_zip (by simp [machineGroups]), List.map_snd_zip (by simp [machineGroups]),
    ← filter_generateFindings, ← filter_generateFindings] at hgroups
  rw [hgroups]
  simp only [machineGroups, List.zip_cons_cons, List.zip_nil_right, List.forall_mem_cons,
    List.not_mem_nil, false_imp_iff, implies_true, and_true]
  rw [husb, hcleanup, graphFindings_eq_iff hpowershell.1 hpowershell.2,
    show (graph.edges.filterMap (officeRule str graph events)).filter (onMachine str H)
        = (graph.edges.filterMap (officeRule str graph events')).filter (onMachine str H) ↔ _ from
      graphFindings_eq_iff hofficeEvents hofficeCongr graph.edges,
    show (graph.edges.filterMap (chainRule str graph events)).filter (onMachine str H)
        = (graph.edges.filterMap (chainRule str graph events')).filter (onMachine str H) ↔ _ from
      graphFindings_eq_iff hchainEvents hchainCongr graph.edges]
  constructor
  · rintro ⟨-, hoffice, hps, -, -, -, -, -, husb, hcleanup, hchain⟩
    exact ⟨hps, hoffice, hchain, husb, hcleanup⟩
  · rintro ⟨hps, hoffice, hchain, husb, hcleanup⟩
    exact ⟨downloadFindings_eq h, hoffice, hps, persistenceFindings_eq h hnamed,
      singleFindings_eq h _ fun _ _ => on_userActivityRule,
      singleFindings_eq h _ fun _ _ => on_ntfsRule,
      singleFindings_eq h _ fun _ _ => on_windowsUiRule, cloudFindings_eq h, husb, hcleanup,
      hchain⟩

/-- **Correlation crosses no machines if and only if nothing disturbs it**: process events of a node
are of one machine, a PowerShell node without process events relates network events of one machine,
and no added event of another machine is one that a finding relates by id or by time alone, gives a
USB finding its first high-risk process, or an execution cleanup its first detection. -/
theorem neverCrosses_iff (h : Extends str H events events')
    (hnamed : ∀ e ∈ events', eventHost e ≠ []) :
    NeverCrosses str graph H events events' ↔ Undisturbed str graph H events events' := by
  have hbefore : ∀ e ∈ events, eventHost e ≠ [] := fun e he => hnamed e (h.sublist.subset he)
  constructor
  · intro hclaim
    have hconfined := (confined_iff hbefore).1 hclaim.confined
    obtain ⟨hps, hoffice, hchain, husb, hcleanup⟩ := (unchanged_iff h hnamed).1 hclaim.unchanged
    exact ⟨fun node hnode hsome =>
      (nodeRelated_oneMachine_iff node hbefore).1 (hconfined node hnode hsome),
      hps, hoffice, hchain, husb, hcleanup⟩
  · intro hcond
    refine ⟨(confined_iff hbefore).2 fun node hnode hsome => ?_, (unchanged_iff h hnamed).2 ?_⟩
    · exact (nodeRelated_oneMachine_iff node hbefore).2 (hcond.powershell node hnode hsome)
    · exact ⟨hcond.powershell_added, hcond.office_added, hcond.chain_added, hcond.usb,
        hcond.cleanup⟩

end Main

/-! ### A USB connection on one machine, a process on another -/

/-- ASCII letters and digits. -/
def asciiStrings : Strings := ⟨List.map Char.toLower, Char.isDigit⟩

/-- An event of a host that says nothing else. -/
def bareEvent (id host artifactType eventType : String) : Event where
  id := some id.toList
  evidenceId := none
  host := .record (some host.toList) none none none
  eventType := eventType.toList
  artifactType := artifactType.toList
  category := []
  severity := []
  time := some 0
  executionConfirmed := false
  riskScore := none
  suspiciousReasons := []
  processName := none
  processPath := none
  processCommandLine := none
  filePath := none
  downloadTargetPath := none
  detectionPath := none
  detectionResource := none
  cloudLocalPath := none
  cloudRemotePath := none
  cloudShared := false
  bitsLocalPath := none
  bitsRemoteUrl := none
  persistenceMechanism := none
  persistencePath := none
  persistenceCommand := none
  autorunsCommandLine := none
  autorunsImagePath := none
  serviceImagePath := none
  taskActionPath := none
  wmiExecutablePath := none
  dnsDomain := none
  dnsName := none
  srumApplication := none
  srumBytesSent := none
  networkBytesSent := none
  windowsSearchIndexedPath := none
  thumbnailSourcePath := none
  officeDocumentPath := none
  officeAlertText := none
  notificationTitle := none
  notificationBody := none
  usbDeviceType := []

/-- A USB mass storage connection. -/
def connection : Event :=
  { bareEvent "1" "PC1" "usb" "usb_connected" with usbDeviceType := "mass_storage".toList }

/-- An archive on the same machine, with a risk score. -/
def archive (risk : ℤ) : Event :=
  { bareEvent "2" "pc1" "mft" "file_observed" with
    filePath := some "E:\\data.zip".toList
    riskScore := some risk }

/-- A high-risk process on another machine. -/
def elsewhere : Event :=
  { bareEvent "3" "pc2" "evtx" "process_start" with
    executionConfirmed := true
    riskScore := some 90 }

def emptyGraph : Graph := ⟨[], []⟩

theorem extends_elsewhere (risk : ℤ) :
    Extends asciiStrings (some "pc1".toList) [connection, archive risk]
      [connection, archive risk, elsewhere] := by
  refine ⟨((List.nil_sublist [elsewhere]).cons_cons _).cons_cons _, ?_⟩
  have helse : machine asciiStrings elsewhere ≠ some "pc1".toList := by decide +kernel
  show ofClass _ _ ([connection, archive risk] ++ []) = ofClass _ _ ([connection, archive risk] ++
    [elsewhere])
  rw [ofClass_append, ofClass_append, ofClass_cons_of_ne helse]

/-- An archive of high risk makes the finding what it is, whatever runs elsewhere. -/
theorem rated_by_archive :
    NeverCrosses asciiStrings emptyGraph (some "pc1".toList) [connection, archive 80]
      [connection, archive 80, elsewhere] :=
  (neverCrosses_iff (extends_elsewhere 80) (by decide +kernel)).2
    ⟨fun _ h => absurd h List.not_mem_nil, fun _ h => absurd h List.not_mem_nil,
      fun _ h => absurd h List.not_mem_nil, fun _ h => absurd h List.not_mem_nil,
      by decide +kernel, by decide +kernel⟩

/-- **Otherwise a process of the other machine raises the finding** from confidence low and risk 50
to medium and 80. -/
theorem rated_by_elsewhere :
    ¬ NeverCrosses asciiStrings emptyGraph (some "pc1".toList) [connection, archive 0]
      [connection, archive 0, elsewhere] := by
  intro h
  exact absurd h.unchanged (by decide +kernel)

end Kairon.Findings

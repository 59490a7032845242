/-
Kairon/Process/View.lean

`fetch_canonical_tree`: the process tree of a part of the processes of a run.

The parents of a view are chosen anew among its processes.  A process whose parent
is not in the view can so be linked to another holder of its PPID, and one at which
a cycle is cut in the run to its chosen parent.  `view_invents_no_parent_iff` says
exactly when this happens.
-/
import Kairon.Search.Value
import Kairon.Process.Render

namespace Kairon.Process

open Search (Text strip intStr)

variable {Id : Type} [LinearOrder Id]

/-! ### Filters -/

/-- `visibility.<name>`. -/
def Visibility.flag (visibility : Visibility) (name : Text) : Bool :=
  if name = "listed".toList then visibility.listed
  else if name = "scan_only".toList then visibility.scanOnly
  else if name = "terminated".toList then visibility.terminated
  else if name = "unknown".toList then visibility.unknown
  else if name = "hidden_candidate".toList then visibility.hiddenCandidate
  else false

/-- What `fetch_canonical_tree` is asked for. -/
structure ViewRequest (Id : Type) where
  scope : Scope Id := {}
  depth : ℤ := 3
  maxNodes : Option ℤ := none
  visibility : Option Text := none
  interestingOnly : Bool := false
  orphansOnly : Bool := false
  search : Option Text := none

/-- The filters of `fetch_canonical_entities` that are used. -/
def ViewRequest.keeps (request : ViewRequest Id) (ent : Entity Id) : Bool :=
  (request.visibility.all fun name => name = [] || ent.visibility.flag name) &&
    (!request.interestingOnly || !ent.findings.isEmpty)

/-! ### Search -/

section

-- `str.lower` and `str.isdigit`
variable (lower : Text → Text) (isDigit : Text → Bool)

/-- The needle, if there is one to look for. -/
def ViewRequest.needle (request : ViewRequest Id) : Option Text :=
  (request.search.map fun text => lower (strip text)).filter fun text => text ≠ []

/-- Whether an entity is found: by its PID, or in its name or command line. -/
def found (needle : Text) (ent : Entity Id) : Bool :=
  if isDigit needle then intStr ent.process.pid = needle
  else
    needle <:+: lower (ent.process.name.getD []) ||
      needle <:+: lower (ent.process.commandLine.getD [])

end

/-- The nodes that are not in the scope. -/
def outside (nodes : List (Node Id)) (ids : List Id) : List (Node Id) :=
  nodes.filter fun node => node.entity.id ∉ ids

variable {nodes : List (Node Id)}

theorem outside_cons_lt {ids : List Id} {node : Node Id}
    (hnode : node ∈ nodes) (hnew : node.entity.id ∉ ids) :
    (outside nodes (node.entity.id :: ids)).length < (outside nodes ids).length := by
  have hsub : (outside nodes (node.entity.id :: ids)).Sublist (outside nodes ids) := by
    refine List.monotone_filter_right _ fun other hother => ?_
    simp only [List.mem_cons, not_or, decide_eq_true_eq] at hother ⊢
    exact hother.2
  refine lt_of_le_of_ne hsub.length_le fun heq => ?_
  have hmem : node ∈ outside nodes (node.entity.id :: ids) := by
    rw [hsub.eq_of_length heq]
    exact List.mem_filter.2 ⟨hnode, decide_eq_true hnew⟩
  simp [outside] at hmem

theorem addAncestors_decreases {ids : List Id} {cursor : Option Id}
    {node : Node Id} (hcursor : cursor.bind (nodeOf nodes) = some node)
    (hnew : node.entity.id ∉ ids) :
    (outside nodes (node.entity.id :: ids)).length < (outside nodes ids).length := by
  obtain ⟨id, -, hnode⟩ := Option.bind_eq_some_iff.1 hcursor
  exact outside_cons_lt (mem_of_nodeOf hnode).1 hnew

/-- The ancestors that are added for a match, from a cursor on. -/
def addAncestors (nodes : List (Node Id)) (ids : List Id) (cursor : Option Id) : List Id :=
  match hcursor : cursor.bind (nodeOf nodes) with
  | none => ids
  | some node =>
    if hnew : node.entity.id ∈ ids then ids
    else addAncestors nodes (node.entity.id :: ids) node.parentEntityId
termination_by (outside nodes ids).length
decreasing_by exact addAncestors_decreases hcursor hnew

/-- A match, with its ancestors. -/
def addMatch (nodes : List (Node Id)) (ids : List Id) (node : Node Id) : List Id :=
  node.entity.id :: addAncestors nodes ids node.parentEntityId

/-- A child is added to the scope and to the queue, unless it is in the scope. -/
def enqueue (state : List Id × List Id) (child : Node Id) : List Id × List Id :=
  if child.entity.id ∈ state.1 then state
  else (child.entity.id :: state.1, state.2 ++ [child.entity.id])

theorem foldl_enqueue_le {nodes children : List (Node Id)} (h : ∀ child ∈ children, child ∈ nodes)
    (state : List Id × List Id) :
    (outside nodes (children.foldl enqueue state).1).length +
        (children.foldl enqueue state).2.length ≤
      (outside nodes state.1).length + state.2.length := by
  induction children generalizing state with
  | nil => exact le_rfl
  | cons child children ih =>
    refine (ih (fun c hc => h c (.tail _ hc)) _).trans ?_
    rw [enqueue]
    split
    · exact le_rfl
    · next hnew =>
        have hlt := outside_cons_lt (h child (.head _)) hnew
        dsimp only
        rw [List.length_append, List.length_singleton]
        omega

theorem addDescendants_decreases (nodes : List (Node Id)) (ids : List Id) (cur : Id)
    (queue : List Id) :
    (outside nodes ((childrenOf nodes cur).foldl enqueue (ids, queue)).1).length +
        ((childrenOf nodes cur).foldl enqueue (ids, queue)).2.length <
      (outside nodes ids).length + (cur :: queue).length := by
  have hle := foldl_enqueue_le
    (fun child (hchild : child ∈ childrenOf nodes cur) => List.mem_of_mem_filter hchild)
    (ids, queue)
  dsimp only at hle
  rw [List.length_cons]
  omega

/-- The descendants that are added for the ids in the queue. -/
def addDescendants (nodes : List (Node Id)) (ids : List Id) : List Id → List Id
  | [] => ids
  | cur :: queue =>
    addDescendants nodes ((childrenOf nodes cur).foldl enqueue (ids, queue)).1
      ((childrenOf nodes cur).foldl enqueue (ids, queue)).2
termination_by queue => (outside nodes ids).length + queue.length
decreasing_by exact addDescendants_decreases nodes ids cur queue

/-- The ids in the scope of a search: the matches, their ancestors and descendants. -/
def searchScope (nodes hits : List (Node Id)) : List Id :=
  addDescendants nodes (hits.foldl (addMatch nodes) []) (hits.map fun node => node.entity.id)

/-! ### The view -/

section

variable (parseTime : Text → Option ℤ) (lower : Text → Text) (isDigit : Text → Bool)

/-- The nodes that a search finds. -/
def searchHits (nodes : List (Node Id)) (needle : Text) : List (Node Id) :=
  nodes.filter fun node => found lower isDigit needle node.entity

/-- The entities that the view is made of, out of all those of the run. -/
def viewEntities (entities : List (Entity Id)) (request : ViewRequest Id) : List (Entity Id) :=
  let kept := entities.filter request.keeps
  let nodes := buildTreeMetrics parseTime kept
  match request.needle lower with
  | some needle =>
    let ids := searchScope nodes (searchHits lower isDigit nodes needle)
    kept.filter fun ent => ent.id ∈ ids
  | none =>
    if request.orphansOnly then
      kept.filter fun ent => (annotate parseTime kept ent).tree.isOrphan
    else kept

/-- `fetch_canonical_tree`. -/
def fetchCanonicalTree (entities : List (Entity Id)) (request : ViewRequest Id) :
    TreeResponse Id :=
  let kept := entities.filter request.keeps
  let nodes := buildTreeMetrics parseTime (viewEntities parseTime lower isDigit entities request)
  match request.needle lower with
  | some needle =>
    if searchHits lower isDigit (buildTreeMetrics parseTime kept) needle = [] then
      { roots := []
        orphans := []
        topLevelNodes := []
        totalEntities := kept.length
        omittedCount := kept.length
        truncationReason := some .searchNoMatch }
    else buildTreeResponse parseTime nodes request.depth request.maxNodes {}
  | none => buildTreeResponse parseTime nodes request.depth request.maxNodes request.scope

end

/-! ### Parents in a part of the entities -/

section

variable {parseTime : Text → Option ℤ} {entities part : List (Entity Id)}

variable {child parent : Entity Id}

theorem chooseParent_eq_of_best (hdistinct : (entities.map Entity.id).Nodup)
    (hmem : parent ∈ entities) (hexisted : plausibleFor parseTime child parent = true)
    (hbest : ∀ other ∈ entities, plausibleFor parseTime child other = true →
      Better parseTime parent other) : chooseParent parseTime child entities = some parent := by
  obtain ⟨chosen, hchosen⟩ := exists_chooseParent hmem hexisted
  obtain ⟨hin, hpl⟩ := chooseParent_mem hchosen
  have hid : chosen.id = parent.id := by
    rcases chooseParent_best hchosen parent hmem hexisted with hlt | ⟨heq, hle⟩
    · rcases hbest chosen hin hpl with hlt' | ⟨heq', -⟩
      · exact absurd hlt (lt_asymm hlt')
      · exact absurd heq'.symm hlt.ne
    · rcases hbest chosen hin hpl with hlt | ⟨-, hle'⟩
      · exact absurd heq hlt.ne'
      · exact le_antisymm hle hle'
  rw [hchosen, List.inj_on_of_nodup_map hdistinct hin hmem hid]

/-- A parent that is chosen among all is chosen in any part that it is in. -/
theorem chosenParent_of_subset (hdistinct : (entities.map Entity.id).Nodup)
    (hsub : part.Sublist entities)
    (h : chosenParent parseTime entities child = some parent) (hparent : parent ∈ part) :
    chosenParent parseTime part child = some parent := by
  rw [chosenParent] at h ⊢
  split at h
  · cases h
  · next ppid hppid =>
      split at h
      · cases h
      · next hne =>
          rw [if_neg hne]
          obtain ⟨hmem, hexisted⟩ := chooseParent_mem h
          refine chooseParent_eq_of_best
            ((hdistinct.sublist (hsub.map _)).sublist (List.filter_sublist.map _))
            (List.mem_filter.2 ⟨hparent, (List.mem_filter.1 hmem).2⟩) hexisted ?_
          intro other hother hpl
          obtain ⟨hother, hpid⟩ := List.mem_filter.1 hother
          exact chooseParent_best h other (List.mem_filter.2 ⟨hsub.subset hother, hpid⟩) hpl

/-- What has to hold of a process in a part, for its parent there to be the right one: if
it is linked to a parent in the part, its parent among all is in the part, and it is not
the oldest of a cycle among all. -/
def KeepsParent (parseTime : Text → Option ℤ) (entities part : List (Entity Id))
    (ent : Entity Id) : Prop :=
  (∃ parent, chosenParent parseTime part ent = some parent) → ¬ IsOldest parseTime part ent →
    (∃ parent ∈ part, chosenParent parseTime entities ent = some parent) ∧
      ¬ IsOldest parseTime entities ent

/-- The parent of a process in a part is its parent among all or none, exactly when the
condition holds. -/
theorem parent_in_part_iff (hdistinct : (entities.map Entity.id).Nodup)
    (hsub : part.Sublist entities) {ent : Entity Id} (hent : ent ∈ part) :
    ((annotate parseTime part ent).parentEntityId = none ∨
      (annotate parseTime part ent).parentEntityId =
        (annotate parseTime entities ent).parentEntityId) ↔
      KeepsParent parseTime entities part ent := by
  have hpart : (part.map Entity.id).Nodup := hdistinct.sublist (hsub.map _)
  have hin := hsub.subset hent
  show (parentIn (finalParents parseTime part) ent.id = none ∨
    parentIn (finalParents parseTime part) ent.id =
      parentIn (finalParents parseTime entities) ent.id) ↔ _
  constructor
  · rintro hshown ⟨parent, hchosen⟩ hnot
    have hparent := (tree_parent hpart hent parent.id).2 ⟨hnot, parent, hchosen, rfl⟩
    rw [hparent] at hshown
    have hsame := hshown.resolve_left (fun h => by cases h)
    obtain ⟨hnotAll, other, hother, hid⟩ := (tree_parent hdistinct hin parent.id).1 hsame.symm
    have hmem := (chosenParent_mem hchosen).1
    obtain rfl := List.inj_on_of_nodup_map hdistinct (chosenParent_mem hother).1
      (hsub.subset hmem) hid
    exact ⟨⟨other, hmem, hother⟩, hnotAll⟩
  · intro hkeeps
    rcases hshown : parentIn (finalParents parseTime part) ent.id with - | id
    · exact .inl rfl
    · right
      obtain ⟨hnot, parent, hchosen, rfl⟩ := (tree_parent hpart hent id).1 hshown
      obtain ⟨⟨other, hmem, hother⟩, hnotAll⟩ := hkeeps ⟨parent, hchosen⟩ hnot
      have hsame := chosenParent_of_subset hdistinct hsub hother hmem
      obtain rfl := Option.some.inj (hchosen.symm.trans hsame)
      exact ((tree_parent hdistinct hin parent.id).2 ⟨hnotAll, parent, hother, rfl⟩).symm

end

/-! ### Views -/

section

variable {parseTime : Text → Option ℤ} {lower : Text → Text} {isDigit : Text → Bool}

theorem viewEntities_sublist (entities : List (Entity Id)) (request : ViewRequest Id) :
    (viewEntities parseTime lower isDigit entities request).Sublist entities := by
  rw [viewEntities]
  dsimp only
  split
  · exact List.filter_sublist.trans List.filter_sublist
  · split
    · exact List.filter_sublist.trans List.filter_sublist
    · exact List.filter_sublist

/-- What the response nests under a process are its children in the view. -/
theorem fetchCanonicalTree_links {entities : List (Entity Id)} {request : ViewRequest Id}
    {tree : TreeNode Id}
    (htree : tree ∈ (fetchCanonicalTree parseTime lower isDigit entities request).topLevelNodes)
    {link : Id × Id} (hlink : link ∈ tree.links) :
    ∃ child ∈ buildTreeMetrics parseTime
        (viewEntities parseTime lower isDigit entities request),
      child.entity.id = link.2 ∧ child.parentEntityId = some link.1 := by
  rw [fetchCanonicalTree] at htree
  split at htree
  · split at htree
    · cases htree
    · exact buildTreeResponse_links htree hlink
  · exact buildTreeResponse_links htree hlink

/-- A view shows every process with its parent in the run or none, exactly when its
processes keep their parents. -/
theorem view_invents_no_parent_iff (parseTime : Text → Option ℤ) (lower : Text → Text)
    (isDigit : Text → Bool) (entities : List (Entity Id))
    (hdistinct : (entities.map Entity.id).Nodup) (request : ViewRequest Id) :
    (∀ node ∈ buildTreeMetrics parseTime
        (viewEntities parseTime lower isDigit entities request),
      node.parentEntityId = none ∨
        node.parentEntityId = parentAmong (buildTreeMetrics parseTime entities) node.entity.id) ↔
    ∀ ent ∈ viewEntities parseTime lower isDigit entities request,
      KeepsParent parseTime entities (viewEntities parseTime lower isDigit entities request)
        ent := by
  have hsub : (viewEntities parseTime lower isDigit entities request).Sublist entities :=
    viewEntities_sublist entities request
  have hwhole : ∀ ent ∈ entities, parentAmong (buildTreeMetrics parseTime entities) ent.id =
      (annotate parseTime entities ent).parentEntityId := by
    intro ent hent
    rw [parentAmong_buildTreeMetrics hdistinct]
    rfl
  constructor
  · intro hshown ent hent
    refine (parent_in_part_iff hdistinct hsub hent).1 ?_
    rw [← hwhole ent (hsub.subset hent)]
    exact hshown _ (List.mem_map_of_mem hent)
  · intro hkeeps node hnode
    obtain ⟨ent, hent, rfl⟩ := List.mem_map.1 hnode
    show _ ∨ _ = parentAmong _ ent.id
    rw [hwhole ent (hsub.subset hent)]
    exact (parent_in_part_iff hdistinct hsub hent).2 (hkeeps ent hent)

end

/-! ### A holder of the PID that is promoted -/

/-- The times of the example. -/
def januaryTime (text : Text) : Option ℤ :=
  if text = "2024-01-01".toList then some (738885 * 86400000000)
  else if text = "2024-01-02".toList then some (738886 * 86400000000)
  else if text = "2024-01-03".toList then some (738887 * 86400000000)
  else none

def datedProcess (id : ℕ) (pid ppid : ℤ) (created : String) (listed : Bool) : Entity ℕ :=
  { bareProcess id pid ppid with
    process := { (bareProcess id pid ppid).process with createTime := some created.toList }
    visibility := ⟨listed, !listed, false, false, !listed⟩ }

/-- A PID is used twice, and the later holder, which the list of processes does not have,
starts a process. -/
def reusedPid : List (Entity ℕ) :=
  [datedProcess 1 100 0 "2024-01-01" true, datedProcess 2 100 0 "2024-01-02" false,
    datedProcess 3 200 100 "2024-01-03" true]

/-- In the view of the listed processes, the earlier holder is the parent. -/
theorem listed_view_promotes_holder :
    parentAmong (buildTreeMetrics januaryTime reusedPid) 3 = some 2 ∧
    parentAmong (buildTreeMetrics januaryTime (viewEntities januaryTime (fun text => text)
      (fun _ => false) reusedPid { visibility := some "listed".toList })) 3 = some 1 := by
  decide +kernel

/-- The view of all processes has the parents of the run. -/
theorem whole_view_keeps_parents : (reusedPid.map Entity.id).Nodup ∧
    ∀ node ∈ buildTreeMetrics januaryTime (viewEntities januaryTime (fun text => text)
        (fun _ => false) reusedPid {}),
      node.parentEntityId = none ∨
        node.parentEntityId = parentAmong (buildTreeMetrics januaryTime reusedPid)
          node.entity.id := by
  have hdistinct : (reusedPid.map Entity.id).Nodup := by decide
  refine ⟨hdistinct, (view_invents_no_parent_iff januaryTime (fun text => text) (fun _ => false)
    reusedPid hdistinct {}).2 ?_⟩
  have hall : viewEntities januaryTime (fun text => text) (fun _ => false) reusedPid {} =
      reusedPid := by decide +kernel
  rw [hall]
  rintro ent - ⟨parent, hparent⟩ hnot
  exact ⟨⟨parent, (chosenParent_mem hparent).1, hparent⟩, hnot⟩

/-- The tree has the later holder above the process that it started. -/
theorem third_process_linked : ∃ child ∈ buildTreeMetrics januaryTime (viewEntities januaryTime
      (fun text => text) (fun _ => false) reusedPid {}),
    child.entity.id = 3 ∧ child.parentEntityId = some 2 := by
  obtain ⟨tree, htree, hlink⟩ : ∃ tree ∈ (fetchCanonicalTree januaryTime (fun text => text)
      (fun _ => false) reusedPid {}).topLevelNodes, (2, 3) ∈ tree.links := by decide +kernel
  exact fetchCanonicalTree_links htree hlink

end Kairon.Process

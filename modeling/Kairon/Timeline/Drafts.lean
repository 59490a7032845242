/-
Kairon/Timeline/Drafts.lean

Drafts of the incident timeline (`timeline_service.py`) and what the analyst wrote
into them.

A draft keeps the items it was built with, and an edit of an item lives in the copy
of that item in one draft only.  A build goes through all drafts of the case in the
order of `updated_at`, takes the last edit it meets for every item
(`_carry_over_analyst_edits`), filters and caps the items, and writes them over the
draft of the same options and data.

So the last edit of an item is found again as long as the drafts that are written,
and thereby come last, hold no older copy of an edit, and as long as a draft that is
overwritten holds no edit that would be lost with it.  `Careful` says this of one
step, and `Reached.editsWin` that the last edit of every item is kept and shown along
every run of such steps.

The drafts of a case stand in a list in the order of `updated_at`.  The hashes stand
for what they are taken of.  A payload that is served from the memory of the process
changes nothing and has no step.
-/
import Kairon.Search.Syntax
import Kairon.Lib.Dict
import Kairon.Lib.Latest

namespace Kairon.Timeline

open Search (Text strip)
open Latest

/-! ### Items and edits -/

/-- `INCIDENT_PHASES`. -/
def incidentPhases : List Text :=
  ["initial_access", "execution", "persistence", "privilege_escalation", "defense_evasion",
    "credential_access", "discovery", "lateral_movement", "collection", "command_and_control",
    "exfiltration", "impact", "cleanup", "unknown"].map String.toList

/-- The status an item may be given. -/
def itemStatuses : List Text :=
  ["candidate", "accepted", "dismissed", "needs_review"].map String.toList

/-- `analyst_edits`; a key that is absent is an empty text. -/
structure Edit where
  status : Text
  note : Text
  phase : Text
  deriving DecidableEq

/-- An item of a timeline, with a parsed timestamp. -/
structure Item (T R : Type) where
  id : Text
  timestamp : Option T
  host : Option Text
  phase : Text
  phaseConfidence : Text
  status : Text
  notes : Text
  analystEdits : Option Edit
  rest : R
  deriving DecidableEq

variable {T R F : Type}

/-- `s.rsplit(":", 1)[0]`. -/
def rsplitHead (s : Text) : Text :=
  if ':' ∈ s then ((s.reverse.dropWhile (· ≠ ':')).drop 1).reverse else s

/-- `_incident_item_key`. -/
def Item.key (item : Item T R) : Text := rsplitHead item.id

/-- `_apply_analyst_edit`. -/
def applyAnalystEdit (item : Item T R) (edit : Edit) : Item T R :=
  { item with
    status := if edit.status = [] then item.status else edit.status
    notes := if edit.note = [] then item.notes else edit.note
    phase := if edit.phase ∈ incidentPhases then edit.phase else item.phase
    phaseConfidence := if edit.phase ∈ incidentPhases then "analyst".toList
      else item.phaseConfidence
    analystEdits := some edit }

/-- What the update of an item makes of the edits it has. -/
def mergeEdit (old : Option Edit) (status note phase : Text) : Edit where
  status := if status = [] then old.elim [] Edit.status else status
  note := if note = [] then old.elim [] Edit.note else note
  phase := if phase = [] then old.elim [] Edit.phase else phase

/-! ### Drafts -/

/-- What a draft is built for. -/
structure Options where
  sources : List Text
  hosts : List Text
  phases : List Text
  maxItems : ℕ
  includeLowSignal : Bool
  deriving DecidableEq

/-- A row of `incident_timeline_drafts`.  `curated` says whether its
`summary_metadata` has the summary that an update writes. -/
structure Draft (T R F : Type) where
  id : ℕ
  options : Options
  dataFingerprint : F
  fresh : Bool
  items : List (Item T R)
  curated : Bool
  deriving DecidableEq

/-- The drafts of a case, the one that was updated last at the end. -/
structure Drafts (T R F : Type) where
  drafts : List (Draft T R F)
  nextId : ℕ

/-- The edits of `_carry_over_analyst_edits`: those met later replace those met before. -/
def analystEdits (drafts : List (Draft T R F)) : List (Text × Edit) :=
  (drafts.flatMap Draft.items).foldl (fun edits previous =>
    match previous.analystEdits with
    | some edit => Dict.set previous.key edit edits
    | none => edits) []

/-- The edit that drafts hold for an item. -/
def editOf (drafts : List (Draft T R F)) (key : Text) : Option Edit :=
  Dict.get (analystEdits drafts) key

/-- `_carry_over_analyst_edits`. -/
def carryOverAnalystEdits (drafts : List (Draft T R F)) (items : List (Item T R)) :
    List (Item T R) :=
  items.map fun item => (editOf drafts item.key).elim item (applyAnalystEdit item)

section Build

variable [LinearOrder T] [BoundedOrder T] [DecidableEq R] [DecidableEq F]
variable (lower : Text → Text)

def recencyKey (item : Item T R) : T ×ₗ Text ×ₗ Text :=
  toLex (item.timestamp.getD ⊥, toLex (item.host.getD [], item.phase))

def chronologicalKey (item : Item T R) : T ×ₗ Text ×ₗ Text :=
  toLex (item.timestamp.getD ⊤, toLex (item.host.getD [], item.phase))

/-- `host_filter` and `phase_filter`; an empty filter takes everything. -/
def Options.takes (options : Options) (item : Item T R) : Bool :=
  (options.hosts = [] || lower (strip (item.host.getD [])) ∈ options.hosts) &&
    (options.phases = [] || lower (strip item.phase) ∈ options.phases)

/-- The most recent items that pass the filters, in chronological order. -/
def Options.selected (options : Options) (items : List (Item T R)) : List (Item T R) :=
  (((items.filter (options.takes lower)).mergeSort
    fun a b => recencyKey b ≤ recencyKey a).take options.maxItems).mergeSort
      fun a b => chronologicalKey a ≤ chronologicalKey b

/-- A call of `build_incident_timeline_draft`: its options, and what the sources of the
case give at the time. -/
structure Build (T R F : Type) where
  options : Options
  force : Bool
  dataFingerprint : F
  candidates : List (Item T R)
  built : ∀ item ∈ candidates, item.analystEdits = none

/-- The items of a regenerated draft. -/
def Build.regenerated (build : Build T R F) (drafts : List (Draft T R F)) : List (Item T R) :=
  build.options.selected lower (carryOverAnalystEdits drafts build.candidates)

/-- The draft has the cache key of the build. -/
def Build.Same (build : Build T R F) (draft : Draft T R F) : Prop :=
  draft.options = build.options ∧ draft.dataFingerprint = build.dataFingerprint

/-- The draft is one of `stale_rows`. -/
def Build.Outdates (build : Build T R F) (draft : Draft T R F) : Prop :=
  draft.options = build.options ∧ draft.dataFingerprint ≠ build.dataFingerprint ∧ draft.fresh = true

instance (build : Build T R F) (draft : Draft T R F) : Decidable (build.Same draft) :=
  inferInstanceAs (Decidable (_ ∧ _))

instance (build : Build T R F) (draft : Draft T R F) : Decidable (build.Outdates draft) :=
  inferInstanceAs (Decidable (_ ∧ _ ∧ _))

/-- The order in which a flush writes its rows. -/
abbrev Arrangement (T R F : Type) :=
  { arrange : List (Draft T R F) → List (Draft T R F) // ∀ rows, (arrange rows).Perm rows }

/-- `_persist_incident_draft`. -/
def persistIncidentDraft (arrange : Arrangement T R F) (build : Build T R F)
    (s : Drafts T R F) : Drafts T R F :=
  let existing := s.drafts.find? fun draft => build.Same draft
  let draft : Draft T R F :=
    { id := (existing.map Draft.id).getD s.nextId
      options := build.options
      dataFingerprint := build.dataFingerprint
      fresh := true
      items := build.regenerated lower s.drafts
      curated := false }
  { drafts := s.drafts.filter (fun draft => ¬ build.Same draft ∧ ¬ build.Outdates draft) ++
      arrange.1 ((s.drafts.filter fun draft => build.Outdates draft).map
        (fun draft => { draft with fresh := false }) ++ [draft])
    nextId := if existing.isSome then s.nextId else s.nextId + 1 }

/-- The draft that is served as stale: the last one with the options of the build,
where there is no fresh one. -/
def Build.staleDraft (build : Build T R F) (drafts : List (Draft T R F)) :
    Option (Draft T R F) :=
  (drafts.filter fun draft => draft.options = build.options).getLast?

/-- There is a fresh draft of these options and data. -/
def Build.Served (build : Build T R F) (drafts : List (Draft T R F)) : Prop :=
  ∃ draft ∈ drafts, build.Same draft ∧ draft.fresh = true

/-- The build regenerates its draft. -/
def Build.Regenerates (build : Build T R F) (drafts : List (Draft T R F)) : Prop :=
  build.force = true ∨ (¬ build.Served drafts ∧ build.staleDraft drafts = none)

instance (build : Build T R F) (drafts : List (Draft T R F)) : Decidable (build.Served drafts) :=
  inferInstanceAs (Decidable (∃ draft ∈ drafts, build.Same draft ∧ draft.fresh = true))

instance (build : Build T R F) (drafts : List (Draft T R F)) :
    Decidable (build.Regenerates drafts) := inferInstanceAs (Decidable (_ ∨ _ ∧ _))

/-- A draft is marked stale.  Where it is stale already nothing is written. -/
def markStale (draft : Draft T R F) (s : Drafts T R F) : Drafts T R F :=
  if draft.fresh then
    { s with drafts := s.drafts.filter (fun other => other.id ≠ draft.id) ++
        [{ draft with fresh := false }] }
  else s

/-- `build_incident_timeline_draft`, on the drafts. -/
def buildIncidentTimelineDraft (arrange : Arrangement T R F) (build : Build T R F)
    (s : Drafts T R F) : Drafts T R F :=
  if build.Regenerates s.drafts then persistIncidentDraft lower arrange build s
  else if build.Served s.drafts then s
  else (build.staleDraft s.drafts).elim s fun draft => markStale draft s

end Build

/-! ### Updates -/

section Update

variable [DecidableEq T] [DecidableEq R] [DecidableEq F] (lower : Text → Text)

/-- The loop over the items: the first one with the id is edited. -/
def editFirst (itemId status note phase : Text) :
    List (Item T R) → Option (Item T R × List (Item T R))
  | [] => none
  | item :: items =>
    if item.id = itemId then
      let updated := applyAnalystEdit item (mergeEdit item.analystEdits status note phase)
      some (updated, updated :: items)
    else
      (editFirst itemId status note phase items).map fun found => (found.1, item :: found.2)

/-- What the analyst asks for. -/
structure Request where
  draftId : ℕ
  itemId : Text
  status : Text
  note : Text
  phase : Text

/-- A draft is written if that changes it, and then comes last. -/
def writeDraft (draft : Draft T R F) (items : List (Item T R)) (s : Drafts T R F) :
    Drafts T R F :=
  let written := { draft with items := items, curated := true }
  if written = draft then s
  else { s with drafts := s.drafts.filter (fun other => other.id ≠ draft.id) ++ [written] }

/-- The checks of a request, on the texts it is read as. -/
def requestError (status phase : Text) : Option String :=
  if phase ≠ [] ∧ phase ∉ incidentPhases then some "Invalid timeline item phase"
  else if status ≠ [] ∧ status ∉ itemStatuses then some "Invalid timeline item status"
  else if status = [] ∧ phase = [] then some "Nothing to update: give a status or a phase"
  else none

/-- A request as the update reads it: stripped, status and phase in lower case. -/
def Request.read (request : Request) : Request :=
  { request with
    status := lower (strip request.status)
    note := strip request.note
    phase := lower (strip request.phase) }

/-- `update_incident_timeline_item_status`: the updated item and the drafts. -/
def updateIncidentTimelineItemStatus (request : Request) (s : Drafts T R F) :
    Except String (Item T R × Drafts T R F) :=
  let read := request.read lower
  match requestError read.status read.phase with
  | some message => .error message
  | none =>
    match s.drafts.find? fun draft => draft.id = request.draftId with
    | none => .error "Incident timeline draft not found"
    | some draft =>
      match editFirst request.itemId read.status read.note read.phase draft.items with
      | none => .error "Incident timeline item not found"
      | some (updated, items) => .ok (updated, writeDraft draft items s)

end Update

/-! ### Runs -/

section Runs

variable [LinearOrder T] [BoundedOrder T] [DecidableEq R] [DecidableEq F]
variable (lower : Text → Text)

inductive Op (T R F : Type)
  | build (arrange : Arrangement T R F) (build : Build T R F)
  | update (request : Request)

/-- A step on the drafts; beside them stands the last edit made to each item. -/
def Op.apply : Op T R F → Drafts T R F → (Text → Option Edit) → Drafts T R F × (Text → Option Edit)
  | .build arrange b, s, last => (buildIncidentTimelineDraft lower arrange b s, last)
  | .update request, s, last =>
    match updateIncidentTimelineItemStatus lower request s with
    | .error _ => (s, last)
    | .ok (updated, t) => (t, Function.update last updated.key updated.analystEdits)

/-- Runs whose steps meet a condition, from a case without drafts. -/
inductive Reached (C : Drafts T R F → Op T R F → Prop) :
    Drafts T R F → (Text → Option Edit) → Prop
  | empty : Reached C ⟨[], 0⟩ fun _ => none
  | step {s : Drafts T R F} {last : Text → Option Edit} (h : Reached C s last) (op : Op T R F)
      (hop : C s op) : Reached C (op.apply lower s last).1 (op.apply lower s last).2

/-- The item shows what was edited. -/
structure Shows (edit : Edit) (item : Item T R) : Prop where
  status : edit.status ≠ [] → item.status = edit.status
  note : edit.note ≠ [] → item.notes = edit.note
  phase : edit.phase ≠ [] → item.phase = edit.phase

/-- The last edit of every item is kept, and every regeneration shows it. -/
structure EditsWin (s : Drafts T R F) (last : Text → Option Edit) : Prop where
  kept : ∀ key, editOf s.drafts key = last key
  shown : ∀ build : Build T R F, ∀ item ∈ build.regenerated lower s.drafts,
    ∃ candidate ∈ build.candidates, item.id = candidate.id ∧
      (last candidate.key = none → item = candidate) ∧
      ∀ edit, last candidate.key = some edit → Shows edit item

/-- No edit in the draft is older than the one that the drafts hold. -/
def Current (drafts : List (Draft T R F)) (draft : Draft T R F) : Prop :=
  ∀ item ∈ draft.items, item.analystEdits ≠ none → editOf [draft] item.key = editOf drafts item.key

/-- A build that regenerates marks only current drafts stale, and the edits in the
draft that it replaces are found elsewhere or make it into the new one; a build that
serves a stale draft marks a current one. -/
structure CarefulBuild (build : Build T R F) (drafts : List (Draft T R F)) : Prop where
  outdated : build.Regenerates drafts → ∀ draft ∈ drafts, build.Outdates draft →
    Current drafts draft
  replaced : build.Regenerates drafts → ∀ draft ∈ drafts, build.Same draft →
    ∀ item ∈ draft.items, item.analystEdits ≠ none →
      editOf (drafts.filter fun draft => ¬ build.Same draft) item.key = editOf drafts item.key ∨
        ∃ shown ∈ build.regenerated lower drafts, shown.key = item.key
  stale : ¬ build.Regenerates drafts → ¬ build.Served drafts →
    ∀ draft, build.staleDraft drafts = some draft → draft.fresh = true → Current drafts draft

/-- An update that changes its draft finds the other edits in it current, and no edit of
another item with the same key after the one it changes; one that changes nothing
repeats the last edit. -/
def CarefulUpdate (request : Request) (drafts : List (Draft T R F)) : Prop :=
  requestError (request.read lower).status (request.read lower).phase = none →
  ∀ draft ∈ drafts, draft.id = request.draftId → ∀ before item after,
    draft.items = before ++ item :: after → item.id = request.itemId →
    (∀ other ∈ before, other.id ≠ request.itemId) →
    if draft.curated = true ∧ applyAnalystEdit item (mergeEdit item.analystEdits
        (request.read lower).status (request.read lower).note (request.read lower).phase) =
          item then
      editOf drafts item.key = item.analystEdits
    else
      (∀ other ∈ draft.items, other.analystEdits ≠ none → other.key ≠ item.key →
        editOf [draft] other.key = editOf drafts other.key) ∧
      ∀ other ∈ after, other.key = item.key → other.analystEdits = none

def Careful (s : Drafts T R F) : Op T R F → Prop
  | .build _ build => CarefulBuild lower build s.drafts
  | .update request => CarefulUpdate lower request s.drafts

end Runs

/-! ### The edits that drafts hold -/

theorem editOf_eq (drafts : List (Draft T R F)) (key : Text) : editOf drafts key =
      latest Item.key Item.analystEdits (drafts.flatMap Draft.items) key := by
  rw [editOf, analystEdits]
  induction drafts.flatMap Draft.items using List.reverseRecOn with
  | nil => rfl
  | append_singleton log item ih =>
    rw [List.foldl_append, List.foldl_cons, List.foldl_nil]
    by_cases hkey : item.key = key
    · subst hkey
      rw [latest_concat_self, ← ih]
      rcases hedit : item.analystEdits with - | edit
      · rfl
      · rw [Dict.get_set, if_pos rfl]
        rfl
    · rw [latest_concat_ne hkey, ← ih]
      rcases hedit : item.analystEdits with - | edit
      · rfl
      · rw [Dict.get_set, if_neg hkey]

/-- What a single draft holds. -/
theorem editOf_singleton (draft : Draft T R F) (key : Text) :
    editOf [draft] key = latest Item.key Item.analystEdits draft.items key := by
  rw [editOf_eq, List.flatMap_singleton]

variable {drafts : List (Draft T R F)}

theorem Current.latest {draft : Draft T R F} (h : Current drafts draft) (key : Text) :
    latest Item.key Item.analystEdits draft.items key = none ∨
      Latest.latest Item.key Item.analystEdits draft.items key = editOf drafts key := by
  rcases hlast : Latest.latest Item.key Item.analystEdits draft.items key with - | edit
  · exact .inl rfl
  · obtain ⟨item, hitem, rfl, hedit⟩ := latest_eq_some hlast
    have hcurrent := h item hitem (hedit ▸ nofun)
    rw [editOf_singleton, hlast] at hcurrent
    exact .inr hcurrent

/-! ### One draft is written -/

variable {s : Drafts T R F} {last : Text → Option Edit}

/-- Ids are drawn from a counter. -/
structure Numbered (s : Drafts T R F) : Prop where
  nodup : (s.drafts.map Draft.id).Nodup
  lt : ∀ draft ∈ s.drafts, draft.id < s.nextId

theorem Numbered.eq_of_id (h : Numbered s) {draft other : Draft T R F} (hdraft : draft ∈ s.drafts)
    (hother : other ∈ s.drafts) (hid : other.id = draft.id) : other = draft :=
  List.inj_on_of_nodup_map h.nodup hother hdraft hid

variable {draft written : Draft T R F}

/-- One draft is written under its own id. -/
theorem Numbered.move (h : Numbered s) (hdraft : draft ∈ s.drafts) (hid : written.id = draft.id) :
    Numbered { s with
      drafts := s.drafts.filter (fun other => other.id ≠ draft.id) ++ [written] } := by
  refine ⟨?_, fun other hother => ?_⟩
  · show (List.map _ (List.filter _ _ ++ [written])).Nodup
    rw [List.map_append, List.map_singleton, List.nodup_append_comm, List.singleton_append,
      List.nodup_cons]
    refine ⟨fun hmem => ?_, (List.filter_sublist.map _).nodup h.nodup⟩
    obtain ⟨other, hother, hother'⟩ := List.mem_map.1 hmem
    exact of_decide_eq_true (List.mem_filter.1 hother).2 (hother'.trans hid)
  · rcases List.mem_append.1 hother with hother | hother
    · exact h.lt other (List.mem_filter.1 hother).1
    · rw [List.mem_singleton.1 hother, hid]
      exact h.lt draft hdraft

/-- One draft is written and comes last. -/
theorem editOf_move (h : Numbered s) (hdraft : draft ∈ s.drafts) {key : Text} {edit : Option Edit}
    (hwritten : latest Item.key Item.analystEdits written.items key = none ∨
      latest Item.key Item.analystEdits written.items key = edit)
    (hnone : latest Item.key Item.analystEdits written.items key = none →
      latest Item.key Item.analystEdits draft.items key = none ∧ editOf s.drafts key = edit) :
    editOf (s.drafts.filter (fun other => other.id ≠ draft.id) ++ [written]) key = edit := by
  rw [editOf_eq]
  refine latest_flatMap_append (fun other hother => ?_) fun hmoved => ?_
  · rw [List.mem_singleton.1 hother]
    exact hwritten
  · obtain ⟨hold, hedit⟩ := hnone (hmoved written (List.mem_singleton_self _))
    rw [latest_flatMap_filter, ← editOf_eq, hedit]
    intro other hother hid
    rw [h.eq_of_id hdraft hother (by simpa using hid)]
    exact hold

theorem editOf_markStale (h : Numbered s) {draft : Draft T R F} (hdraft : draft ∈ s.drafts)
    (hcurrent : draft.fresh = true → Current s.drafts draft) (key : Text) :
    editOf (markStale draft s).drafts key = editOf s.drafts key := by
  rw [markStale]
  by_cases hfresh : draft.fresh = true
  · rw [if_pos hfresh]
    exact editOf_move h hdraft ((hcurrent hfresh).latest key) fun hnone => ⟨hnone, rfl⟩
  · rw [if_neg hfresh]

/-! ### Updating an item -/

variable {updated : Item T R}

theorem editFirst_eq_some {itemId status note phase : Text} {items items' : List (Item T R)}
    (h : editFirst itemId status note phase items = some (updated, items')) :
    ∃ before item after, items = before ++ item :: after ∧ item.id = itemId ∧
      (∀ other ∈ before, other.id ≠ itemId) ∧
      updated = applyAnalystEdit item (mergeEdit item.analystEdits status note phase) ∧
      items' = before ++ updated :: after := by
  induction items generalizing items' with
  | nil => cases h
  | cons first items ih =>
    rw [editFirst] at h
    by_cases hid : first.id = itemId
    · rw [if_pos hid] at h
      obtain ⟨rfl, rfl⟩ := Prod.mk.inj (Option.some.inj h)
      exact ⟨[], first, items, rfl, hid, fun _ hmem => absurd hmem List.not_mem_nil, rfl, rfl⟩
    · rw [if_neg hid, Option.map_eq_some_iff] at h
      obtain ⟨⟨found, rest⟩, hrest, heq⟩ := h
      obtain ⟨hfound, hitems⟩ := Prod.mk.inj heq
      rw [show found = updated from hfound] at hrest
      obtain ⟨before, item, after, hsplit, hitem, hbefore, hupdated, hnew⟩ := ih hrest
      refine ⟨first :: before, item, after, by rw [hsplit, List.cons_append], hitem,
        List.forall_mem_cons.2 ⟨hid, hbefore⟩, hupdated, ?_⟩
      rw [← hitems, hnew, List.cons_append]

variable {before after : List (Item T R)}

theorem latest_replace_ne {item updated : Item T R} {key : Text}
    (hitem : item.key ≠ key) (hupdated : updated.key ≠ key) :
    latest Item.key Item.analystEdits (before ++ updated :: after) key =
      latest Item.key Item.analystEdits (before ++ item :: after) key := by
  rw [List.append_cons, List.append_cons before item, latest_append (before ++ [updated]),
    latest_append (before ++ [item]), latest_concat_ne hupdated, latest_concat_ne hitem]

theorem latest_replace_self {edit : Edit} (hedit : updated.analystEdits = some edit)
    (hafter : ∀ other ∈ after, other.key = updated.key → other.analystEdits = none) :
    latest Item.key Item.analystEdits (before ++ updated :: after) updated.key = some edit := by
  rw [List.append_cons, latest_append, latest_eq_none_iff.2 hafter, Option.none_or,
    latest_concat_self, hedit, Option.some_or]

/-- What an accepted update does. -/
theorem update_ok [DecidableEq T] [DecidableEq R] [DecidableEq F] {lower : Text → Text}
    {request : Request} {t : Drafts T R F}
    (h : updateIncidentTimelineItemStatus lower request s = .ok (updated, t)) :
    requestError (request.read lower).status (request.read lower).phase = none ∧
      ∃ draft ∈ s.drafts, draft.id = request.draftId ∧ ∃ before item after,
        draft.items = before ++ item :: after ∧ item.id = request.itemId ∧
        (∀ other ∈ before, other.id ≠ request.itemId) ∧
        updated = applyAnalystEdit item (mergeEdit item.analystEdits
          (request.read lower).status (request.read lower).note (request.read lower).phase) ∧
        t = writeDraft draft (before ++ updated :: after) s := by
  rw [updateIncidentTimelineItemStatus] at h
  rcases herror : requestError (request.read lower).status (request.read lower).phase with
    - | message
  swap
  · rw [herror] at h
    cases h
  rw [herror] at h
  rcases hfound : s.drafts.find? fun draft => draft.id = request.draftId with - | draft
  · rw [hfound] at h
    cases h
  rw [hfound] at h
  dsimp only at h
  rcases hedited : editFirst request.itemId (request.read lower).status (request.read lower).note
    (request.read lower).phase draft.items with - | ⟨updated', items⟩
  · rw [hedited] at h
    cases h
  rw [hedited] at h
  obtain ⟨rfl, rfl⟩ := Prod.mk.inj (Except.ok.inj h)
  have hid := List.find?_some hfound
  obtain ⟨before, item, after, hitems, hitem, hbefore, hupdated, rfl⟩ := editFirst_eq_some hedited
  exact ⟨rfl, draft, List.mem_of_find?_eq_some hfound, of_decide_eq_true hid, before, item, after,
    hitems, hitem, hbefore, hupdated, rfl⟩

/-! ### Valid edits -/

/-- The phase of an edit is one of `INCIDENT_PHASES`, or absent. -/
def Edit.Valid (edit : Edit) : Prop := edit.phase = [] ∨ edit.phase ∈ incidentPhases

theorem editOf_valid
    (h : ∀ draft ∈ drafts, ∀ item ∈ draft.items, ∀ edit, item.analystEdits = some edit →
      edit.Valid) {key : Text} {edit : Edit} (hedit : editOf drafts key = some edit) :
    edit.Valid := by
  rw [editOf_eq] at hedit
  obtain ⟨item, hitem, -, hitem'⟩ := latest_eq_some hedit
  obtain ⟨draft, hdraft, hitem⟩ := List.mem_flatMap.1 hitem
  exact h draft hdraft item hitem edit hitem'

theorem requestError_phase {status phase : Text} (h : requestError status phase = none) :
    phase = [] ∨ phase ∈ incidentPhases := by
  rw [requestError] at h
  split_ifs at h with hphase
  by_cases hnil : phase = []
  · exact .inl hnil
  · exact .inr (not_not.1 fun hmem => hphase ⟨hnil, hmem⟩)

theorem mergeEdit_valid {old : Option Edit} {status note phase : Text}
    (hphase : phase = [] ∨ phase ∈ incidentPhases) (hold : ∀ edit, old = some edit → edit.Valid) :
    (mergeEdit old status note phase).Valid := by
  rw [Edit.Valid, mergeEdit]
  dsimp only
  split_ifs with hnil
  · rcases old with - | edit
    · exact .inl rfl
    · exact hold edit rfl
  · exact hphase

/-! ### The invariant of a run -/

/-- The drafts hold the last edit of every item, and all edits are valid. -/
structure Kept (s : Drafts T R F) (last : Text → Option Edit) : Prop extends Numbered s where
  kept : ∀ key, editOf s.drafts key = last key
  valid : ∀ draft ∈ s.drafts, ∀ item ∈ draft.items, ∀ edit, item.analystEdits = some edit →
    edit.Valid

/-! ### Regenerated items -/

section Proofs

variable [LinearOrder T] [BoundedOrder T] {lower : Text → Text}

theorem Options.mem_of_selected {options : Options} {items : List (Item T R)} {item : Item T R}
    (h : item ∈ options.selected lower items) : item ∈ items := by
  rw [Options.selected, List.mem_mergeSort] at h
  exact (List.mem_filter.1 (List.mem_mergeSort.1 (List.mem_of_mem_take h))).1

/-- A regenerated item is a candidate with the edit that the drafts hold for it. -/
theorem Build.mem_regenerated {build : Build T R F} {drafts : List (Draft T R F)}
    {item : Item T R} (h : item ∈ build.regenerated lower drafts) :
    ∃ candidate ∈ build.candidates, item.id = candidate.id ∧
      item.analystEdits = editOf drafts item.key ∧
      item = (editOf drafts candidate.key).elim candidate (applyAnalystEdit candidate) := by
  obtain ⟨candidate, hcandidate, rfl⟩ := List.mem_map.1 (Options.mem_of_selected h)
  refine ⟨candidate, hcandidate, ?_⟩
  rcases hedit : editOf drafts candidate.key with - | edit
  · exact ⟨rfl, (build.built candidate hcandidate).trans hedit.symm, rfl⟩
  · exact ⟨rfl, hedit.symm, rfl⟩

/-- The new draft holds what the drafts held, for the items it has. -/
theorem Build.latest_regenerated (build : Build T R F) (drafts : List (Draft T R F))
    (key : Text) :
    latest Item.key Item.analystEdits (build.regenerated lower drafts) key = none ∨
      latest Item.key Item.analystEdits (build.regenerated lower drafts) key =
        editOf drafts key := by
  refine latest_eq_of_forall fun item hitem hkey => ?_
  obtain ⟨candidate, -, -, hedit, -⟩ := Build.mem_regenerated hitem
  rw [hedit, hkey]

theorem Kept.wins (h : Kept s last) : EditsWin lower s last := by
  refine ⟨h.kept, fun build item hitem => ?_⟩
  obtain ⟨candidate, hcandidate, hid, -, hitem⟩ := Build.mem_regenerated hitem
  rw [h.kept] at hitem
  refine ⟨candidate, hcandidate, hid, fun hnone => ?_, fun edit hedit => ?_⟩
  · rw [hitem, hnone]
    rfl
  · rw [hedit] at hitem
    have hvalid : edit.Valid := editOf_valid h.valid ((h.kept candidate.key).trans hedit)
    rw [hitem]
    exact ⟨fun hstatus => if_neg hstatus, fun hnote => if_neg hnote,
      fun hphase => if_pos (hvalid.resolve_left hphase)⟩

variable [DecidableEq F]

variable {arrange : Arrangement T R F}

theorem editOf_persist {build : Build T R F}
    (hcareful : CarefulBuild lower build s.drafts) (hregen : build.Regenerates s.drafts)
    (key : Text) :
    editOf (persistIncidentDraft lower arrange build s).drafts key = editOf s.drafts key := by
  rw [editOf_eq]
  refine latest_flatMap_append (fun draft hdraft => ?_) fun hnone => ?_
  · -- the drafts that are written
    rcases List.mem_append.1 ((arrange.2 _).mem_iff.1 hdraft) with hstale | hnew
    · obtain ⟨old, hold, rfl⟩ := List.mem_map.1 hstale
      obtain ⟨hold, houtdates⟩ := List.mem_filter.1 hold
      exact (hcareful.outdated hregen old hold (of_decide_eq_true houtdates)).latest key
    · rw [List.mem_singleton.1 hnew]
      exact build.latest_regenerated s.drafts key
  · -- none of them holds an edit of the item: what is left holds the last one
    have hstale : ∀ draft ∈ s.drafts, build.Outdates draft →
        latest Item.key Item.analystEdits draft.items key = none := fun draft hdraft hout =>
      hnone { draft with fresh := false } ((arrange.2 _).mem_iff.2 (List.mem_append_left _
        (List.mem_map.2 ⟨draft, List.mem_filter.2 ⟨hdraft, decide_eq_true hout⟩, rfl⟩)))
    have hnew : latest Item.key Item.analystEdits (build.regenerated lower s.drafts) key =
        none := hnone _ ((arrange.2 _).mem_iff.2 (List.mem_append_right _
          (List.mem_singleton_self _)))
    have hsplit : (s.drafts.filter fun draft => ¬ build.Same draft ∧ ¬ build.Outdates draft) =
        (s.drafts.filter fun draft => ¬ build.Same draft).filter
          fun draft => ¬ build.Outdates draft := by
      rw [List.filter_filter]
      refine List.filter_congr fun draft _ => ?_
      rw [Bool.decide_and, Bool.and_comm]
    rw [hsplit, latest_flatMap_filter fun draft hdraft hout => hstale draft
      (List.mem_filter.1 hdraft).1 (by simpa using hout)]
    by_cases hheld : ∀ draft ∈ s.drafts, build.Same draft →
        latest Item.key Item.analystEdits draft.items key = none
    · rw [editOf_eq, latest_flatMap_filter fun draft hdraft hsame =>
        hheld draft hdraft (by simpa using hsame)]
    · push Not at hheld
      obtain ⟨draft, hdraft, hsame, hheld⟩ := hheld
      obtain ⟨edit, hlast⟩ := Option.ne_none_iff_exists'.1 hheld
      obtain ⟨item, hitem, rfl, hedit⟩ := latest_eq_some hlast
      have hsome : item.analystEdits ≠ none := hedit ▸ nofun
      rcases hcareful.replaced hregen draft hdraft hsame item hitem hsome with hother | hshown
      · rw [← editOf_eq, hother]
      · -- the item is in the new draft, with the edit
        obtain ⟨shown, hshown, hkey⟩ := hshown
        obtain ⟨candidate, -, -, hcarried, -⟩ := Build.mem_regenerated hshown
        have hfound : editOf s.drafts item.key ≠ none := by
          rw [editOf_eq]
          exact latest_isSome (List.mem_flatMap.2 ⟨draft, hdraft, hitem⟩) hsome
        rw [latest_eq_none_iff] at hnew
        rw [hnew shown hshown hkey, hkey] at hcarried
        exact absurd hcarried.symm hfound

theorem mem_persist {build : Build T R F} {draft : Draft T R F}
    (h : draft ∈ (persistIncidentDraft lower arrange build s).drafts) :
    draft ∈ s.drafts ∨ (∃ old ∈ s.drafts, draft = { old with fresh := false }) ∨
      draft.items = build.regenerated lower s.drafts := by
  rcases List.mem_append.1 h with hrest | hwritten
  · exact .inl (List.mem_filter.1 hrest).1
  · rcases List.mem_append.1 ((arrange.2 _).mem_iff.1 hwritten) with hstale | hnew
    · obtain ⟨old, hold, rfl⟩ := List.mem_map.1 hstale
      exact .inr (.inl ⟨old, (List.mem_filter.1 hold).1, rfl⟩)
    · rw [List.mem_singleton.1 hnew]
      exact .inr (.inr rfl)

theorem Numbered.persist (h : Numbered s) (arrange : Arrangement T R F) (build : Build T R F) :
    Numbered (persistIncidentDraft lower arrange build s) := by
  -- the id of the new draft: the one of the draft it replaces, or a new one
  obtain ⟨id, hid, hlt, hfree⟩ : ∃ id, id = ((s.drafts.find? fun draft =>
      build.Same draft).map Draft.id).getD s.nextId ∧
      id < (persistIncidentDraft lower arrange build s).nextId ∧
      ∀ draft ∈ s.drafts, ¬ build.Same draft → draft.id ≠ id := by
    refine ⟨_, rfl, ?_⟩
    rw [persistIncidentDraft]
    rcases hfound : s.drafts.find? fun draft => build.Same draft with - | old
    · exact ⟨Nat.lt_succ_self _, fun draft hdraft _ => (h.lt draft hdraft).ne⟩
    · have hold := List.mem_of_find?_eq_some hfound
      have hsame := List.find?_some hfound
      refine ⟨h.lt old hold, fun draft hdraft hdiff heq => hdiff ?_⟩
      rw [h.eq_of_id hold hdraft heq]
      exact of_decide_eq_true hsame
  have hnext : s.nextId ≤ (persistIncidentDraft lower arrange build s).nextId := by
    rw [persistIncidentDraft]
    dsimp only
    split_ifs
    · exact le_rfl
    · exact Nat.le_succ _
  refine ⟨?_, fun draft hdraft => ?_⟩
  · show (List.map Draft.id (s.drafts.filter _ ++ arrange.1 _)).Nodup
    refine (((arrange.2 _).append_left _).map Draft.id).nodup_iff.2 ?_
    rw [List.map_append, List.map_append, List.map_map, List.map_singleton, ← hid]
    refine List.Nodup.append ((List.filter_sublist.map _).nodup h.nodup) ?_ ?_
    · rw [List.nodup_append_comm, List.singleton_append, List.nodup_cons]
      refine ⟨fun hmem => ?_, (List.filter_sublist.map _).nodup h.nodup⟩
      obtain ⟨old, hold, hold'⟩ := List.mem_map.1 hmem
      obtain ⟨hold, hout⟩ := List.mem_filter.1 hold
      exact hfree old hold (fun hsame => (of_decide_eq_true hout).2.1 hsame.2) hold'
    · intro x hx hx'
      obtain ⟨draft, hdraft, rfl⟩ := List.mem_map.1 hx
      obtain ⟨hdraft, hrest⟩ := List.mem_filter.1 hdraft
      obtain ⟨hdiff, hkept⟩ := of_decide_eq_true hrest
      rcases List.mem_append.1 hx' with hstale | hnew
      · obtain ⟨old, hold, hold'⟩ := List.mem_map.1 hstale
        obtain ⟨hold, hout⟩ := List.mem_filter.1 hold
        rw [h.eq_of_id hdraft hold hold'] at hout
        exact hkept (of_decide_eq_true hout)
      · exact hfree draft hdraft hdiff (List.mem_singleton.1 hnew)
  · rcases List.mem_append.1 hdraft with hrest | hwritten
    · exact (h.lt draft (List.mem_filter.1 hrest).1).trans_le hnext
    · rcases List.mem_append.1 ((arrange.2 _).mem_iff.1 hwritten) with hstale | hnew
      · obtain ⟨old, hold, rfl⟩ := List.mem_map.1 hstale
        exact (h.lt old (List.mem_filter.1 hold).1).trans_le hnext
      · rw [List.mem_singleton.1 hnew]
        show Option.getD _ _ < _
        rw [← hid]
        exact hlt

theorem Kept.build (h : Kept s last) {build : Build T R F}
    (hcareful : CarefulBuild lower build s.drafts) :
    Kept (buildIncidentTimelineDraft lower arrange build s) last := by
  rw [buildIncidentTimelineDraft]
  by_cases hregen : build.Regenerates s.drafts
  · rw [if_pos hregen]
    refine ⟨h.toNumbered.persist arrange build,
      fun key => (editOf_persist hcareful hregen key).trans (h.kept key),
      fun draft hdraft item hitem edit hedit => ?_⟩
    rcases mem_persist hdraft with hold | ⟨old, hold, rfl⟩ | hnew
    · exact h.valid draft hold item hitem edit hedit
    · exact h.valid old hold item hitem edit hedit
    · rw [hnew] at hitem
      obtain ⟨-, -, -, hcarried, -⟩ := Build.mem_regenerated hitem
      exact editOf_valid h.valid (hcarried.symm.trans hedit)
  rw [if_neg hregen]
  by_cases hserved : build.Served s.drafts
  · rw [if_pos hserved]
    exact h
  rw [if_neg hserved]
  rcases hstale : build.staleDraft s.drafts with - | draft
  · exact h
  have hdraft : draft ∈ s.drafts := (List.mem_filter.1 (List.mem_of_getLast? hstale)).1
  refine ⟨?_, fun key => (editOf_markStale h.toNumbered hdraft
    (hcareful.stale hregen hserved draft hstale) key).trans (h.kept key), ?_⟩
  · show Numbered (markStale draft s)
    rw [markStale]
    split_ifs
    · exact h.toNumbered.move hdraft rfl
    · exact h.toNumbered
  · show ∀ other ∈ (markStale draft s).drafts, _
    rw [markStale]
    split_ifs
    · intro other hother
      rcases List.mem_append.1 hother with hother | hother
      · exact h.valid other (List.mem_filter.1 hother).1
      · rw [List.mem_singleton.1 hother]
        exact h.valid draft hdraft
    · exact h.valid

/-! ### Runs of updates and builds -/

variable [DecidableEq R]

omit [BoundedOrder T] in
theorem editOf_update (h : Numbered s) {request : Request} {updated : Item T R}
    {t : Drafts T R F} (hcareful : CarefulUpdate lower request s.drafts)
    (hrun : updateIncidentTimelineItemStatus lower request s = .ok (updated, t)) (key : Text) :
    editOf t.drafts key = Function.update (editOf s.drafts) updated.key updated.analystEdits key := by
  obtain ⟨herror, draft, hdraft, hid, before, item, after, hitems, hitem, hbefore, hupdated, rfl⟩ :=
    update_ok hrun
  have hkeys : updated.key = item.key := hupdated ▸ rfl
  have hcond := hcareful herror draft hdraft hid before item after hitems hitem hbefore
  rw [← hupdated] at hcond
  rw [writeDraft]
  have hsame : ({ draft with items := before ++ updated :: after, curated := true } :
      Draft T R F) = draft ↔ draft.curated = true ∧ updated = item := by
    constructor
    · intro heq
      refine ⟨(congrArg Draft.curated heq).symm, ?_⟩
      have hlist := congrArg Draft.items heq
      rw [hitems] at hlist
      exact (List.cons.inj (List.append_cancel_left hlist)).1
    · rintro ⟨hcurated, rfl⟩
      rw [← hitems, ← hcurated]
  by_cases hunchanged : draft.curated = true ∧ updated = item
  · rw [if_pos hunchanged] at hcond
    rw [if_pos (hsame.2 hunchanged)]
    by_cases hkey : key = updated.key
    · rw [hkey, Function.update_self, hkeys, hcond, hunchanged.2]
    · rw [Function.update_of_ne hkey]
  · rw [if_neg hunchanged] at hcond
    rw [if_neg fun heq => hunchanged (hsame.1 heq)]
    obtain ⟨hothers, hafter⟩ := hcond
    by_cases hkey : key = updated.key
    · subst hkey
      have hlatest : latest Item.key Item.analystEdits (before ++ updated :: after) updated.key =
          some (mergeEdit item.analystEdits (request.read lower).status (request.read lower).note
            (request.read lower).phase) :=
        latest_replace_self (by rw [hupdated]; rfl) (hkeys ▸ hafter)
      rw [Function.update_self]
      refine editOf_move h hdraft (.inr ?_) fun hnone => ?_
      · rw [hlatest, hupdated]
        rfl
      · rw [hlatest] at hnone
        cases hnone
    · have hne : item.key ≠ key := fun heq => hkey (heq ▸ hkeys.symm)
      rw [Function.update_of_ne hkey]
      have hlatest : latest Item.key Item.analystEdits (before ++ updated :: after) key =
          latest Item.key Item.analystEdits draft.items key := by
        rw [hitems, latest_replace_ne hne (hkeys ▸ hne)]
      refine editOf_move h hdraft ?_ fun hnone => ⟨hlatest ▸ hnone, rfl⟩
      rw [hlatest]
      rcases hlast : latest Item.key Item.analystEdits draft.items key with - | edit
      · exact .inl rfl
      · obtain ⟨other, hother, rfl, hedit⟩ := latest_eq_some hlast
        have hcurrent := hothers other hother (hedit ▸ nofun) fun heq => hne heq.symm
        rw [editOf_singleton, hlast] at hcurrent
        exact .inr hcurrent

omit [BoundedOrder T] in
theorem Kept.update (h : Kept s last) {request : Request} {updated : Item T R}
    {t : Drafts T R F} (hcareful : CarefulUpdate lower request s.drafts)
    (hrun : updateIncidentTimelineItemStatus lower request s = .ok (updated, t)) :
    Kept t (Function.update last updated.key updated.analystEdits) := by
  have hkept : ∀ key, editOf t.drafts key =
      Function.update last updated.key updated.analystEdits key := fun key => by
    rw [editOf_update h.toNumbered hcareful hrun, show editOf s.drafts = last from funext h.kept]
  obtain ⟨herror, draft, hdraft, -, before, item, after, hitems, -, -, hupdated, rfl⟩ :=
    update_ok hrun
  have hitem : ∀ {x}, x ∈ draft.items ↔ x ∈ before ∨ x = item ∨ x ∈ after := by
    rw [hitems]
    simp
  have hvalid : ∀ edit, updated.analystEdits = some edit → edit.Valid := by
    intro edit hedit
    rw [hupdated] at hedit
    rw [← Option.some.inj hedit]
    exact mergeEdit_valid (requestError_phase herror)
      (h.valid draft hdraft item (hitem.2 (.inr (.inl rfl))))
  rw [writeDraft] at hkept ⊢
  split_ifs at hkept ⊢ with hsame
  · exact ⟨h.toNumbered, hkept, h.valid⟩
  · refine ⟨h.toNumbered.move hdraft rfl, hkept, fun other hother x hx => ?_⟩
    rcases List.mem_append.1 hother with hother | hother
    · exact h.valid other (List.mem_filter.1 hother).1 x hx
    · rw [List.mem_singleton.1 hother] at hx
      rcases List.mem_append.1 hx with hx | hx
      · exact h.valid draft hdraft x (hitem.2 (.inl hx))
      · rcases List.mem_cons.1 hx with rfl | hx
        · exact hvalid
        · exact h.valid draft hdraft x (hitem.2 (.inr (.inr hx)))

/-- **The last edit wins along every careful run**: the drafts hold it for every item,
and every regeneration shows it. -/
theorem Reached.editsWin (h : Reached lower (Careful lower) s last) : EditsWin lower s last := by
  refine Kept.wins ?_
  induction h with
  | empty =>
    exact ⟨⟨List.nodup_nil, fun _ hmem => absurd hmem List.not_mem_nil⟩, fun _ => rfl,
      fun _ hmem => absurd hmem List.not_mem_nil⟩
  | @step s last _ op hop ih =>
    cases op with
    | build arrange build => exact ih.build hop
    | update request =>
      rw [Op.apply]
      rcases hrun : updateIncidentTimelineItemStatus lower request s with
        message | ⟨updated, t⟩
      · exact ih
      · exact ih.update hop hrun

end Proofs

/-! #### A draft that shows one phase -/

/-- A finding on a host, taken for an execution. -/
def seen : Item (Fin 3) Unit where
  id := "finding:1:pc:execution".toList
  timestamp := some 1
  host := some "pc".toList
  phase := "execution".toList
  phaseConfidence := "low".toList
  status := "candidate".toList
  notes := []
  analystEdits := none
  rest := ()

theorem seen_unedited : ∀ item ∈ [seen], item.analystEdits = none := fun item hitem => by
  rw [List.mem_singleton.1 hitem]
  rfl

def buildOf (phases : List Text) : Build (Fin 3) Unit ℕ where
  options := ⟨[], [], phases, 60, false⟩
  force := true
  dataFingerprint := 0
  candidates := [seen]
  built := seen_unedited

def asWritten : Arrangement (Fin 3) Unit ℕ := ⟨id, fun _ => .refl _⟩

/-- The analyst takes it for persistence. -/
def corrected : Request where
  draftId := 0
  itemId := seen.id
  status := []
  note := []
  phase := "persistence".toList

/-- After a first build, and after the correction in its draft. -/
def afterBuild (phases : List Text) : Drafts (Fin 3) Unit ℕ × (Text → Option Edit) :=
  (Op.build asWritten (buildOf phases)).apply id ⟨[], 0⟩ fun _ => none

def afterCorrection (phases : List Text) : Drafts (Fin 3) Unit ℕ × (Text → Option Edit) :=
  (Op.update corrected).apply id (afterBuild phases).1 (afterBuild phases).2

/-- After the draft was regenerated for some phases. -/
def afterRebuild (phases phases' : List Text) :
    Drafts (Fin 3) Unit ℕ × (Text → Option Edit) :=
  (Op.build asWritten (buildOf phases')).apply id
    (afterCorrection phases).1 (afterCorrection phases).2

theorem carefulBuild_of_new {build : Build (Fin 3) Unit ℕ} {drafts : List (Draft (Fin 3) Unit ℕ)}
    (hforce : build.force = true) (hnew : ∀ draft ∈ drafts, draft.options ≠ build.options) :
    CarefulBuild id build drafts where
  outdated := fun _ draft hdraft hout => absurd hout.1 (hnew draft hdraft)
  replaced := fun _ draft hdraft hsame => absurd hsame.1 (hnew draft hdraft)
  stale := fun hregen => absurd (.inl hforce) hregen

/-- A draft of all phases, corrected, and then one of another phase. -/
theorem correction_kept : EditsWin id (afterRebuild [] ["persistence".toList]).1
    (afterRebuild [] ["persistence".toList]).2 := by
  have hfirst : Careful id (⟨[], 0⟩ : Drafts (Fin 3) Unit ℕ) (.build asWritten (buildOf [])) :=
    carefulBuild_of_new rfl fun _ hmem => absurd hmem List.not_mem_nil
  have hthird : Careful id (afterCorrection []).1
      (.build asWritten (buildOf ["persistence".toList])) :=
    carefulBuild_of_new rfl (by decide +kernel)
  have hsecond : Careful id (afterBuild []).1 (.update corrected) := by
    -- the draft has this one item, and no edits yet
    have hone : ∀ draft ∈ (afterBuild []).1.drafts,
        draft.items = [seen] ∧ draft.curated = false := by decide +kernel
    intro _ draft hdraft _ before item after hitems _ _
    rw [(hone draft hdraft).1] at hitems
    rw [if_neg fun h => absurd h.1 (by rw [(hone draft hdraft).2]; nofun)]
    refine ⟨fun other hother hedit => ?_, fun other hother _ => ?_⟩
    · rw [(hone draft hdraft).1, List.mem_singleton] at hother
      rw [hother] at hedit
      exact absurd rfl hedit
    · have hmem : other ∈ [seen] := hitems ▸ List.mem_append_right _ (.tail _ hother)
      rw [List.mem_singleton.1 hmem]
      rfl
  exact Reached.editsWin (.step (.step (.step .empty _ hfirst) _ hsecond) _ hthird)

/-- **A correction is lost with the draft it was made in**: the draft shows one phase,
the item leaves it, and the next build writes over the only copy of the edit. -/
theorem correction_lost :
    Reached id (fun _ _ => True) (afterRebuild ["execution".toList] ["execution".toList]).1
        (afterRebuild ["execution".toList] ["execution".toList]).2 ∧
      ¬ EditsWin id (afterRebuild ["execution".toList] ["execution".toList]).1
        (afterRebuild ["execution".toList] ["execution".toList]).2 := by
  refine ⟨.step (.step (.step .empty _ trivial) _ trivial) _ trivial, fun h => ?_⟩
  have hkept := h.kept seen.key
  revert hkept
  decide +kernel

end Kairon.Timeline

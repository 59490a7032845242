/-
Kairon/Detections/Bursts.lean

What the bursts of renamed files are.

`Noted` says what the dictionaries hold after some events, in terms of
`Earliest`, which does not depend on their order; `note_noted` is the step of
the loop and `foldlM_noted` the loop.  The rest is about one group: its files
are sorted and swept, and `Lib/Sweep.lean` says what comes of it.

`bursts_sound_complete_stable` puts it together, for events whose timestamps
carry an offset.
-/
import Kairon.Detections.MassEncryption
import Kairon.Lib.Settle

namespace Kairon.Detections

open Search (Text strip PyDateTime PyError)
open Sweep

/-! ### What is noted -/

section Noted

variable (lower : Text → Text) (fromIsoFormat : Text → Option PyDateTime)

/-- The earliest record of a file of a group is at a time. -/
def Earliest (events : List FileEvent) (group : Text × Text) (path : Text) (t : ℤ) : Prop :=
  (∃ event ∈ events, ∃ r, event.renamed lower fromIsoFormat = some r ∧ r.group = group ∧
    r.path = path ∧ r.moment.shifted = t) ∧
  ∀ event ∈ events, ∀ r, event.renamed lower fromIsoFormat = some r → r.group = group →
    r.path = path → t ≤ r.moment.shifted

/-- The timestamps carry an offset. -/
def Carry (events : List FileEvent) : Prop :=
  ∀ event ∈ events, ∀ moment, parseTime fromIsoFormat event.timestamp = some moment →
    moment.offset.isSome

variable {lower fromIsoFormat}

variable {events : List FileEvent} {group : Text × Text} {path : Text}

theorem Earliest.unique {t u : ℤ} (ht : Earliest lower fromIsoFormat events group path t)
    (hu : Earliest lower fromIsoFormat events group path u) : t = u := by
  obtain ⟨⟨a, ha, r, hr, hrg, hrp, rfl⟩, htle⟩ := ht
  obtain ⟨⟨b, hb, s, hs, hsg, hsp, rfl⟩, hule⟩ := hu
  exact le_antisymm (htle b hb s hs hsg hsp) (hule a ha r hr hrg hrp)

theorem Earliest.perm {events events' : List FileEvent} (h : events.Perm events') {t : ℤ}
    (ht : Earliest lower fromIsoFormat events group path t) :
    Earliest lower fromIsoFormat events' group path t := by
  obtain ⟨⟨a, ha, hrecord⟩, htle⟩ := ht
  exact ⟨⟨a, h.subset ha, hrecord⟩, fun b hb => htle b (h.symm.subset hb)⟩

variable {event : FileEvent} {r : Renamed}

theorem renamed_offset (hcarry : Carry fromIsoFormat events) (hevent : event ∈ events)
    (hr : event.renamed lower fromIsoFormat = some r) : r.moment.offset.isSome := by
  rw [FileEvent.renamed, Option.bind_eq_bind, Option.bind_eq_some_iff] at hr
  obtain ⟨⟨named, appended⟩, -, hr⟩ := hr
  simp only [Option.bind_eq_bind, Option.bind_eq_some_iff] at hr
  obtain ⟨moment, hmoment, hr⟩ := hr
  obtain rfl := Option.some.inj hr
  exact hcarry event hevent moment hmoment

theorem renamed_path
    (hr : event.renamed lower fromIsoFormat = some r) : r.path = event.pathKey lower := by
  rw [FileEvent.renamed, Option.bind_eq_bind, Option.bind_eq_some_iff] at hr
  obtain ⟨⟨named, appended⟩, -, hr⟩ := hr
  simp only [Option.bind_eq_bind, Option.bind_eq_some_iff] at hr
  obtain ⟨moment, -, hr⟩ := hr
  obtain rfl := Option.some.inj hr
  rfl

/-- What is held for a file of a group. -/
def heldAt (groups : Groups) (group : Text × Text) (path : Text) : Option Held :=
  (Dict.get groups group).bind fun files => Dict.get files path

variable (lower fromIsoFormat)

/-- What the dictionaries hold after some events. -/
structure Noted (events : List FileEvent) (groups : Groups) : Prop where
  groups_nodup : (groups.map Prod.fst).Nodup
  files_nodup : ∀ entry ∈ groups, (entry.2.map Prod.fst).Nodup
  files_ne_nil : ∀ entry ∈ groups, entry.2 ≠ []
  earliest : ∀ group path held, heldAt groups group path = some held →
    Earliest lower fromIsoFormat events group path (Held.time held)
  aware : ∀ group path held, heldAt groups group path = some held → held.1.offset.isSome
  keyed : ∀ group path held, heldAt groups group path = some held → held.2.pathKey lower = path
  covers : ∀ event ∈ events, ∀ r, event.renamed lower fromIsoFormat = some r →
    (heldAt groups r.group r.path).isSome

variable {lower fromIsoFormat}

variable {groups : Groups} {files : Files}

theorem heldAt_set {group name : Text × Text} : heldAt (Dict.set group files groups) name path =
      if group = name then Dict.get files path else heldAt groups name path := by
  rw [heldAt, Dict.get_set]
  split <;> rfl

theorem heldAt_getD :
    Dict.get ((Dict.get groups group).getD []) path = heldAt groups group path := by
  rw [heldAt]
  rcases Dict.get groups group with - | files
  · rfl
  · rfl

/-- What noting a record does to the files of its group, where all moments have an
offset. -/
def noted (files : Files) (r : Renamed) (event : FileEvent) : Files :=
  match Dict.get files r.path with
  | none => Dict.set r.path (r.moment, event) files
  | some held =>
    if r.moment.shifted < Held.time held then Dict.set r.path (r.moment, event) files else files

theorem noteFile_eq (hr : r.moment.offset.isSome)
    (hfiles : ∀ held, Dict.get files r.path = some held → held.1.offset.isSome) :
    noteFile files r event = .ok (noted files r event) := by
  rw [noteFile, noted]
  rcases hget : Dict.get files r.path with - | held
  · rfl
  · have hbefore : isBefore r.moment held.1 = .ok (decide (r.moment.shifted < Held.time held)) := by
      rw [isBefore, if_pos (hr.trans (hfiles held hget).symm)]
      rfl
    show (do if ← isBefore r.moment held.1 then
      pure (Dict.set r.path (r.moment, event) files) else pure files) =
        Except.ok (if r.moment.shifted < Held.time held then _ else _)
    rw [hbefore]
    by_cases hlt : r.moment.shifted < Held.time held
    · rw [if_pos hlt, decide_eq_true hlt]
      rfl
    · rw [if_neg hlt, decide_eq_false hlt]
      rfl

theorem get_noted : Dict.get (noted files r event) path =
      if r.path = path ∧ (∀ held, Dict.get files path = some held →
        r.moment.shifted < Held.time held) then some (r.moment, event)
      else Dict.get files path := by
  by_cases hpath : r.path = path
  · subst hpath
    rcases hget : Dict.get files r.path with - | held
    · rw [if_pos ⟨rfl, nofun⟩, noted, hget]
      show Dict.get (Dict.set r.path (r.moment, event) files) r.path = _
      rw [Dict.get_set, if_pos rfl]
    · rw [noted, hget]
      show Dict.get (if r.moment.shifted < Held.time held then _ else _) r.path = _
      by_cases hlt : r.moment.shifted < Held.time held
      · rw [if_pos hlt, Dict.get_set, if_pos rfl, if_pos]
        exact ⟨rfl, fun other hother => Option.some.inj hother ▸ hlt⟩
      · rw [if_neg hlt, hget, if_neg fun h => hlt (h.2 held rfl)]
  · rw [if_neg fun h => hpath h.1, noted]
    split
    · rw [Dict.get_set, if_neg hpath]
    · split
      · rw [Dict.get_set, if_neg hpath]
      · rfl

theorem keys_noted
    (h : (files.map Prod.fst).Nodup) : ((noted files r event).map Prod.fst).Nodup := by
  rw [noted]
  split
  · exact Dict.nodup_keys_set _ _ h
  · split
    · exact Dict.nodup_keys_set _ _ h
    · exact h

theorem noted_ne_nil : noted files r event ≠ [] := by
  intro hnil
  have hget := @get_noted r.path event r files
  rw [hnil] at hget
  split at hget
  · exact absurd hget.symm (Option.some_ne_none _)
  · rename_i hold
    refine hold ⟨rfl, fun held hheld => ?_⟩
    rw [hheld] at hget
    exact absurd hget.symm (Option.some_ne_none _)

/-- The record of an event is held, or an earlier one of the same file is. -/
theorem note_eq (h : Noted lower fromIsoFormat events groups)
    (hr : event.renamed lower fromIsoFormat = some r) (hoffset : r.moment.offset.isSome) :
    note lower fromIsoFormat groups event =
      .ok (Dict.set r.group (noted ((Dict.get groups r.group).getD []) r event) groups) := by
  have hfile := @noteFile_eq event r ((Dict.get groups r.group).getD []) hoffset
    fun held hheld => h.aware r.group r.path held (heldAt_getD ▸ hheld)
  rw [note, hr]
  show (do
    let files ← noteFile ((Dict.get groups r.group).getD []) r event
    pure (Dict.set r.group files groups)) = _
  rw [hfile]
  rfl

/-- What is held after one more record. -/
theorem heldAt_note :
    heldAt (Dict.set r.group (noted ((Dict.get groups r.group).getD []) r event) groups)
        group path =
      if (r.group = group ∧ r.path = path) ∧ (∀ held, heldAt groups group path = some held →
        r.moment.shifted < Held.time held) then some (r.moment, event)
      else heldAt groups group path := by
  rw [heldAt_set]
  by_cases hgroup : r.group = group
  · subst hgroup
    rw [if_pos rfl, get_noted, heldAt_getD]
    simp only [true_and]
  · rw [if_neg hgroup, if_neg fun h => hgroup h.1.1]

theorem Earliest.snoc {t : ℤ} (ht : Earliest lower fromIsoFormat events group path t)
    (hevent : ∀ r, event.renamed lower fromIsoFormat = some r → r.group = group →
      r.path = path → t ≤ r.moment.shifted) :
    Earliest lower fromIsoFormat (events ++ [event]) group path t := by
  obtain ⟨⟨a, ha, hrecord⟩, htle⟩ := ht
  refine ⟨⟨a, List.mem_append_left _ ha, hrecord⟩, fun b hb => ?_⟩
  rcases List.mem_append.1 hb with hb | hb
  · exact htle b hb
  · obtain rfl := List.mem_singleton.1 hb
    exact hevent

theorem earliest_new (hr : event.renamed lower fromIsoFormat = some r)
    (hfirst : ∀ other ∈ events, ∀ s, other.renamed lower fromIsoFormat = some s →
      s.group = r.group → s.path = r.path → r.moment.shifted ≤ s.moment.shifted) :
    Earliest lower fromIsoFormat (events ++ [event]) r.group r.path r.moment.shifted := by
  refine ⟨⟨event, List.mem_append_right _ (List.mem_singleton_self _), r, hr, rfl, rfl, rfl⟩, ?_⟩
  intro other hother s hs
  rcases List.mem_append.1 hother with hother | hother
  · exact hfirst other hother s hs
  · obtain rfl := List.mem_singleton.1 hother
    obtain rfl := Option.some.inj (hr.symm.trans hs)
    exact fun _ _ => le_rfl

/-- One step of the loop. -/
theorem note_noted (h : Noted lower fromIsoFormat events groups)
    (hoffset : ∀ r, event.renamed lower fromIsoFormat = some r → r.moment.offset.isSome) :
    ∃ groups', note lower fromIsoFormat groups event = .ok groups' ∧
      Noted lower fromIsoFormat (events ++ [event]) groups' := by
  rcases hr : event.renamed lower fromIsoFormat with - | r
  · refine ⟨groups, by rw [note, hr], ?_⟩
    have hnone : ∀ r, event.renamed lower fromIsoFormat ≠ some r := by
      intro r hsome
      rw [hr] at hsome
      exact absurd hsome nofun
    refine { h with earliest := ?_, covers := ?_ }
    · exact fun group path held hheld =>
        (h.earliest group path held hheld).snoc fun r hsome => absurd hsome (hnone r)
    · intro other hother r hsome
      rcases List.mem_append.1 hother with hother | hother
      · exact h.covers other hother r hsome
      · obtain rfl := List.mem_singleton.1 hother
        exact absurd hsome (hnone r)
  refine ⟨_, note_eq h hr (hoffset r hr), ?_⟩
  have hfiles : (((Dict.get groups r.group).getD []).map Prod.fst).Nodup := by
    rcases hget : Dict.get groups r.group with - | files
    · exact List.nodup_nil
    · exact h.files_nodup _ (Dict.mem_of_get hget)
  refine
    { groups_nodup := Dict.nodup_keys_set _ _ h.groups_nodup
      files_nodup := ?_
      files_ne_nil := ?_
      earliest := ?_
      aware := ?_
      keyed := ?_
      covers := ?_ }
  · intro entry hentry
    rcases Dict.mem_of_mem_set hentry with rfl | hentry
    · exact keys_noted hfiles
    · exact h.files_nodup entry hentry
  · intro entry hentry
    rcases Dict.mem_of_mem_set hentry with rfl | hentry
    · exact noted_ne_nil
    · exact h.files_ne_nil entry hentry
  · intro group path held hheld
    rw [heldAt_note] at hheld
    split at hheld
    · rename_i hnew
      obtain ⟨⟨rfl, rfl⟩, hearlier⟩ := hnew
      obtain rfl := Option.some.inj hheld
      refine earliest_new hr fun other hother s hs hsg hsp => ?_
      -- a record of the same file is not before the one that is held
      obtain ⟨old, hold⟩ := Option.isSome_iff_exists.1 (h.covers other hother s hs)
      rw [hsg, hsp] at hold
      have hle := (h.earliest _ _ _ hold).2 other hother s hs hsg hsp
      exact (hearlier old hold).le.trans hle
    · rename_i hkept
      refine (h.earliest group path held hheld).snoc fun s hs hsg hsp => ?_
      obtain rfl := Option.some.inj (hr.symm.trans hs)
      refine not_lt.1 fun hlt => hkept ⟨⟨hsg, hsp⟩, fun old hold => ?_⟩
      rw [Option.some.inj (hold.symm.trans hheld)]
      exact hlt
  · intro group path held hheld
    rw [heldAt_note] at hheld
    split at hheld
    · obtain rfl := Option.some.inj hheld
      exact hoffset r hr
    · exact h.aware group path held hheld
  · intro group path held hheld
    rw [heldAt_note] at hheld
    split at hheld
    · rename_i hnew
      obtain rfl := Option.some.inj hheld
      exact (renamed_path hr).symm.trans hnew.1.2
    · exact h.keyed group path held hheld
  · intro other hother s hs
    rw [heldAt_note]
    split
    · rfl
    · rename_i hkept
      rcases List.mem_append.1 hother with hother | hother
      · exact h.covers other hother s hs
      · obtain rfl := List.mem_singleton.1 hother
        obtain rfl := Option.some.inj (hr.symm.trans hs)
        by_contra hnone
        refine hkept ⟨⟨rfl, rfl⟩, fun old hold => absurd ?_ hnone⟩
        rw [hold]
        rfl

theorem foldlM_noted {events done : List FileEvent}
    (h : Noted lower fromIsoFormat done groups) (hcarry : Carry fromIsoFormat events) :
    ∃ groups', events.foldlM (note lower fromIsoFormat) groups = .ok groups' ∧
      Noted lower fromIsoFormat (done ++ events) groups' := by
  induction events generalizing done groups with
  | nil => exact ⟨groups, rfl, (List.append_nil done).symm ▸ h⟩
  | cons event events ih =>
    obtain ⟨next, hnext, hnoted⟩ := note_noted h fun r hr =>
      renamed_offset hcarry (.head _) hr
    obtain ⟨groups', hgroups, hall⟩ := ih hnoted fun other hother =>
      hcarry other (.tail _ hother)
    refine ⟨groups', ?_, ?_⟩
    · rw [List.foldlM_cons, hnext]
      exact hgroups
    · rw [List.append_assoc] at hall
      exact hall

theorem noted_nil : Noted lower fromIsoFormat [] [] where
  groups_nodup := List.nodup_nil
  files_nodup := nofun
  files_ne_nil := nofun
  earliest := nofun
  aware := nofun
  keyed := nofun
  covers := nofun

theorem Noted.heldAt_of_mem
    (h : Noted lower fromIsoFormat events groups) {entry : (Text × Text) × Files}
    (hentry : entry ∈ groups) {file : Text × Held} (hfile : file ∈ entry.2) :
    heldAt groups entry.1 file.1 = some file.2 := by
  rw [heldAt, Dict.get_of_mem h.groups_nodup hentry]
  exact Dict.get_of_mem (h.files_nodup entry hentry) hfile

/-- A group is there if a record is of it. -/
theorem Noted.mem_groups (h : Noted lower fromIsoFormat events groups) :
    group ∈ groups.map Prod.fst ↔
      ∃ event ∈ events, ∃ r, event.renamed lower fromIsoFormat = some r ∧ r.group = group := by
  constructor
  · intro hgroup
    obtain ⟨entry, hentry, rfl⟩ := List.mem_map.1 hgroup
    obtain ⟨file, hfile⟩ := List.exists_mem_of_ne_nil _ (h.files_ne_nil entry hentry)
    obtain ⟨⟨event, hevent, r, hr, hgroup, -⟩, -⟩ :=
      h.earliest _ _ _ (h.heldAt_of_mem hentry hfile)
    exact ⟨event, hevent, r, hr, hgroup⟩
  · rintro ⟨event, hevent, r, hr, rfl⟩
    have hheld := h.covers event hevent r hr
    by_contra hnot
    rw [heldAt, Dict.get_eq_none.2 hnot] at hheld
    exact absurd hheld nofun

end Noted

/-! ### The bursts of a group -/

/-- The files of a group in time. -/
def inTime (files : Files) : List Held :=
  (files.map Prod.snd).insertionSort fun a b => Held.time a ≤ Held.time b

def groupBursts (group : Text × Text) (files : Files) : List Burst :=
  (sweep Held.time windowMicros minFiles 0 (inTime files)).filterMap (burstOf group)

section Group

variable {lower : Text → Text} {fromIsoFormat : Text → Option PyDateTime}

theorem inTime_sorted (files : Files) : Sorted Held.time (inTime files) := by
  have : Std.Total (fun a b : Held => Held.time a ≤ Held.time b) :=
    ⟨fun a b => le_total (Held.time a) (Held.time b)⟩
  have : IsTrans Held fun a b => Held.time a ≤ Held.time b := ⟨fun _ _ _ => le_trans⟩
  exact List.pairwise_insertionSort _ _

theorem inTime_perm (files : Files) : (inTime files).Perm (files.map Prod.snd) :=
  List.perm_insertionSort _ _

variable {events : List FileEvent}

/-- The search for bursts comes to its end where the timestamps carry an offset. -/
theorem findBursts_eq (hcarry : Carry fromIsoFormat events) :
    ∃ groups, Noted lower fromIsoFormat events groups ∧ findBursts lower fromIsoFormat events =
        .ok (groups.flatMap fun entry => groupBursts entry.1 entry.2) := by
  obtain ⟨groups, hgroups, hnoted⟩ := foldlM_noted noted_nil hcarry
  refine ⟨groups, hnoted, ?_⟩
  have hsort : ∀ entry ∈ groups, sortFiles (entry.2.map Prod.snd) = .ok (inTime entry.2) := by
    intro entry hentry
    rw [sortFiles, if_neg, inTime]
    rw [Bool.and_eq_true, not_and]
    refine fun _ hnaive => ?_
    obtain ⟨held, hheld, hnone⟩ := List.any_eq_true.1 hnaive
    obtain ⟨file, hfile, rfl⟩ := List.mem_map.1 hheld
    have haware := hnoted.aware _ _ _ (hnoted.heldAt_of_mem hentry hfile)
    rw [Option.isNone_iff_eq_none] at hnone
    rw [hnone] at haware
    exact absurd haware nofun
  have hmap : (groups.mapM fun entry : (Text × Text) × Files => do
      let ordered ← sortFiles (entry.2.map Prod.snd)
      pure ((sweep Held.time windowMicros minFiles 0 ordered).filterMap (burstOf entry.1))) =
        .ok (groups.map fun entry => groupBursts entry.1 entry.2) := by
    refine Settle.mapM_eq_ok fun entry hentry => ?_
    rw [hsort entry hentry]
    rfl
  rw [findBursts, hgroups]
  show (do
    let bursts ← groups.mapM fun entry : (Text × Text) × Files => do
      let ordered ← sortFiles (entry.2.map Prod.snd)
      pure ((sweep Held.time windowMicros minFiles 0 ordered).filterMap (burstOf entry.1))
    pure bursts.flatten) = _
  rw [hmap, List.flatMap_def]
  rfl

def Burst.group (burst : Burst) : Text × Text := (burst.host, burst.extension)

def Burst.paths (lower : Text → Text) (burst : Burst) : List Text :=
  burst.members.map (FileEvent.pathKey lower)

/-- The path of what is held. -/
def heldPath (lower : Text → Text) (held : Held) : Text := held.2.pathKey lower

variable {group : Text × Text}

theorem burstOf_eq {members : List Held} {burst : Burst} (h : burstOf group members = some burst) :
    burst.group = group ∧ burst.paths lower = members.map (heldPath lower) ∧
      ∃ hne : members ≠ [], burst.first = (members.head hne).1 ∧
        burst.last = (members.getLast hne).1 := by
  rcases members with - | ⟨held, rest⟩
  · exact absurd h nofun
  · obtain rfl := Option.some.inj h
    refine ⟨rfl, ?_, List.cons_ne_nil _ _, rfl, rfl⟩
    exact List.map_map

theorem sweep_ne_nil {xs members : List Held}
    (h : members ∈ sweep Held.time windowMicros minFiles 0 xs) : members ≠ [] := by
  obtain ⟨a, ys, rfl, -⟩ := mem_sweep h
  exact List.cons_ne_nil _ _

theorem forall₂_filterMap {α β : Type} {f : α → Option β} {as : List α}
    (h : ∀ a ∈ as, (f a).isSome) : List.Forall₂ (fun a b => f a = some b) as (as.filterMap f) := by
  induction as with
  | nil => exact List.Forall₂.nil
  | cons a as ih =>
    obtain ⟨b, hb⟩ := Option.isSome_iff_exists.1 (h a (.head _))
    rw [List.filterMap_cons_some hb]
    exact List.Forall₂.cons hb (ih fun other hother => h other (.tail _ hother))

theorem map_eq_of_forall₂ {α β γ : Type} {R : α → β → Prop} {f : α → γ} {g : β → γ} {as : List α}
    {bs : List β} (h : List.Forall₂ R as bs) (hR : ∀ a ∈ as, ∀ b ∈ bs, R a b → g b = f a) :
    bs.map g = as.map f := by
  induction h with
  | nil => rfl
  | cons hab _ ih =>
    rw [List.map_cons, List.map_cons, hR _ List.mem_cons_self _ List.mem_cons_self hab,
      ih fun a ha b hb => hR a (.tail _ ha) b (.tail _ hb)]

/-- The bursts are what the sweep finds, one for one. -/
theorem groupBursts_sweep (group : Text × Text) (files : Files) :
    List.Forall₂ (fun members burst => burstOf group members = some burst)
      (sweep Held.time windowMicros minFiles 0 (inTime files)) (groupBursts group files) := by
  refine forall₂_filterMap fun members hmembers => ?_
  rcases members with - | ⟨held, members⟩
  · exact absurd rfl (sweep_ne_nil hmembers)
  · rfl

theorem mem_groupBursts {files : Files} {burst : Burst} (h : burst ∈ groupBursts group files) :
    ∃ members ∈ sweep Held.time windowMicros minFiles 0 (inTime files),
      burstOf group members = some burst := List.mem_filterMap.1 h

section Entry

variable {events : List FileEvent} {groups : Groups} {entry : (Text × Text) × Files}

theorem Noted.held_earliest (h : Noted lower fromIsoFormat events groups)
    (hentry : entry ∈ groups) {held : Held} (hheld : held ∈ inTime entry.2) :
    Earliest lower fromIsoFormat events entry.1 (heldPath lower held) (Held.time held) := by
  obtain ⟨file, hfile, rfl⟩ := List.mem_map.1 ((inTime_perm entry.2).subset hheld)
  have hat := h.heldAt_of_mem hentry hfile
  rw [show heldPath lower file.2 = file.1 from h.keyed _ _ _ hat]
  exact h.earliest _ _ _ hat

theorem Noted.paths_perm (h : Noted lower fromIsoFormat events groups) (hentry : entry ∈ groups) :
    ((inTime entry.2).map (heldPath lower)).Perm (entry.2.map Prod.fst) := by
  have hkeys : (entry.2.map Prod.snd).map (heldPath lower) = entry.2.map Prod.fst := by
    rw [List.map_map]
    exact List.map_congr_left fun file hfile =>
      h.keyed _ _ _ (h.heldAt_of_mem hentry hfile)
  exact hkeys ▸ (inTime_perm entry.2).map _

theorem Noted.paths_nodup (h : Noted lower fromIsoFormat events groups) (hentry : entry ∈ groups) :
    ((inTime entry.2).map (heldPath lower)).Nodup :=
  (h.paths_perm hentry).nodup_iff.2 (h.files_nodup entry hentry)

/-- What the sweep finds has each file once. -/
theorem Noted.sweep_nodup (h : Noted lower fromIsoFormat events groups) (hentry : entry ∈ groups) :
    (∀ members ∈ sweep Held.time windowMicros minFiles 0 (inTime entry.2),
      (members.map (heldPath lower)).Nodup) ∧
    ((sweep Held.time windowMicros minFiles 0 (inTime entry.2)).map
      (List.map (heldPath lower))).Pairwise List.Disjoint := by
  have hflat := (((flatten_sweep (inTime entry.2)).map (heldPath lower)).nodup
    (h.paths_nodup hentry) : List.Nodup
      ((sweep Held.time windowMicros minFiles 0 (inTime entry.2)).flatten.map (heldPath lower)))
  rw [List.map_flatten, List.nodup_flatten] at hflat
  refine ⟨fun members hmembers => hflat.1 _ (List.mem_map_of_mem hmembers), hflat.2⟩

theorem Noted.disjoint (h : Noted lower fromIsoFormat events groups) (hentry : entry ∈ groups) :
    (groupBursts entry.1 entry.2).Pairwise fun a b =>
      List.Disjoint (a.paths lower) (b.paths lower) := by
  have hpaths : (groupBursts entry.1 entry.2).map (Burst.paths lower) =
      (sweep Held.time windowMicros minFiles 0 (inTime entry.2)).map
        (List.map (heldPath lower)) :=
    map_eq_of_forall₂ (groupBursts_sweep entry.1 entry.2) fun _ _ _ _ hburst =>
      (burstOf_eq hburst).2.1
  rw [← List.pairwise_map, hpaths]
  exact (h.sweep_nodup hentry).2

/-- A burst has enough files, all of them in the window from its first. -/
theorem Noted.sound (h : Noted lower fromIsoFormat events groups) (hentry : entry ∈ groups)
    {burst : Burst} (hburst : burst ∈ groupBursts entry.1 entry.2) :
    (burst.paths lower).Nodup ∧ minFiles ≤ (burst.paths lower).length ∧
      ∀ path ∈ burst.paths lower, ∃ t, Earliest lower fromIsoFormat events burst.group path t ∧
        burst.first.shifted ≤ t ∧ t ≤ burst.last.shifted ∧
        t ≤ burst.first.shifted + windowMicros := by
  obtain ⟨members, hmembers, hsome⟩ := mem_groupBursts hburst
  obtain ⟨hgroup, hpaths, hne, hfirst, hlast⟩ := burstOf_eq hsome
  obtain ⟨a, ys, hlook, hlength⟩ := mem_sweep hmembers
  have hsub := sublist_of_mem_sweep hmembers
  have hsorted : Sorted Held.time members := (inTime_sorted entry.2).sublist hsub
  rw [hpaths, hgroup]
  refine ⟨(h.sweep_nodup hentry).1 members hmembers, ?_, ?_⟩
  · rw [List.length_map]
    exact hlength
  intro path hpath
  obtain ⟨held, hheld, rfl⟩ := List.mem_map.1 hpath
  refine ⟨_, h.held_earliest hentry (hsub.subset hheld), ?_, ?_, ?_⟩
  · rw [hfirst]
    rcases members with - | ⟨first, rest⟩
    · exact absurd rfl hne
    · exact hsorted.head_le hheld
  · rw [hlast]
    exact hsorted.le_getLast hheld hne
  · rw [hfirst]
    subst hlook
    exact mem_look (by decide) hheld

/-- Enough files in a window of each other are not all left out. -/
theorem Noted.complete (h : Noted lower fromIsoFormat events groups) (hentry : entry ∈ groups)
    {paths : List Text} (hnodup : paths.Nodup) (hlength : minFiles ≤ paths.length)
    (hthere : ∀ path ∈ paths, ∃ t, Earliest lower fromIsoFormat events entry.1 path t)
    (hnear : ∀ path ∈ paths, ∀ other ∈ paths, ∀ t u,
      Earliest lower fromIsoFormat events entry.1 path t →
      Earliest lower fromIsoFormat events entry.1 other u → u - t ≤ windowMicros) :
    ∃ burst ∈ groupBursts entry.1 entry.2, ∃ path ∈ paths, path ∈ burst.paths lower := by
  have hsub := @List.filter_sublist _ (fun held => decide (heldPath lower held ∈ paths))
    (inTime entry.2)
  have hpaths : paths.Subperm
      (((inTime entry.2).filter fun held => heldPath lower held ∈ paths).map (heldPath lower)) := by
    refine hnodup.subperm fun path hpath => ?_
    obtain ⟨t, ⟨event, hevent, r, hr, hrg, rfl, -⟩, -⟩ := hthere path hpath
    obtain ⟨held, hheld⟩ := Option.isSome_iff_exists.1 (h.covers event hevent r hr)
    have hmem : r.path ∈ (inTime entry.2).map (heldPath lower) := by
      rw [heldAt, hrg, Dict.get_of_mem h.groups_nodup hentry] at hheld
      exact (h.paths_perm hentry).symm.subset
        (List.mem_map.2 ⟨_, Dict.mem_of_get hheld, rfl⟩)
    obtain ⟨other, hother, heq⟩ := List.mem_map.1 hmem
    exact List.mem_map.2 ⟨other, List.mem_filter.2 ⟨hother, decide_eq_true (heq ▸ hpath)⟩, heq⟩
  have hcount : paths.length ≤
      ((inTime entry.2).filter fun held => heldPath lower held ∈ paths).length := by
    rw [← List.length_map (heldPath lower)]
    exact hpaths.length_le
  obtain ⟨members, hmembers, held, hheld, hin⟩ := sweep_complete
    (inTime_sorted entry.2) ((List.Nodup.of_map _ (h.paths_nodup hentry)).sublist hsub)
    (fun held hheld => hsub.subset hheld) (hlength.trans hcount)
    (List.ne_nil_of_length_pos ((by decide : 0 < minFiles).trans_le (hlength.trans hcount)))
    (fun a ha b hb => hnear _ (of_decide_eq_true (List.mem_filter.1 ha).2) _
      (of_decide_eq_true (List.mem_filter.1 hb).2) _ _
      (h.held_earliest hentry (hsub.subset ha)) (h.held_earliest hentry (hsub.subset hb)))
  obtain ⟨burst, hburst⟩ : ∃ burst, burstOf entry.1 members = some burst := by
    rcases members with - | ⟨first, rest⟩
    · exact absurd rfl (sweep_ne_nil hmembers)
    · exact ⟨_, rfl⟩
  refine ⟨burst, List.mem_filterMap.2 ⟨members, hmembers, hburst⟩, heldPath lower held,
    of_decide_eq_true (List.mem_filter.1 hheld).2, ?_⟩
  rw [(burstOf_eq hburst).2.1]
  exact List.mem_map_of_mem hin

end Entry

/-! ### The order of the events -/

/-- What a burst says of its files: which they are, and the first and the last time. -/
def Burst.view (lower : Text → Text) (burst : Burst) : (Text × Text) × Finset Text × ℤ × ℤ :=
  (burst.group, (burst.paths lower).toFinset, burst.first.shifted, burst.last.shifted)

/-- The path and the time of what is held. -/
def mark (lower : Text → Text) (held : Held) : Text × ℤ := (heldPath lower held, Held.time held)

/-- The same of the marks of a burst. -/
def markView (group : Text × Text) (marks : List (Text × ℤ)) :
    (Text × Text) × Finset Text × ℤ × ℤ :=
  (group, (marks.map Prod.fst).toFinset, (marks.head?.map Prod.snd).getD 0,
    (marks.getLast?.map Prod.snd).getD 0)

theorem markView_eq {members : List Held} {burst : Burst} (h : burstOf group members = some burst) :
    burst.view lower = markView group (members.map (mark lower)) := by
  obtain ⟨hgroup, hpaths, hne, hfirst, hlast⟩ := @burstOf_eq lower _ _ _ h
  rw [Burst.view, markView, hgroup, hpaths, hfirst, hlast, List.head?_map, List.getLast?_map,
    List.head?_eq_some_head hne, List.getLast?_eq_some_getLast hne, List.map_map]
  rfl

theorem markView_perm {as bs : List (Text × ℤ)} (ha : Sorted Prod.snd as)
    (hb : Sorted Prod.snd bs) (h : as.Perm bs) : markView group as = markView group bs := by
  rcases as with - | ⟨a, as⟩
  · rw [List.nil_perm.1 h]
  rcases bs with - | ⟨b, bs⟩
  · exact absurd h.symm (List.not_perm_nil_cons _ _)
  have hne : ∀ {m : Text × ℤ} {ms : List (Text × ℤ)}, m :: ms ≠ [] := List.cons_ne_nil _ _
  rw [markView, markView, List.toFinset_eq_of_perm _ _ (h.map Prod.fst),
    List.getLast?_eq_some_getLast hne, List.getLast?_eq_some_getLast hne, List.head?_cons,
    List.head?_cons, Option.map_some, Option.map_some, Option.map_some, Option.map_some,
    ha.head_eq hb h, ha.getLast_eq hb h hne hne]

/-- The bursts of a group depend on the paths and the times of its files. -/
theorem view_groupBursts (group : Text × Text) {files files' : Files}
    (h : ((inTime files).map (mark lower)).Perm ((inTime files').map (mark lower))) :
    (groupBursts group files).map (Burst.view lower) =
      (groupBursts group files').map (Burst.view lower) := by
  have hview : ∀ files, (groupBursts group files).map (Burst.view lower) =
      (sweep Prod.snd windowMicros minFiles 0 ((inTime files).map (mark lower))).map
        (markView group) := by
    intro files
    rw [sweep_map, List.map_map]
    exact map_eq_of_forall₂ (groupBursts_sweep group files) fun _ _ _ _ hburst =>
      markView_eq hburst
  have hsorted : ∀ files, Sorted Prod.snd ((inTime files).map (mark lower)) :=
    fun files => List.pairwise_map.2 (inTime_sorted files)
  rw [hview, hview]
  refine (map_eq_of_forall₂ (sweep_perm (by decide) (hsorted files) (hsorted files') h) ?_).symm
  intro as has bs hbs hperm
  exact (markView_perm ((hsorted files).sublist (sublist_of_mem_sweep has))
    ((hsorted files').sublist (sublist_of_mem_sweep hbs)) hperm).symm

theorem Noted.mem_marks {groups : Groups}
    (h : Noted lower fromIsoFormat events groups) {entry : (Text × Text) × Files}
    (hentry : entry ∈ groups) {path : Text} {t : ℤ} :
    (path, t) ∈ (inTime entry.2).map (mark lower) ↔
      Earliest lower fromIsoFormat events entry.1 path t := by
  constructor
  · intro hmem
    obtain ⟨held, hheld, heq⟩ := List.mem_map.1 hmem
    obtain ⟨rfl, rfl⟩ := Prod.mk.inj heq
    exact h.held_earliest hentry hheld
  · intro hearliest
    obtain ⟨event, hevent, r, hr, hrg, rfl, -⟩ := hearliest.1
    obtain ⟨held, hheld⟩ := Option.isSome_iff_exists.1 (h.covers event hevent r hr)
    rw [heldAt, hrg, Dict.get_of_mem h.groups_nodup hentry] at hheld
    have hin : held ∈ inTime entry.2 := (inTime_perm entry.2).symm.subset
      (List.mem_map.2 ⟨_, Dict.mem_of_get hheld, rfl⟩)
    have hpath : heldPath lower held = r.path :=
      h.keyed _ _ _ (h.heldAt_of_mem hentry (Dict.mem_of_get hheld))
    have hheld' := h.held_earliest hentry hin
    rw [hpath] at hheld'
    exact List.mem_map.2 ⟨held, hin, Prod.ext hpath (hheld'.unique hearliest)⟩

/-- The views of all bursts depend on the events, not on their order. -/
theorem Noted.views_perm {events events' : List FileEvent} {groups groups' : Groups}
    (h : Noted lower fromIsoFormat events groups) (h' : Noted lower fromIsoFormat events' groups')
    (hperm : events.Perm events') :
    ((groups.flatMap fun entry => groupBursts entry.1 entry.2).map (Burst.view lower)).Perm
      ((groups'.flatMap fun entry => groupBursts entry.1 entry.2).map (Burst.view lower)) := by
  -- the views of a group, of its name alone
  have hnames : ∀ {events : List FileEvent} {groups : Groups},
      Noted lower fromIsoFormat events groups →
      (groups.flatMap fun entry => groupBursts entry.1 entry.2).map (Burst.view lower) =
        (groups.map Prod.fst).flatMap fun group =>
          (groupBursts group ((Dict.get groups group).getD [])).map (Burst.view lower) := by
    intro events groups h
    rw [List.map_flatMap, List.flatMap_map]
    refine List.flatMap_congr fun entry hentry => ?_
    rw [Dict.get_of_mem h.groups_nodup hentry]
    rfl
  have hkeys : (groups.map Prod.fst).Perm (groups'.map Prod.fst) := by
    refine (List.perm_ext_iff_of_nodup h.groups_nodup h'.groups_nodup).2 fun group => ?_
    rw [h.mem_groups, h'.mem_groups]
    exact ⟨fun ⟨event, hevent, hrecord⟩ => ⟨event, hperm.subset hevent, hrecord⟩,
      fun ⟨event, hevent, hrecord⟩ => ⟨event, hperm.symm.subset hevent, hrecord⟩⟩
  rw [hnames h, hnames h']
  refine (hkeys.flatMap_right _).trans (List.Perm.of_eq ?_)
  refine List.flatMap_congr fun group hgroup => ?_
  obtain ⟨entry, hentry, rfl⟩ := List.mem_map.1 (hkeys.symm.subset hgroup)
  obtain ⟨entry', hentry', heq⟩ := List.mem_map.1 hgroup
  have hget := Dict.get_of_mem h'.groups_nodup hentry'
  rw [heq] at hget
  rw [Dict.get_of_mem h.groups_nodup hentry, hget]
  refine view_groupBursts _ ?_
  have hnodup : ∀ {events : List FileEvent} {groups : Groups} {entry : (Text × Text) × Files},
      Noted lower fromIsoFormat events groups → entry ∈ groups →
      ((inTime entry.2).map (mark lower)).Nodup := by
    intro events groups entry h hentry
    refine List.Nodup.of_map Prod.fst ?_
    rw [List.map_map]
    exact h.paths_nodup hentry
  refine (List.perm_ext_iff_of_nodup (hnodup h hentry) (hnodup h' hentry')).2 fun ⟨path, t⟩ => ?_
  show (path, t) ∈ (inTime entry.2).map (mark lower) ↔ (path, t) ∈ (inTime entry'.2).map (mark lower)
  rw [h.mem_marks hentry, h'.mem_marks hentry', heq]
  exact ⟨Earliest.perm hperm, Earliest.perm hperm.symm⟩

/-- **The bursts are sound, complete and independent of the order of the events.**
Bursts of one host and extension have no file in common; a burst has `minFiles` files
or more, all of them in the window from its first; of `minFiles` files in a window of
each other one is in a burst; and permuted events give bursts of the same files and
times. -/
theorem bursts_sound_complete_stable (lower : Text → Text)
    (fromIsoFormat : Text → Option PyDateTime) (events : List FileEvent)
    (hcarry : Carry fromIsoFormat events) :
    ∃ bursts, findBursts lower fromIsoFormat events = .ok bursts ∧
      (bursts.Pairwise fun a b => a.group = b.group →
        List.Disjoint (a.paths lower) (b.paths lower)) ∧
      (∀ burst ∈ bursts, (burst.paths lower).Nodup ∧ minFiles ≤ (burst.paths lower).length ∧
        ∀ path ∈ burst.paths lower, ∃ t, Earliest lower fromIsoFormat events burst.group path t ∧
          burst.first.shifted ≤ t ∧ t ≤ burst.last.shifted ∧
          t ≤ burst.first.shifted + windowMicros) ∧
      (∀ (group : Text × Text) (paths : List Text), paths.Nodup → minFiles ≤ paths.length →
        (∀ path ∈ paths, ∃ t, Earliest lower fromIsoFormat events group path t) →
        (∀ path ∈ paths, ∀ other ∈ paths, ∀ t u, Earliest lower fromIsoFormat events group path t →
          Earliest lower fromIsoFormat events group other u → u - t ≤ windowMicros) →
        ∃ burst ∈ bursts, burst.group = group ∧ ∃ path ∈ paths, path ∈ burst.paths lower) ∧
      ∀ events', events.Perm events' →
        ∃ bursts', findBursts lower fromIsoFormat events' = .ok bursts' ∧
          (bursts.map (Burst.view lower)).Perm (bursts'.map (Burst.view lower)) := by
  obtain ⟨groups, hnoted, hfind⟩ := @findBursts_eq lower _ _ hcarry
  refine ⟨_, hfind, ?_, ?_, ?_, ?_⟩
  · rw [List.pairwise_flatMap]
    refine ⟨fun entry hentry => ?_, ?_⟩
    · refine (hnoted.disjoint hentry).imp ?_
      exact fun hdisjoint _ => hdisjoint
    · refine (List.pairwise_map.1 hnoted.groups_nodup).imp fun hne a ha b hb hgroup => ?_
      obtain ⟨_, -, hsome⟩ := mem_groupBursts ha
      obtain ⟨_, -, hsome'⟩ := mem_groupBursts hb
      rw [(@burstOf_eq lower _ _ _ hsome).1, (@burstOf_eq lower _ _ _ hsome').1] at hgroup
      exact absurd hgroup hne
  · intro burst hburst
    obtain ⟨entry, hentry, hin⟩ := List.mem_flatMap.1 hburst
    exact hnoted.sound hentry hin
  · intro group paths hnodup hlength hthere hnear
    -- one of the files says that the group is there
    obtain ⟨path, hpath⟩ : ∃ path, path ∈ paths :=
      List.exists_mem_of_ne_nil paths
        (List.ne_nil_of_length_pos ((by decide : 0 < minFiles).trans_le hlength))
    obtain ⟨t, ⟨event, hevent, r, hr, hgroup, -⟩, -⟩ := hthere path hpath
    obtain ⟨entry, hentry, rfl⟩ :=
      List.mem_map.1 (hnoted.mem_groups.2 ⟨event, hevent, r, hr, hgroup⟩)
    obtain ⟨burst, hburst, hsome⟩ := hnoted.complete hentry hnodup hlength hthere hnear
    obtain ⟨_, -, hof⟩ := mem_groupBursts hburst
    exact ⟨burst, List.mem_flatMap.2 ⟨entry, hentry, hburst⟩,
      (@burstOf_eq lower _ _ _ hof).1, hsome⟩
  · intro events' hperm
    have hcarry' : Carry fromIsoFormat events' := fun event hevent =>
      hcarry event (hperm.symm.subset hevent)
    obtain ⟨groups', hnoted', hfind'⟩ := @findBursts_eq lower _ _ hcarry'
    exact ⟨_, hfind', hnoted.views_perm hnoted' hperm⟩

end Group

/-- Five documents that got an extension within five seconds. -/
def encryptedFiles : List FileEvent :=
  ["Memo.docx.enc", "Finance.xlsx.enc", "handbook.docx.enc", "Slides.pptx.enc",
    "scan.pdf.enc"].zipIdx.map fun (name, second) =>
      { fileName := some name.toList
        filePath := some ("C:\\Users\\a\\".toList ++ name.toList)
        hostName := some "PC1".toList
        timestamp := some ("2025-03-07T19:41:0".toList ++ Search.intStr second ++ "Z".toList) }

theorem encryptedFiles_burst :
    ∃ bursts, findBursts (List.map Char.toLower) Search.isoDateTime encryptedFiles = .ok bursts ∧
      bursts.length = 1 ∧ ∀ burst ∈ bursts,
        minFiles ≤ (burst.paths (List.map Char.toLower)).length := by
  have hoffset : ∀ event ∈ encryptedFiles,
      (parseTime Search.isoDateTime event.timestamp).map (fun moment => moment.offset.isSome) =
        some true := by
    decide +kernel
  have hcarry : Carry Search.isoDateTime encryptedFiles := by
    intro event hevent moment hmoment
    have hsome := hoffset event hevent
    rw [hmoment] at hsome
    exact Option.some.inj hsome
  have hone : (findBursts (List.map Char.toLower) Search.isoDateTime encryptedFiles).toOption.map
      List.length = some 1 := by
    decide +kernel
  obtain ⟨bursts, hfind, -, hsound, -⟩ := bursts_sound_complete_stable (List.map Char.toLower)
    Search.isoDateTime encryptedFiles hcarry
  rw [hfind] at hone
  exact ⟨bursts, hfind, Option.some.inj hone, fun burst hburst => (hsound burst hburst).2.1⟩

end Kairon.Detections

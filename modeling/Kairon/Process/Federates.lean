/-
Kairon/Process/Federates.lean

When the list of both runs shows each incarnation of a process once.

`LastOf` is the entity that a dictionary is left with for a PID.  The items are
at most one for each PID (`nodup_pids`), so two incarnations of one PID cannot
both be shown; what is behind the page that is fetched is not shown unless the
other run has its PID; and a merged item keeps what `FieldsMeet` says.

`federates_iff` says that these are all the ways in which the list goes wrong.
-/
import Kairon.Process.Federation

namespace Kairon.Process

open Search (Text)
open Paging (sorted block)

variable {Id : Type} [LinearOrder Id]

/-! ### What is wanted -/

def entitiesOf (run : Option (Run Id)) : List (Entity Id) := run.elim [] Run.entities

/-- One incarnation of a process: its PID and creation time. -/
def incarnation (process : Fields) : ℤ × Option Text := (process.pid, process.createTime)

/-- An item shows the incarnation of an entity. -/
def shows (ent : Entity Id) (item : FederatedItem Id) : Bool :=
  incarnation item.process = incarnation ent.process

/-- A value that one side has is kept. -/
def Kept {α : Type} (b e merged : Option α) : Prop :=
  b.isSome ∨ e.isSome → merged.isSome ∧ (merged = b ∨ merged = e)

structure FieldsKept (b e merged : Fields) : Prop where
  ppid : Kept b.ppid e.ppid merged.ppid
  name : Kept b.name e.name merged.name
  executableName : Kept b.executableName e.executableName merged.executableName
  commandLine : Kept b.commandLine e.commandLine merged.commandLine
  createTime : Kept b.createTime e.createTime merged.createTime
  exitTime : Kept b.exitTime e.exitTime merged.exitTime
  uid : Kept b.uid e.uid merged.uid
  user : Kept b.user e.user merged.user
  status : Kept b.status e.status merged.status

/-- Both dictionaries have an entity for one key, and they are merged. -/
def Merged (basic extended : Option (Run Id)) (b e : Entity Id) : Prop :=
  ∃ key, Dict.get (byMergeKey basic) key = some b ∧ Dict.get (byMergeKey extended) key = some e

/-- No process is lost, made up, mixed up with another or stripped of a value, and none is
both listed and not listed. -/
structure Federates (basic extended : Option (Run Id)) : Prop where
  shown : ∀ pageSize, 0 < pageSize → ∀ ent ∈ entitiesOf basic ++ entitiesOf extended,
    ((followPages basic extended pageSize).filter (shows ent)).length = 1
  known : ∀ pageSize, 0 < pageSize → ∀ item ∈ followPages basic extended pageSize,
    ∃ ent ∈ entitiesOf basic ++ entitiesOf extended, shows ent item = true
  same : ∀ b e, Merged basic extended b e → incarnation b.process = incarnation e.process
  kept : ∀ b e, Merged basic extended b e →
    FieldsKept b.process e.process (mergeFields b.process e.process)
  apart : ∀ pageSize, 0 < pageSize → ∀ item ∈ followPages basic extended pageSize,
    ¬ (item.visibility.listed = true ∧ item.visibility.scanOnly = true)

/-! ### The condition -/

/-- The last entity of its PID. -/
def LastOf (ents : List (Entity Id)) (ent : Entity Id) : Prop :=
  ∃ before after, ents = before ++ ent :: after ∧
    ∀ other ∈ after, other.process.pid ≠ ent.process.pid

/-- No value is lost in a merge: a falsy one of the basic side meets one of the other side,
and there is nothing that the merged item has no place for. -/
structure FieldsMeet (b e : Fields) : Prop where
  ppid : b.ppid = some 0 → e.ppid.isSome
  name : b.name = some [] → e.name.isSome
  commandLine : b.commandLine = some [] → e.commandLine.isSome
  createTime : b.createTime = some [] → e.createTime.isSome
  exitTime : b.exitTime = some [] → e.exitTime.isSome
  executableName : b.executableName = none ∧ e.executableName = none
  uid : b.uid = none ∧ e.uid = none
  user : b.user = none ∧ e.user = none
  status : b.status = none ∧ e.status = none

def Visibility.Apart (b e : Visibility) : Prop :=
  ¬ ((b.listed = true ∨ e.listed = true) ∧ (b.scanOnly = true ∨ e.scanOnly = true))

/-- The two lists fit together: a PID has one creation time; each PID is on the pages that
are fetched; and where both runs have it, nothing is lost and the flags agree. -/
structure Federable (basic extended : List (Entity Id)) : Prop where
  one : ∀ x ∈ basic ++ extended, ∀ y ∈ basic ++ extended, x.process.pid = y.process.pid →
    x.process.createTime = y.process.createTime
  reached : ∀ x ∈ basic ++ extended,
    ∃ y ∈ fetchCanonicalEntities basic ++ fetchCanonicalEntities extended,
      y.process.pid = x.process.pid
  meets : ∀ b e, LastOf (fetchCanonicalEntities basic) b →
    LastOf (fetchCanonicalEntities extended) e → b.process.pid = e.process.pid →
      FieldsMeet b.process e.process ∧ b.visibility.Apart e.visibility
  single : ∀ x, (LastOf (fetchCanonicalEntities basic) x ∧
        ∀ y ∈ fetchCanonicalEntities extended, y.process.pid ≠ x.process.pid) ∨
      (LastOf (fetchCanonicalEntities extended) x ∧
        ∀ y ∈ fetchCanonicalEntities basic, y.process.pid ≠ x.process.pid) →
    x.visibility.Apart x.visibility

/-! ### Lookups -/

section Lookups

variable {basic extended : Option (Run Id)}

theorem byMergeKey_eq (run : Option (Run Id)) (key : ℤ) : Dict.get (byMergeKey run) key =
      (fetchCanonicalEntities (entitiesOf run)).reverse.find? fun ent => ent.process.pid = key := by
  rw [byMergeKey, Dict.get_foldl_set entityMergeKey (fun ent => ent)]
  show (Option.map id _).or none = _
  rw [Option.map_id, id, Option.or_none]
  rfl

variable {run : Option (Run Id)} {ent : Entity Id}

theorem get_eq_some {key : ℤ} : Dict.get (byMergeKey run) key = some ent ↔
      ent.process.pid = key ∧ LastOf (fetchCanonicalEntities (entitiesOf run)) ent := by
  rw [byMergeKey_eq, List.find?_eq_some_iff_append]
  constructor
  · rintro ⟨hkey, after, before, heq, hafter⟩
    have hkey : ent.process.pid = key := of_decide_eq_true hkey
    refine ⟨hkey, before.reverse, after.reverse, ?_, fun other hother hpid => ?_⟩
    · rw [← List.reverse_reverse (fetchCanonicalEntities (entitiesOf run)), heq,
        List.reverse_append, List.reverse_cons, List.append_assoc]
      rfl
    · have hnot := hafter other (List.mem_reverse.1 hother)
      rw [hpid, hkey] at hnot
      simp at hnot
  · rintro ⟨rfl, before, after, heq, hafter⟩
    refine ⟨decide_eq_true rfl, after.reverse, before.reverse, ?_, fun other hother => ?_⟩
    · rw [heq, List.reverse_append, List.reverse_cons, List.append_assoc]
      rfl
    · simpa using hafter other (List.mem_reverse.1 hother)

theorem get_eq_none {key : ℤ} : Dict.get (byMergeKey run) key = none ↔
      ∀ ent ∈ fetchCanonicalEntities (entitiesOf run), ent.process.pid ≠ key := by
  rw [byMergeKey_eq, List.find?_eq_none]
  simp only [List.mem_reverse, decide_eq_true_eq, ne_eq]

theorem mem_of_fetch {entities : List (Entity Id)}
    (h : ent ∈ fetchCanonicalEntities entities) : ent ∈ entities :=
  Paging.mem_sorted.1 (List.mem_of_mem_take h)

omit [LinearOrder Id] in
theorem LastOf.mem {ents : List (Entity Id)} (h : LastOf ents ent) : ent ∈ ents := by
  obtain ⟨before, after, rfl, -⟩ := h
  exact List.mem_append_right _ (.head _)

theorem merged_iff {b e : Entity Id} : Merged basic extended b e ↔
    LastOf (fetchCanonicalEntities (entitiesOf basic)) b ∧
      LastOf (fetchCanonicalEntities (entitiesOf extended)) e ∧ b.process.pid = e.process.pid := by
  constructor
  · rintro ⟨key, hb, he⟩
    obtain ⟨hkey, hb⟩ := get_eq_some.1 hb
    obtain ⟨hkey', he⟩ := get_eq_some.1 he
    exact ⟨hb, he, hkey.trans hkey'.symm⟩
  · rintro ⟨hb, he, hpid⟩
    exact ⟨_, get_eq_some.2 ⟨rfl, hb⟩, get_eq_some.2 ⟨hpid.symm, he⟩⟩

end Lookups

/-! ### Items -/

section Items

variable {basic extended : Option (Run Id)} {item : FederatedItem Id}

/-- How an item comes about: both runs have the PID, or one of them. -/
theorem itemFor_cases {key : ℤ} (h : itemFor basic extended key = some item) :
    (∃ b e, Merged basic extended b e ∧ b.process.pid = key ∧
      item = mergeEntities b e (runIdOf basic) (runIdOf extended)) ∨
    (∃ b, LastOf (fetchCanonicalEntities (entitiesOf basic)) b ∧ b.process.pid = key ∧
      (∀ y ∈ fetchCanonicalEntities (entitiesOf extended), y.process.pid ≠ key) ∧
      item = formatEntity b (runIdOf basic)) ∨
    ∃ e, LastOf (fetchCanonicalEntities (entitiesOf extended)) e ∧ e.process.pid = key ∧
      (∀ y ∈ fetchCanonicalEntities (entitiesOf basic), y.process.pid ≠ key) ∧
      item = formatEntity e (runIdOf extended) := by
  rw [itemFor] at h
  rcases hb : Dict.get (byMergeKey basic) key with - | b
  · rcases he : Dict.get (byMergeKey extended) key with - | e
    · rw [hb, he] at h
      exact absurd h nofun
    · rw [hb, he] at h
      obtain ⟨hkey, hlast⟩ := get_eq_some.1 he
      exact .inr (.inr ⟨e, hlast, hkey, get_eq_none.1 hb, (Option.some.inj h).symm⟩)
  · rcases he : Dict.get (byMergeKey extended) key with - | e
    · rw [hb, he] at h
      obtain ⟨hkey, hlast⟩ := get_eq_some.1 hb
      exact .inr (.inl ⟨b, hlast, hkey, get_eq_none.1 he, (Option.some.inj h).symm⟩)
    · rw [hb, he] at h
      exact .inl ⟨b, e, ⟨key, hb, he⟩, (get_eq_some.1 hb).1, (Option.some.inj h).symm⟩

theorem Merged.pid {b e : Entity Id} (h : Merged basic extended b e) :
    (mergeFields b.process e.process).pid = b.process.pid := by
  have hpid := (merged_iff.1 h).2.2
  show (if b.process.pid = 0 then e.process.pid else b.process.pid) = b.process.pid
  split
  · exact hpid.symm
  · rfl

theorem pid_itemFor {key : ℤ} (h : itemFor basic extended key = some item) :
    item.process.pid = key := by
  rcases itemFor_cases h with ⟨b, e, hmerged, rfl, rfl⟩ | ⟨b, -, rfl, -, rfl⟩ | ⟨e, -, rfl, -, rfl⟩
  · exact hmerged.pid
  · rfl
  · rfl

theorem mem_keys {run : Option (Run Id)} {key : ℤ} : key ∈ (byMergeKey run).map Prod.fst ↔
      ∃ ent ∈ fetchCanonicalEntities (entitiesOf run), ent.process.pid = key := by
  rw [← not_iff_not, ← Dict.get_eq_none, get_eq_none]
  push Not
  rfl

theorem mem_allItems :
    item ∈ allItems basic extended ↔ ∃ key, itemFor basic extended key = some item := by
  rw [allItems, Paging.mem_sorted, List.mem_filterMap]
  constructor
  · rintro ⟨key, -, hitem⟩
    exact ⟨key, hitem⟩
  · rintro ⟨key, hitem⟩
    refine ⟨key, ?_, hitem⟩
    rw [List.mem_dedup, List.mem_append, mem_keys, mem_keys]
    rcases itemFor_cases hitem with ⟨b, e, hmerged, hkey, -⟩ | ⟨b, hlast, hkey, -⟩ |
      ⟨e, hlast, hkey, -⟩
    · exact .inl ⟨b, (merged_iff.1 hmerged).1.mem, hkey⟩
    · exact .inl ⟨b, hlast.mem, hkey⟩
    · exact .inr ⟨e, hlast.mem, hkey⟩

/-- There is an item for a PID if it is fetched. -/
theorem exists_item {key : ℤ} : (∃ item ∈ allItems basic extended, item.process.pid = key) ↔
      ∃ y ∈ fetchCanonicalEntities (entitiesOf basic) ++
        fetchCanonicalEntities (entitiesOf extended), y.process.pid = key := by
  constructor
  · rintro ⟨item, hitem, rfl⟩
    obtain ⟨key, hkey⟩ := mem_allItems.1 hitem
    rw [pid_itemFor hkey]
    rcases itemFor_cases hkey with ⟨b, e, hmerged, hkey, -⟩ | ⟨b, hlast, hkey, -⟩ |
      ⟨e, hlast, hkey, -⟩
    · exact ⟨b, List.mem_append_left _ (merged_iff.1 hmerged).1.mem, hkey⟩
    · exact ⟨b, List.mem_append_left _ hlast.mem, hkey⟩
    · exact ⟨e, List.mem_append_right _ hlast.mem, hkey⟩
  · rintro ⟨y, hy, rfl⟩
    obtain ⟨item, hitem⟩ : ∃ item, itemFor basic extended y.process.pid = some item := by
      rw [itemFor]
      rcases hb : Dict.get (byMergeKey basic) y.process.pid with - | b
      · rcases he : Dict.get (byMergeKey extended) y.process.pid with - | e
        · rcases List.mem_append.1 hy with hy | hy
          · exact absurd rfl (get_eq_none.1 hb y hy)
          · exact absurd rfl (get_eq_none.1 he y hy)
        · exact ⟨_, rfl⟩
      · rcases he : Dict.get (byMergeKey extended) y.process.pid with - | e
        · exact ⟨_, rfl⟩
        · exact ⟨_, rfl⟩
    exact ⟨item, mem_allItems.2 ⟨_, hitem⟩, pid_itemFor hitem⟩

/-- No PID has two items. -/
theorem nodup_pids (basic extended : Option (Run Id)) :
    ((allItems basic extended).map fun item => item.process.pid).Nodup := by
  rw [allItems, ((Paging.perm_sorted _ _ _).map _).nodup_iff]
  refine List.pairwise_map.2 (List.Pairwise.filterMap _ ?_ (List.nodup_dedup _))
  intro key key' hne item hitem item' hitem' hpid
  exact hne ((pid_itemFor hitem).symm.trans (hpid.trans (pid_itemFor hitem')))

/-- The pages together are the list. -/
theorem followPages_eq {pageSize : ℕ} (h : 0 < pageSize) :
    followPages basic extended pageSize = allItems basic extended := by
  rw [followPages]
  show (List.range (((allItems basic extended).length + pageSize - 1) / pageSize)).flatMap
    (block pageSize (allItems basic extended)) = _
  rw [Paging.flatMap_block]
  refine List.take_of_length_le ?_
  have hdiv := Nat.div_add_mod ((allItems basic extended).length + pageSize - 1) pageSize
  have hlt := Nat.mod_lt ((allItems basic extended).length + pageSize - 1) h
  rw [Nat.mul_comm]
  omega

theorem Merged.mem_allItems {b e : Entity Id} (h : Merged basic extended b e) :
    mergeEntities b e (runIdOf basic) (runIdOf extended) ∈ allItems basic extended := by
  obtain ⟨key, hb, he⟩ := h
  refine Kairon.Process.mem_allItems.2 ⟨key, ?_⟩
  rw [itemFor, hb, he]

end Items

/-! ### Values that are kept -/

section Values

variable {α : Type} {falsy : α → Bool} {zero : α} {b e : Option α}

theorem kept_pyOr (hfalsy : ∀ a, falsy a = true ↔ a = zero) :
    Kept b e (pyOr falsy b e) ↔ (b = some zero → e.isSome) := by
  rcases b with - | a
  · exact ⟨fun _ h => absurd h nofun, fun _ h => ⟨h.resolve_left nofun, .inr rfl⟩⟩
  · by_cases ha : falsy a = true
    · have hor : pyOr falsy (some a) e = e := if_pos ha
      rw [hor, (hfalsy a).1 ha]
      exact ⟨fun h _ => (h (.inl rfl)).1, fun h _ => ⟨h rfl, .inr rfl⟩⟩
    · have hor : pyOr falsy (some a) e = some a := if_neg ha
      rw [hor]
      refine ⟨fun _ h => absurd ((hfalsy a).2 (Option.some.inj h)) ha, fun _ _ => ⟨rfl, .inl rfl⟩⟩

theorem kept_none : Kept b e none ↔ b = none ∧ e = none := by
  constructor
  · intro h
    rw [← Option.not_isSome_iff_eq_none, ← Option.not_isSome_iff_eq_none, ← not_or]
    exact fun hsome => absurd (h hsome).1 nofun
  · rintro ⟨rfl, rfl⟩ hsome
    exact absurd hsome (by simp)

/-- What a merge keeps of the fields. -/
theorem fieldsKept_iff (b e : Fields) : FieldsKept b e (mergeFields b e) ↔ FieldsMeet b e := by
  have hzero : ∀ a : ℤ, decide (a = 0) = true ↔ a = 0 := fun a => decide_eq_true_iff
  have hempty : ∀ a : Text, decide (a = []) = true ↔ a = [] := fun a => decide_eq_true_iff
  constructor
  · intro h
    exact
      { ppid := (kept_pyOr hzero).1 h.ppid
        name := (kept_pyOr hempty).1 h.name
        commandLine := (kept_pyOr hempty).1 h.commandLine
        createTime := (kept_pyOr hempty).1 h.createTime
        exitTime := (kept_pyOr hempty).1 h.exitTime
        executableName := kept_none.1 h.executableName
        uid := kept_none.1 h.uid
        user := kept_none.1 h.user
        status := kept_none.1 h.status }
  · intro h
    exact
      { ppid := (kept_pyOr hzero).2 h.ppid
        name := (kept_pyOr hempty).2 h.name
        commandLine := (kept_pyOr hempty).2 h.commandLine
        createTime := (kept_pyOr hempty).2 h.createTime
        exitTime := (kept_pyOr hempty).2 h.exitTime
        executableName := kept_none.2 h.executableName
        uid := kept_none.2 h.uid
        user := kept_none.2 h.user
        status := kept_none.2 h.status }

theorem apart_merge (b e : Visibility) :
    ¬ ((mergeVisibility b e).listed = true ∧ (mergeVisibility b e).scanOnly = true) ↔
      b.Apart e := by
  rw [Visibility.Apart, mergeVisibility, Bool.or_eq_true, Bool.or_eq_true, or_comm]
  tauto

theorem apart_self (v : Visibility) : ¬ (v.listed = true ∧ v.scanOnly = true) ↔ v.Apart v := by
  rw [Visibility.Apart, or_self, or_self]

end Values

/-! ### The result -/

section Result

variable {basic extended : Option (Run Id)}

theorem incarnation_eq {x y : Fields} :
    incarnation x = incarnation y ↔ x.pid = y.pid ∧ x.createTime = y.createTime := Prod.ext_iff

variable {item : FederatedItem Id}

/-- Every item is about an incarnation of one of the runs. -/
theorem item_known (h : item ∈ allItems basic extended) :
    ∃ ent ∈ entitiesOf basic ++ entitiesOf extended, shows ent item = true := by
  obtain ⟨key, hkey⟩ := mem_allItems.1 h
  rcases itemFor_cases hkey with ⟨b, e, hmerged, rfl, rfl⟩ | ⟨b, hlast, -, -, rfl⟩ |
    ⟨e, hlast, -, -, rfl⟩
  · obtain ⟨hb, he, hpid⟩ := merged_iff.1 hmerged
    -- its creation time is that of the basic side, or of the other
    have htime : (mergeFields b.process e.process).createTime = b.process.createTime ∨
        (mergeFields b.process e.process).createTime = e.process.createTime := by
      show pyOr _ _ _ = _ ∨ pyOr _ _ _ = _
      rw [pyOr]
      split
      · exact .inr rfl
      · exact .inl rfl
    rcases htime with htime | htime
    · exact ⟨b, List.mem_append_left _ (mem_of_fetch hb.mem),
        decide_eq_true (incarnation_eq.2 ⟨hmerged.pid, htime⟩)⟩
    · exact ⟨e, List.mem_append_right _ (mem_of_fetch he.mem),
        decide_eq_true (incarnation_eq.2 ⟨hmerged.pid.trans hpid, htime⟩)⟩
  · exact ⟨b, List.mem_append_left _ (mem_of_fetch hlast.mem), decide_eq_true rfl⟩
  · exact ⟨e, List.mem_append_right _ (mem_of_fetch hlast.mem), decide_eq_true rfl⟩

/-- An incarnation that has an item has one. -/
theorem filter_shows_length {ent : Entity Id}
    (hitem : item ∈ allItems basic extended) (hshows : shows ent item = true) :
    ((allItems basic extended).filter (shows ent)).length = 1 := by
  have hnodup := nodup_pids basic extended
  have hperm : ((allItems basic extended).filter (shows ent)).Perm [item] := by
    refine (List.perm_ext_iff_of_nodup (hnodup.of_map.filter _) (List.nodup_singleton _)).2
      fun other => ?_
    rw [List.mem_filter, List.mem_singleton]
    constructor
    · rintro ⟨hother, hthis⟩
      refine List.inj_on_of_nodup_map hnodup hother hitem ?_
      have hpid := (incarnation_eq.1 (of_decide_eq_true hthis)).1
      exact hpid.trans (incarnation_eq.1 (of_decide_eq_true hshows)).1.symm
    · rintro rfl
      exact ⟨hitem, hshows⟩
  rw [hperm.length_eq]
  rfl

/-- The item of a PID shows its incarnation, where the PID has but one. -/
theorem Federable.shows (h : Federable (entitiesOf basic) (entitiesOf extended))
    {x : Entity Id} (hx : x ∈ entitiesOf basic ++ entitiesOf extended) :
    ∃ item ∈ allItems basic extended, Kairon.Process.shows x item = true := by
  obtain ⟨item, hitem, hpid⟩ := exists_item.2 (h.reached x hx)
  refine ⟨item, hitem, ?_⟩
  obtain ⟨ent, hent, hshows⟩ := item_known hitem
  have hsame := incarnation_eq.1 (of_decide_eq_true hshows)
  have htime := h.one ent hent x hx (hsame.1.symm.trans hpid)
  exact decide_eq_true (incarnation_eq.2 ⟨hpid, hsame.2.trans htime⟩)

theorem federates_of_federable (h : Federable (entitiesOf basic) (entitiesOf extended)) :
    Federates basic extended where
  shown := by
    intro pageSize hsize x hx
    obtain ⟨item, hitem, hshows⟩ := h.shows hx
    rw [followPages_eq hsize]
    exact filter_shows_length hitem hshows
  known := by
    intro pageSize hsize item hitem
    rw [followPages_eq hsize] at hitem
    exact item_known hitem
  same := by
    intro b e hmerged
    obtain ⟨hb, he, hpid⟩ := merged_iff.1 hmerged
    refine incarnation_eq.2 ⟨hpid, h.one b ?_ e ?_ hpid⟩
    · exact List.mem_append_left _ (mem_of_fetch hb.mem)
    · exact List.mem_append_right _ (mem_of_fetch he.mem)
  kept := by
    intro b e hmerged
    obtain ⟨hb, he, hpid⟩ := merged_iff.1 hmerged
    exact (fieldsKept_iff _ _).2 (h.meets b e hb he hpid).1
  apart := by
    intro pageSize hsize item hitem
    rw [followPages_eq hsize] at hitem
    obtain ⟨key, hkey⟩ := mem_allItems.1 hitem
    rcases itemFor_cases hkey with ⟨b, e, hmerged, rfl, rfl⟩ | ⟨b, hlast, rfl, hnone, rfl⟩ |
      ⟨e, hlast, rfl, hnone, rfl⟩
    · obtain ⟨hb, he, hpid⟩ := merged_iff.1 hmerged
      exact (apart_merge _ _).2 (h.meets b e hb he hpid).2
    · exact (apart_self _).2 (h.single b (.inl ⟨hlast, hnone⟩))
    · exact (apart_self _).2 (h.single e (.inr ⟨hlast, hnone⟩))

theorem Federates.federable (h : Federates basic extended) :
    Federable (entitiesOf basic) (entitiesOf extended) := by
  have hall := @followPages_eq _ _ basic extended 1 Nat.one_pos
  have hitem : ∀ x ∈ entitiesOf basic ++ entitiesOf extended,
      ∃ item ∈ allItems basic extended, shows x item = true := by
    intro x hx
    have hone := h.shown 1 Nat.one_pos x hx
    rw [hall] at hone
    obtain ⟨item, hitem⟩ := List.exists_mem_of_length_pos (hone ▸ Nat.one_pos)
    exact ⟨item, List.mem_of_mem_filter hitem, (List.mem_filter.1 hitem).2⟩
  have hapart : ∀ item ∈ allItems basic extended,
      ¬ (item.visibility.listed = true ∧ item.visibility.scanOnly = true) := by
    intro item hitem
    exact h.apart 1 Nat.one_pos item (hall ▸ hitem)
  have hformat : ∀ {run : Option (Run Id)} {x : Entity Id},
      formatEntity x (runIdOf run) ∈ allItems basic extended → x.visibility.Apart x.visibility :=
    fun hmem => (apart_self _).1 (hapart _ hmem)
  refine ⟨?_, ?_, ?_, ?_⟩
  · intro x hx y hy hpid
    obtain ⟨item, hmem, hshows⟩ := hitem x hx
    obtain ⟨other, hother, hshows'⟩ := hitem y hy
    have hx' := incarnation_eq.1 (of_decide_eq_true hshows)
    have hy' := incarnation_eq.1 (of_decide_eq_true hshows')
    -- one PID has one item
    have hsame : item = other := List.inj_on_of_nodup_map (nodup_pids basic extended) hmem hother
      (hx'.1.trans (hpid.trans hy'.1.symm))
    exact hx'.2.symm.trans (hsame ▸ hy'.2)
  · intro x hx
    obtain ⟨item, hmem, hshows⟩ := hitem x hx
    exact exists_item.1 ⟨item, hmem, (incarnation_eq.1 (of_decide_eq_true hshows)).1⟩
  · intro b e hb he hpid
    have hmerged := merged_iff.2 ⟨hb, he, hpid⟩
    exact ⟨(fieldsKept_iff _ _).1 (h.kept b e hmerged),
      (apart_merge _ _).1 (hapart _ hmerged.mem_allItems)⟩
  · rintro x (⟨hlast, hnone⟩ | ⟨hlast, hnone⟩)
    · refine @hformat basic x (mem_allItems.2 ⟨x.process.pid, ?_⟩)
      rw [itemFor, get_eq_some.2 ⟨rfl, hlast⟩, get_eq_none.2 hnone]
    · refine @hformat extended x (mem_allItems.2 ⟨x.process.pid, ?_⟩)
      rw [itemFor, get_eq_some.2 ⟨rfl, hlast⟩, get_eq_none.2 hnone]

/-- **When the federated list shows both runs as they are.** -/
theorem federates_iff (basic extended : Option (Run Id)) :
    Federates basic extended ↔ Federable (entitiesOf basic) (entitiesOf extended) :=
  ⟨Federates.federable, federates_of_federable⟩

end Result

/-- A listed process of PID 712, with its creation time. -/
def listedProcess (id : ℕ) (created : String) : Entity ℕ where
  id := id
  osFamily := some "windows".toList
  process :=
    { pid := 712
      ppid := some 640
      name := some "svchost.exe".toList
      executableName := none
      commandLine := none
      createTime := some created.toList
      exitTime := none
      uid := none
      user := none
      status := none }
  visibility := ⟨true, false, false, false, false⟩
  sources := ["windows.pslist".toList]
  confidence := .medium
  findings := []
  observations := []

/-- A run in which a PID is used twice. -/
def reusedRun : Run ℕ :=
  ⟨"basic".toList, [listedProcess 1 "2025-03-07T19:41:00Z", listedProcess 2 "2025-03-07T20:03:00Z"]⟩

theorem reusedRun_loses : ¬ Federates (some reusedRun) none := by
  intro h
  have hfirst : listedProcess 1 "2025-03-07T19:41:00Z" ∈ reusedRun.entities ++ [] :=
    (.head _)
  have hsecond : listedProcess 2 "2025-03-07T20:03:00Z" ∈ reusedRun.entities ++ [] :=
    .tail _ (.head _)
  have hpid : ∀ id created, (listedProcess id created).process.pid = 712 := fun _ _ => rfl
  have hone := h.federable.one _ hfirst _ hsecond ((hpid _ _).trans (hpid _ _).symm)
  have htexts : "2025-03-07T19:41:00Z".toList ≠ "2025-03-07T20:03:00Z".toList := by
    decide +kernel
  exact htexts (Option.some.inj hone)

end Kairon.Process

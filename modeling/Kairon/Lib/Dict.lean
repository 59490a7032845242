/-
Kairon/Lib/Dict.lean

Dictionaries that keep the order of insertion, as rows of entries.
-/
import Mathlib.Data.List.Nodup

namespace Kairon.Dict

variable {κ α : Type} [DecidableEq κ]

/-- `d[key] = value`: a new key comes last, a known one keeps its place. -/
def set (key : κ) (value : α) : List (κ × α) → List (κ × α)
  | [] => [(key, value)]
  | entry :: entries =>
    if entry.1 = key then (key, value) :: entries else entry :: set key value entries

/-- `d.get(key)`. -/
def get (entries : List (κ × α)) (key : κ) : Option α :=
  (entries.find? fun entry => entry.1 = key).map Prod.snd

theorem find_set (key name : κ) (value : α) (entries : List (κ × α)) :
    (set key value entries).find? (fun entry => entry.1 = name) =
      if key = name then some (key, value) else entries.find? fun entry => entry.1 = name := by
  induction entries with
  | nil =>
    by_cases h : key = name
    · simp [set, h]
    · simp [set, h]
  | cons entry entries ih =>
    rw [set]
    by_cases hentry : entry.1 = key
    · rw [if_pos hentry]
      by_cases h : key = name
      · simp [h]
      · simp [h, hentry]
    · rw [if_neg hentry, List.find?_cons, List.find?_cons, ih]
      by_cases h : key = name
      · subst h
        simp [hentry]
      · simp [h]

theorem get_set (key name : κ) (value : α) (entries : List (κ × α)) :
    get (set key value entries) name = if key = name then some value else get entries name := by
  rw [get, find_set]
  by_cases h : key = name
  · rw [if_pos h, if_pos h]
    rfl
  · rw [if_neg h, if_neg h, get]

variable {entries : List (κ × α)}

/-- A new key comes last. -/
theorem set_of_notMem {key : κ} (value : α)
    (h : key ∉ entries.map Prod.fst) : set key value entries = entries ++ [(key, value)] := by
  induction entries with
  | nil => rfl
  | cons entry entries ih =>
    rw [List.map_cons, List.mem_cons, not_or] at h
    rw [set, if_neg fun hk => h.1 hk.symm, ih h.2, List.cons_append]

theorem keys_set {key : κ} {value : α} (h : key ∉ entries.map Prod.fst) :
    (set key value entries).map Prod.fst = entries.map Prod.fst ++ [key] := by
  rw [set_of_notMem value h, List.map_append, List.map_singleton]

theorem keys_set_of_mem {key : κ} {value : α} (h : key ∈ entries.map Prod.fst) :
    (set key value entries).map Prod.fst = entries.map Prod.fst := by
  induction entries with
  | nil => simp at h
  | cons entry entries ih =>
    rw [set]
    by_cases hentry : entry.1 = key
    · rw [if_pos hentry, List.map_cons, List.map_cons, hentry]
    · rw [if_neg hentry, List.map_cons, List.map_cons, ih]
      rw [List.map_cons, List.mem_cons] at h
      exact h.resolve_left fun hk => hentry hk.symm

theorem mem_of_mem_set {key : κ} {value : α} {entry : κ × α}
    (h : entry ∈ set key value entries) : entry = (key, value) ∨ entry ∈ entries := by
  induction entries with
  | nil => exact .inl (List.mem_singleton.1 h)
  | cons first entries ih =>
    rw [set] at h
    split at h
    · obtain rfl | h := List.mem_cons.1 h
      · exact .inl rfl
      · exact .inr (.tail _ h)
    · obtain rfl | h := List.mem_cons.1 h
      · exact .inr (.head _)
      · exact (ih h).imp_right (.tail _)

theorem mem_set {key : κ} {value : α} : (key, value) ∈ set key value entries := by
  induction entries with
  | nil => exact List.mem_singleton.2 rfl
  | cons entry entries ih =>
    rw [set]
    split
    · exact .head _
    · exact .tail _ ih

theorem mem_set_of_ne {key : κ} {value : α} {entry : κ × α}
    (h : entry ∈ entries) (hne : entry.1 ≠ key) : entry ∈ set key value entries := by
  induction entries with
  | nil => cases h
  | cons first entries ih =>
    rw [set]
    obtain rfl | h := List.mem_cons.1 h
    · rw [if_neg hne]
      exact .head _
    · split
      · exact .tail _ h
      · exact .tail _ (ih h)

theorem nodup_keys_set (key : κ) (value : α)
    (h : (entries.map Prod.fst).Nodup) : ((set key value entries).map Prod.fst).Nodup := by
  by_cases hkey : key ∈ entries.map Prod.fst
  · rw [keys_set_of_mem hkey]
    exact h
  · rw [keys_set hkey]
    exact List.nodup_append.2 ⟨h, List.nodup_singleton key,
      fun a ha b hb heq => hkey (List.mem_singleton.1 hb ▸ heq ▸ ha)⟩

/-- A relation between any two entries survives an assignment whose entry is
related to those of the other keys. -/
theorem pairwise_set {R : κ × α → κ × α → Prop} [Std.Symm R] {key : κ} {value : α}
    (hnodup : (entries.map Prod.fst).Nodup)
    (h : entries.Pairwise R) (hnew : ∀ entry ∈ entries, entry.1 ≠ key → R (key, value) entry) :
    (set key value entries).Pairwise R := by
  induction entries with
  | nil => exact List.pairwise_singleton ..
  | cons entry entries ih =>
    rw [List.map_cons, List.nodup_cons] at hnodup
    rw [List.pairwise_cons] at h
    rw [set]
    split
    · next hkey =>
        refine List.pairwise_cons.2 ⟨fun other hother => ?_, h.2⟩
        refine hnew other (.tail _ hother) fun hother_key => hnodup.1 ?_
        rw [hkey, ← hother_key]
        exact List.mem_map_of_mem hother
    · next hkey =>
        refine List.pairwise_cons.2 ⟨fun other hother => ?_,
          ih hnodup.2 h.2 fun other hother => hnew other (.tail _ hother)⟩
        obtain rfl | hother := mem_of_mem_set hother
        · exact Std.Symm.symm _ _ (hnew entry (.head _) hkey)
        · exact h.1 other hother

theorem get_eq_none {key : κ} : get entries key = none ↔ key ∉ entries.map Prod.fst := by
  rw [get, Option.map_eq_none_iff, List.find?_eq_none]
  constructor
  · intro h hkey
    obtain ⟨entry, hentry, hname⟩ := List.mem_map.1 hkey
    exact h entry hentry (decide_eq_true hname)
  · intro h entry hentry hname
    exact h (List.mem_map.2 ⟨entry, hentry, of_decide_eq_true hname⟩)

theorem mem_of_get {key : κ} {value : α}
    (h : get entries key = some value) : (key, value) ∈ entries := by
  rw [get, Option.map_eq_some_iff] at h
  obtain ⟨⟨key', value'⟩, hfind, rfl⟩ := h
  have hkey : key' = key := by simpa using List.find?_some hfind
  rw [← hkey]
  exact List.mem_of_find?_eq_some hfind

theorem get_of_mem (hnodup : (entries.map Prod.fst).Nodup)
    {entry : κ × α} (h : entry ∈ entries) : get entries entry.1 = some entry.2 := by
  rcases hget : get entries entry.1 with - | value
  · exact absurd (List.mem_map_of_mem h) (get_eq_none.1 hget)
  · have hmem := mem_of_get hget
    have heq : (entry.1, value) = entry := List.inj_on_of_nodup_map hnodup hmem h rfl
    rw [← heq]

/-- A dictionary that is filled from a row has for a key what comes last. -/
theorem get_foldl_set {β : Type} (key : β → κ) (value : β → α) (row : List β)
    (entries : List (κ × α)) (name : κ) :
    get (row.foldl (fun entries x => set (key x) (value x) entries) entries) name =
      ((row.reverse.find? fun x => key x = name).map value).or (get entries name) := by
  induction row generalizing entries with
  | nil => rfl
  | cons x row ih =>
    rw [List.foldl_cons, ih, get_set, List.reverse_cons, List.find?_append]
    rcases row.reverse.find? fun x => decide (key x = name) with - | y
    · by_cases h : key x = name
      · simp [h]
      · simp [h]
    · rfl

theorem keys_foldl_set {β : Type} (key : β → κ) (value : β → α) {row : List β}
    (hnodup : (row.map key).Nodup) (entries : List (κ × α))
    (hnew : ∀ x ∈ row, key x ∉ entries.map Prod.fst) :
    (row.foldl (fun entries x => set (key x) (value x) entries) entries).map Prod.fst =
      entries.map Prod.fst ++ row.map key := by
  induction row generalizing entries with
  | nil => simp
  | cons x row ih =>
    rw [List.map_cons, List.nodup_cons] at hnodup
    have hkeys : (set (key x) (value x) entries).map Prod.fst = entries.map Prod.fst ++ [key x] :=
      keys_set (hnew x (.head _))
    rw [List.foldl_cons, ih hnodup.2, hkeys, List.append_assoc]
    · rfl
    · intro y hy
      rw [hkeys, List.mem_append, List.mem_singleton, not_or]
      refine ⟨hnew y (.tail _ hy), fun heq => ?_⟩
      exact hnodup.1 (heq ▸ List.mem_map_of_mem hy)

theorem keys_foldl_set_of_mem {β : Type} (key : β → κ) (value : β → α) {row : List β}
    (h : ∀ x ∈ row, key x ∈ entries.map Prod.fst) :
    (row.foldl (fun entries x => set (key x) (value x) entries) entries).map Prod.fst =
      entries.map Prod.fst := by
  induction row generalizing entries with
  | nil => rfl
  | cons x row ih =>
    have hkeys : (set (key x) (value x) entries).map Prod.fst = entries.map Prod.fst :=
      keys_set_of_mem (h x (.head _))
    rw [List.foldl_cons, ih, hkeys]
    intro y hy
    rw [hkeys]
    exact h y (.tail _ hy)

theorem get_map {β : Type} (f : κ → α → β) (entries : List (κ × α)) (key : κ) :
    get (entries.map fun entry => (entry.1, f entry.1 entry.2)) key =
      (get entries key).map (f key) := by
  induction entries with
  | nil => rfl
  | cons entry entries ih =>
    rw [get] at ih ⊢
    rw [get] at ih ⊢
    rw [List.map_cons, List.find?_cons, List.find?_cons]
    by_cases h : entry.1 = key
    · simp [h]
    · simpa [h] using ih

theorem get_eq_some (hnodup : (entries.map Prod.fst).Nodup) {key : κ}
    {value : α} : get entries key = some value ↔ (key, value) ∈ entries :=
  ⟨mem_of_get, fun h => get_of_mem hnodup h⟩

/-- Dictionaries are the same but for the order exactly if they have the same for every key. -/
theorem perm_iff_get {entries others : List (κ × α)} (hnodup : (entries.map Prod.fst).Nodup)
    (hothers : (others.map Prod.fst).Nodup) :
    entries.Perm others ↔ ∀ key, get entries key = get others key := by
  rw [List.perm_ext_iff_of_nodup hnodup.of_map hothers.of_map]
  constructor
  · intro h key
    refine Option.ext fun value => ?_
    rw [get_eq_some hnodup, get_eq_some hothers, h]
  · intro h entry
    rw [← get_eq_some hnodup, ← get_eq_some hothers, h]

/-- A dictionary of optional values is its keys with what it has for them. -/
theorem eq_map_keys {entries : List (κ × Option α)} (hnodup : (entries.map Prod.fst).Nodup) :
    entries = (entries.map Prod.fst).map fun key => (key, (get entries key).join) := by
  rw [List.map_map]
  conv_lhs => rw [← List.map_id entries]
  refine List.map_congr_left fun entry hentry => ?_
  rw [Function.comp_apply, get_of_mem hnodup hentry]
  rfl

end Kairon.Dict

/-
Kairon/Lib/Postings.lean

Indexes from keys to what has them.

A dictionary of lists is filled by `push`; `lookup` is what it has for a key, and
`Indexes` says that this is exactly what has the key among all that was added;
`columns` puts all that is added under its keys.
Whatever several such dictionaries find, put in the order in which it was added, is
the part of all that was added which is found (`sort_by_place`), so that a test
which implies to be found selects the same from either (`filter_found`).
-/
import Mathlib
import Kairon.Lib.Dict

namespace Kairon.Postings

variable {κ ρ : Type} [DecidableEq κ] [DecidableEq ρ]

/-! ### Dictionaries of lists -/

/-- `entries[key].append(ref)` of a `defaultdict(list)`. -/
def push (key : κ) (ref : ρ) (entries : List (κ × List ρ)) : List (κ × List ρ) :=
  Dict.set key ((Dict.get entries key).getD [] ++ [ref]) entries

/-- `entries.get(key, [])`. -/
def lookup (entries : List (κ × List ρ)) (key : κ) : List ρ := (Dict.get entries key).getD []

/-- `push`, if there is a key. -/
def pushAll (keys : Option κ) (ref : ρ) (entries : List (κ × List ρ)) : List (κ × List ρ) :=
  keys.elim entries fun key => push key ref entries

variable {entries : List (κ × List ρ)}

omit [DecidableEq ρ] in
theorem mem_push {key k : κ} {ref x : ρ} :
    x ∈ lookup (push key ref entries) k ↔ x ∈ lookup entries k ∨ key = k ∧ x = ref := by
  rw [lookup, push, Dict.get_set]
  by_cases h : key = k
  · subst h
    rw [if_pos rfl, Option.getD_some, List.mem_append, List.mem_singleton]
    exact or_congr_right (and_iff_right rfl).symm
  · rw [if_neg h]
    exact (or_iff_left fun hx => h hx.1).symm

/-- A dictionary has under every key what has the key. -/
def Indexes (entries : List (κ × List ρ)) (added : List ρ) (keyOf : ρ → Option κ) : Prop :=
  ∀ k x, x ∈ lookup entries k ↔ x ∈ added ∧ keyOf x = some k

omit [DecidableEq ρ] in
theorem indexes_nil (keyOf : ρ → Option κ) : Indexes ([] : List (κ × List ρ)) [] keyOf := by
  intro k x
  exact iff_of_false List.not_mem_nil fun h => List.not_mem_nil h.1

omit [DecidableEq ρ] in
theorem Indexes.congr {added : List ρ} {keyOf keyOf' : ρ → Option κ}
    (h : Indexes entries added keyOf) (hsame : ∀ x ∈ added, keyOf' x = keyOf x) :
    Indexes entries added keyOf' := by
  intro k x
  rw [h k x]
  exact and_congr_right fun hx => by rw [hsame x hx]

omit [DecidableEq ρ] in
theorem Indexes.push {added : List ρ} {keyOf : ρ → Option κ}
    (h : Indexes entries added keyOf) (ref : ρ) :
    Indexes (pushAll (keyOf ref) ref entries) (added ++ [ref]) keyOf := by
  intro k x
  rw [List.mem_append, List.mem_singleton, or_and_right, ← h k x]
  rcases hkey : keyOf ref with - | key
  · refine (or_iff_left ?_).symm
    rintro ⟨rfl, hk⟩
    rw [hkey] at hk
    cases hk
  · rw [pushAll, Option.elim_some, mem_push]
    refine or_congr_right ⟨?_, ?_⟩
    · rintro ⟨rfl, rfl⟩
      exact ⟨rfl, hkey⟩
    · rintro ⟨rfl, hk⟩
      exact ⟨Option.some.inj (hkey.symm.trans hk), rfl⟩

/-! ### Columns -/

/-- All that is added, each under its key. -/
def columns (key : ρ → κ) (row : List ρ) : List (κ × List ρ) :=
  row.foldl (fun entries x => push (key x) x entries) []

omit [DecidableEq ρ] in
theorem lookup_columns (key : ρ → κ) (row : List ρ) (k : κ) :
    lookup (columns key row) k = row.filter fun x => key x = k := by
  have hfold : ∀ entries : List (κ × List ρ),
      lookup (row.foldl (fun entries x => push (key x) x entries) entries) k =
        lookup entries k ++ row.filter fun x => key x = k := by
    induction row with
    | nil => exact fun entries => (List.append_nil _).symm
    | cons x row ih =>
      intro entries
      rw [List.foldl_cons, ih, lookup, push, Dict.get_set, List.filter_cons]
      by_cases h : key x = k
      · subst h
        rw [if_pos rfl, if_pos (decide_eq_true rfl), Option.getD_some, List.append_assoc]
        rfl
      · rw [if_neg h, if_neg (by simp [h])]
        rfl
  exact hfold []

omit [DecidableEq ρ] in
theorem nodup_columns (key : ρ → κ) (row : List ρ) : ((columns key row).map Prod.fst).Nodup := by
  have hfold : ∀ entries : List (κ × List ρ), (entries.map Prod.fst).Nodup →
      ((row.foldl (fun entries x => push (key x) x entries) entries).map Prod.fst).Nodup := by
    induction row with
    | nil => exact fun _ h => h
    | cons x row ih => exact fun entries h => ih _ (Dict.nodup_keys_set _ _ h)
  exact hfold [] List.nodup_nil

omit [DecidableEq ρ] in
/-- The columns are their keys with what has them. -/
theorem columns_eq (key : ρ → κ) (row : List ρ) : columns key row =
    ((columns key row).map Prod.fst).map fun k => (k, row.filter fun x => key x = k) := by
  rw [List.map_map]
  refine (List.map_id _).symm.trans (List.map_congr_left fun entry hentry => ?_)
  have hget := Dict.get_of_mem (nodup_columns key row) hentry
  have hlookup := lookup_columns key row entry.1
  rw [lookup, hget, Option.getD_some] at hlookup
  exact Prod.ext rfl hlookup

omit [DecidableEq ρ] in
theorem mem_columns {key : ρ → κ} {row : List ρ} {x : ρ} (h : x ∈ row) :
    key x ∈ (columns key row).map Prod.fst := by
  by_contra hnot
  have hlookup := lookup_columns key row (key x)
  rw [lookup, Dict.get_eq_none.2 hnot, Option.getD_none] at hlookup
  have hin : x ∈ row.filter fun y => key y = key x :=
    List.mem_filter.2 ⟨h, decide_eq_true rfl⟩
  rw [← hlookup] at hin
  cases hin

/-! ### The order of what is added -/

theorem nodup_eraseDups {α : Type} [BEq α] [LawfulBEq α] (xs : List α) : xs.eraseDups.Nodup := by
  induction hn : xs.length using Nat.strong_induction_on generalizing xs with
  | h n ih =>
    rcases xs with - | ⟨x, xs⟩
    · exact List.nodup_nil
    rw [List.eraseDups_cons, List.nodup_cons]
    refine ⟨fun hmem => ?_, ih _ ?_ _ rfl⟩
    · have hin := List.mem_filter.1 (List.mem_eraseDups.1 hmem)
      simp at hin
    · rw [← hn, List.length_cons]
      exact Nat.lt_succ_of_le (List.length_filter_le _ _)

theorem eraseDups_of_nodup {xs : List ρ} (h : xs.Nodup) : xs.eraseDups = xs := by
  induction xs with
  | nil => rfl
  | cons x xs ih =>
    rw [List.nodup_cons] at h
    have hrest : xs.filter (fun y => !y == x) = xs := by
      refine List.filter_eq_self.2 fun y hy => ?_
      rw [Bool.not_eq_true', beq_eq_false_iff_ne]
      rintro rfl
      exact h.1 hy
    rw [List.eraseDups_cons, hrest, ih h.2]

/-- What is found, by its place among what was added. -/
theorem sort_by_place {added found : List ρ} (hnodup : added.Nodup)
    (hfound : ∀ x ∈ found, x ∈ added) :
    found.eraseDups.insertionSort (fun a b => added.idxOf a ≤ added.idxOf b) =
      added.filter fun x => x ∈ found := by
  have htotal : Std.Total fun a b : ρ => added.idxOf a ≤ added.idxOf b :=
    ⟨fun a b => le_total _ _⟩
  have htrans : IsTrans ρ fun a b => added.idxOf a ≤ added.idxOf b :=
    ⟨fun a b c => le_trans⟩
  have hmem : ∀ x, x ∈ found.eraseDups.insertionSort
      (fun a b => added.idxOf a ≤ added.idxOf b) ↔ x ∈ found := by
    intro x
    rw [List.mem_insertionSort, List.mem_eraseDups]
  have hperm : (found.eraseDups.insertionSort
      (fun a b => added.idxOf a ≤ added.idxOf b)).Perm (added.filter fun x => x ∈ found) := by
    refine (List.perm_insertionSort _ _).trans
      ((List.perm_ext_iff_of_nodup (nodup_eraseDups _) (hnodup.filter _)).2 fun x => ?_)
    rw [List.mem_eraseDups, List.mem_filter, decide_eq_true_eq]
    exact ⟨fun hx => ⟨hfound x hx, hx⟩, fun hx => hx.2⟩
  have hsorted : (added.filter fun x => x ∈ found).Pairwise
      fun a b => added.idxOf a ≤ added.idxOf b := by
    have hall : added.Pairwise fun a b => added.idxOf a ≤ added.idxOf b := by
      rw [List.pairwise_iff_getElem]
      intro i j hi hj hij
      rw [hnodup.idxOf_getElem, hnodup.idxOf_getElem]
      exact hij.le
    exact hall.sublist List.filter_sublist
  refine List.Perm.eq_of_pairwise ?_ (List.pairwise_insertionSort _ _) hsorted hperm
  intro a b ha hb hab hba
  exact (List.idxOf_inj (hfound a ((hmem a).1 ha))).1 (le_antisymm hab hba)

/-- A test that only what is found can pass selects the same from what is found as from all
that was added. -/
theorem filter_found {added found : List ρ} (hnodup : added.Nodup)
    (hfound : ∀ x ∈ found, x ∈ added) {p : ρ → Bool} (hp : ∀ x ∈ added, p x = true → x ∈ found) :
    (found.eraseDups.insertionSort fun a b => added.idxOf a ≤ added.idxOf b).filter p =
      added.filter p := by
  rw [sort_by_place hnodup hfound, List.filter_filter]
  refine List.filter_congr fun x hx => ?_
  rcases hpx : p x with - | -
  · rfl
  · rw [Bool.true_and]
    exact decide_eq_true (hp x hx hpx)

end Kairon.Postings

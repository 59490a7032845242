/-
Kairon/Lib/Rows.lean

A table filled in one pass: a record under a key that has a row adds to the row, any
other record makes a new one; a record without a key always makes its own.

The row of a key depends only on the records of the key in their order (`rows_keyed`).
Two passes over lists without a common key therefore make the rows of one pass over
both, in whatever order the lists are mixed (`rows_perm`), and with a common key they
make more rows (`disjoint_of_length_rows`).
-/
import Kairon.Lib.Gather

namespace Kairon.Gather

variable {α β κ : Type*} [DecidableEq κ]

theorem firstKeys_concat (ks : List κ) (k : κ) :
    firstKeys id (ks ++ [k]) = if k ∈ ks then firstKeys id ks else firstKeys id ks ++ [k] := by
  induction ks with
  | nil => rfl
  | cons j ks ih =>
    rw [List.cons_append, firstKeys, firstKeys, ih]
    by_cases hk : k ∈ ks
    · rw [if_pos hk, if_pos (List.mem_cons_of_mem j hk)]
    · rw [if_neg hk, List.filter_append]
      by_cases hkj : k = j
      · rw [if_pos (by simp [hkj])]
        simp [hkj]
      · rw [if_neg (by simp [hk, hkj])]
        simp [hkj]

theorem mem_firstKeys_id {ks : List κ} {k : κ} : k ∈ firstKeys id ks ↔ k ∈ ks := by
  simp [mem_firstKeys]

section

variable (key : α → Option κ) (new : α → β) (add : β → α → β)

/-- What one record does to the rows. -/
def put (rows : List (Option κ × β)) (a : α) : List (Option κ × β) :=
  match key a with
  | none => rows ++ [(none, new a)]
  | some k =>
    if some k ∈ rows.map Prod.fst then
      rows.map fun row => if row.1 = some k then (row.1, add row.2 a) else row
    else rows ++ [(some k, new a)]

/-- The rows of some records, with their keys. -/
def rows (xs : List α) : List (Option κ × β) := xs.foldl (put key new add) []

/-- The row that some records make together. -/
def rowOf (xs : List α) : Option β :=
  xs.foldl (fun row a => some (row.elim (new a) (add · a))) none

variable {key new add}

theorem rows_concat (xs : List α) (a : α) :
    rows key new add (xs ++ [a]) = put key new add (rows key new add xs) a := by
  rw [rows, List.foldl_append]
  rfl

theorem rowOf_concat (xs : List α) (a : α) :
    rowOf new add (xs ++ [a]) = some ((rowOf new add xs).elim (new a) (add · a)) := by
  rw [rowOf, List.foldl_append]
  rfl

/-- The rows without a key. -/
theorem rows_keyless (xs : List α) : ((rows key new add xs).filter fun row => row.1 = none) =
      (xs.filter fun a => key a = none).map fun a => (none, new a) := by
  induction xs using List.reverseRecOn with
  | nil => rfl
  | append_singleton xs a ih =>
    rw [rows_concat, put, List.filter_append, List.map_append, ← ih]
    rcases hkey : key a with - | k
    · simp [hkey]
    · have hkeyless : ([a].filter fun a => key a = none) = [] := by simp [hkey]
      rw [hkeyless, List.map_nil, List.append_nil]
      dsimp only
      split_ifs with hmem
      · rw [List.filter_map]
        have hsame : ((fun row : Option κ × β => decide (row.1 = none)) ∘ fun row =>
            if row.1 = some k then (row.1, add row.2 a) else row) =
              fun row => decide (row.1 = none) := by
          funext row
          dsimp only [Function.comp_apply]
          split_ifs <;> rfl
        rw [hsame]
        refine (List.map_congr_left fun row hrow => ?_).trans (List.map_id _)
        have hnone : row.1 = none := of_decide_eq_true (List.mem_filter.1 hrow).2
        rw [hnone, if_neg (Option.some_ne_none k).symm]
        rfl
      · rw [List.filter_append]
        simp

/-- A row under its key, and what the records of a key make. -/
def entry (row : Option κ × β) : Option κ × Option β := (row.1, some row.2)

def made (key : α → Option κ) (new : α → β) (add : β → α → β) (xs : List α) (k : κ) :
    Option κ × Option β :=
  (some k, rowOf new add (xs.filter fun a => key a = some k))

/-- What one more record of a key makes of an entry. -/
def more (new : α → β) (add : β → α → β) (k : κ) (a : α) (e : Option κ × Option β) :
    Option κ × Option β :=
  if e.1 = some k then (e.1, some (e.2.elim (new a) (add · a))) else e

theorem made_concat (xs : List α) {a : α} {k : κ} (hkey : key a = some k) (j : κ) :
    made key new add (xs ++ [a]) j = more new add k a (made key new add xs j) := by
  unfold made more
  rw [List.filter_append]
  by_cases hj : j = k
  · subst hj
    have hself : ([a].filter fun b => key b = some j) = [a] := by simp [hkey]
    rw [if_pos rfl, hself, rowOf_concat]
  · have hne : key a ≠ some j := fun h => hj (Option.some.inj (h.symm.trans hkey))
    rw [if_neg fun h => hj (Option.some.inj h), List.filter_cons_of_neg (by simpa using hne),
      List.filter_nil, List.append_nil]

/-- The rows with a key: for each one what its records make. -/
theorem rows_keyed (xs : List α) :
    ((rows key new add xs).filter fun row => row.1 ≠ none).map entry =
      (firstKeys id (xs.filterMap key)).map (made key new add xs) := by
  induction xs using List.reverseRecOn with
  | nil => rfl
  | append_singleton xs a ih =>
    rw [rows_concat, put, List.filterMap_append]
    rcases hkey : key a with - | k
    · have hmade : made key new add (xs ++ [a]) = made key new add xs := by
        funext j
        simp [made, hkey]
      have hnone : ([(none, new a)] : List (Option κ × β)).filter (fun row => row.1 ≠ none) = [] :=
        by simp
      have hlast : [a].filterMap key = [] := by simp [hkey]
      rw [hmade, List.filter_append, hnone, List.append_nil, ih, hlast, List.append_nil]
    · have hmem : some k ∈ (rows key new add xs).map Prod.fst ↔ k ∈ xs.filterMap key := by
        have hkeys := congrArg (List.map Prod.fst) ih
        rw [List.map_map, List.map_map] at hkeys
        have hkeyed : some k ∈ ((rows key new add xs).filter fun row => row.1 ≠ none).map
            (Prod.fst ∘ entry) ↔ some k ∈ (rows key new add xs).map Prod.fst := by
          simp [entry, Function.comp_def]
        rw [← hkeyed, hkeys]
        simp [made, Function.comp_def, mem_firstKeys_id]
      have hlast : [a].filterMap key = [k] := by simp [hkey]
      rw [hlast, firstKeys_concat]
      dsimp only
      split_ifs with hrows hks hks
      · have hmade : made key new add (xs ++ [a]) = more new add k a ∘ made key new add xs :=
          funext (made_concat xs hkey)
        rw [hmade, ← List.map_map, ← ih, List.filter_map, List.map_map, List.map_map]
        have hkeyed : ((fun row : Option κ × β => decide (row.1 ≠ none)) ∘ fun row =>
            if row.1 = some k then (row.1, add row.2 a) else row) =
              fun row => decide (row.1 ≠ none) := by
          funext row
          dsimp only [Function.comp_apply]
          split_ifs <;> rfl
        rw [hkeyed]
        refine List.map_congr_left fun row _ => ?_
        show entry (if row.1 = some k then (row.1, add row.2 a) else row) =
          more new add k a (entry row)
        unfold more entry
        split_ifs <;> rfl
      · exact absurd (hmem.1 hrows) hks
      · exact absurd (hmem.2 hks) hrows
      · rw [List.filter_append, List.map_append, ih, List.map_append]
        have hfresh : xs.filter (fun b => key b = some k) = [] := by
          refine List.filter_eq_nil_iff.2 fun b hb hbk => hks ?_
          exact List.mem_filterMap.2 ⟨b, hb, of_decide_eq_true hbk⟩
        have hnew : made key new add (xs ++ [a]) k = (some k, some (new a)) := by
          rw [made_concat xs hkey, made, hfresh]
          exact if_pos rfl
        refine congrArg₂ _ (List.map_congr_left fun j hj => ?_) ?_
        · rw [made_concat xs hkey, more, if_neg]
          intro h
          obtain rfl : j = k := Option.some.inj h
          obtain ⟨i, hi, rfl⟩ := mem_firstKeys.1 hj
          exact hks hi
        · rw [List.map_singleton, hnew]
          simp [entry]

/-! ### Two passes -/

/-- The rows of a list, as those without a key and those of the keys. -/
theorem rows_entries (xs : List α) : ((rows key new add xs).map entry).Perm
      ((xs.filter fun a => key a = none).map (fun a => (none, some (new a))) ++
        (firstKeys id (xs.filterMap key)).map (made key new add xs)) := by
  have hsplit := (List.filter_append_perm (fun row : Option κ × β => decide (row.1 = none))
    (rows key new add xs)).map entry
  rw [List.map_append, rows_keyless, List.map_map] at hsplit
  have hkeyed : ((rows key new add xs).filter fun row => !decide (row.1 = none)) =
      (rows key new add xs).filter fun row => row.1 ≠ none :=
    List.filter_congr fun row _ => by simp
  rw [hkeyed, rows_keyed] at hsplit
  exact hsplit.symm

omit [DecidableEq κ] in
theorem entry_injective : Function.Injective (@entry β κ) := by
  rintro ⟨k, b⟩ ⟨k', b'⟩ h
  obtain ⟨hk, hb⟩ := Prod.mk.inj h
  exact Prod.ext hk (Option.some.inj hb)

/-- **Two passes over lists without a common key make the rows of one pass over both**,
in any order that keeps the records of every key in theirs. -/
theorem rows_perm {all xs ys : List α} (hperm : all.Perm (xs ++ ys))
    (hdisjoint : ∀ a ∈ xs, ∀ b ∈ ys, key a = key b → key a = none)
    (hxs : ∀ k, (∃ a ∈ xs, key a = some k) →
      (all.filter fun a => key a = some k) = xs.filter fun a => key a = some k)
    (hys : ∀ k, (∃ b ∈ ys, key b = some k) →
      (all.filter fun a => key a = some k) = ys.filter fun a => key a = some k) :
    (rows key new add all).Perm (rows key new add xs ++ rows key new add ys) := by
  rw [← List.map_perm_map_iff entry_injective, List.map_append]
  refine (rows_entries all).trans (List.Perm.trans ?_
    ((rows_entries xs).append (rows_entries ys)).symm)
  have hkeyless := (hperm.filter fun a => key a = none).map fun a => ((none : Option κ), some (new a))
  rw [List.filter_append, List.map_append] at hkeyless
  have hkeys : (firstKeys id (all.filterMap key)).Perm
      (firstKeys id (xs.filterMap key) ++ firstKeys id (ys.filterMap key)) := by
    refine (List.perm_ext_iff_of_nodup (nodup_firstKeys _) ?_).2 fun k => ?_
    · refine List.nodup_append.2 ⟨nodup_firstKeys _, nodup_firstKeys _, fun k hk j hj hkj => ?_⟩
      subst hkj
      obtain ⟨a, ha, hak⟩ := List.mem_filterMap.1 (mem_firstKeys_id.1 hk)
      obtain ⟨b, hb, hbk⟩ := List.mem_filterMap.1 (mem_firstKeys_id.1 hj)
      have hnone := hdisjoint a ha b hb (hak.trans hbk.symm)
      rw [hak] at hnone
      cases hnone
    · rw [mem_firstKeys_id, List.mem_append, mem_firstKeys_id, mem_firstKeys_id,
        (hperm.filterMap key).mem_iff, List.filterMap_append, List.mem_append]
  have hmade := hkeys.map (made key new add all)
  rw [List.map_append] at hmade
  have hleft : (firstKeys id (xs.filterMap key)).map (made key new add all) =
      (firstKeys id (xs.filterMap key)).map (made key new add xs) := by
    refine List.map_congr_left fun k hk => ?_
    obtain ⟨a, ha, hak⟩ := List.mem_filterMap.1 (mem_firstKeys_id.1 hk)
    rw [made, made, hxs _ ⟨a, ha, hak⟩]
  have hright : (firstKeys id (ys.filterMap key)).map (made key new add all) =
      (firstKeys id (ys.filterMap key)).map (made key new add ys) := by
    refine List.map_congr_left fun k hk => ?_
    obtain ⟨a, ha, hak⟩ := List.mem_filterMap.1 (mem_firstKeys_id.1 hk)
    rw [made, made, hys _ ⟨a, ha, hak⟩]
  rw [hleft, hright] at hmade
  refine (hkeyless.append hmade).trans ?_
  rw [List.append_assoc, List.append_assoc]
  refine List.Perm.append_left _ ?_
  rw [← List.append_assoc, ← List.append_assoc]
  exact List.perm_append_comm.append_right _

theorem length_rows (xs : List α) : (rows key new add xs).length =
      (xs.filter fun a => key a = none).length + (xs.filterMap key).toFinset.card := by
  have hlength := (@rows_entries α β κ _ key new add xs).length_eq
  have hcard : (firstKeys id (xs.filterMap key)).length = (xs.filterMap key).toFinset.card := by
    rw [← List.toFinset_card_of_nodup (nodup_firstKeys _)]
    refine congrArg Finset.card (Finset.ext fun k => ?_)
    rw [List.mem_toFinset, List.mem_toFinset, mem_firstKeys_id]
  simpa [hcard] using hlength

/-- A pass over both lists that makes as many rows as two passes has no common key. -/
theorem disjoint_of_length_rows {all xs ys : List α} (hperm : all.Perm (xs ++ ys))
    (hlength : (rows key new add all).length =
      (rows key new add xs).length + (rows key new add ys).length) :
    ∀ a ∈ xs, ∀ b ∈ ys, key a = key b → key a = none := by
  intro a ha b hb hab
  by_contra hkey
  obtain ⟨k, hk⟩ := Option.ne_none_iff_exists'.1 hkey
  rw [length_rows, length_rows, length_rows, (hperm.filter _).length_eq, List.filter_append,
    List.length_append, List.toFinset_eq_of_perm _ _ (hperm.filterMap key),
    List.filterMap_append, List.toFinset_append] at hlength
  have hcard := Finset.card_union_add_card_inter (xs.filterMap key).toFinset
    (ys.filterMap key).toFinset
  have hinter : (xs.filterMap key).toFinset ∩ (ys.filterMap key).toFinset ≠ ∅ := by
    refine Finset.nonempty_iff_ne_empty.1 ⟨k, Finset.mem_inter.2 ⟨?_, ?_⟩⟩
    · exact List.mem_toFinset.2 (List.mem_filterMap.2 ⟨a, ha, hk⟩)
    · exact List.mem_toFinset.2 (List.mem_filterMap.2 ⟨b, hb, hab ▸ hk⟩)
  have hpos := Finset.card_pos.2 (Finset.nonempty_iff_ne_empty.2 hinter)
  omega

end

end Kairon.Gather

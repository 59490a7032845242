/-
Kairon/Lib/Coalesce.lean

Rows that are merged by an identity.

`merge` goes through the items: an item whose identity a row has already is combined with
that row, any other item is appended.  The rows are therefore determined by two things, the
identities in the order in which they first occur (`idents_merge`) and what the items of one
identity add up to (`find_merge`).  From this it follows that merging the same items again
changes nothing (`merge_merge_self`), and that items of different identities can be merged
in either order (`merge_comm`).

Combining two items keeps their identity only for items that are well formed; `Lawful`
says so.
-/
import Kairon.Lib.Gather

namespace Kairon.Coalesce

open Gather

variable {α κ : Type} [DecidableEq κ]

/-! ### Merging -/

section

variable (ident : α → κ) (combine : α → α → α)

/-- One item: into the first row of its identity, or at the end. -/
def put (a : α) : List α → List α
  | [] => [a]
  | b :: rows => if ident b = ident a then combine b a :: rows else b :: put a rows

/-- All items, one after the other. -/
def merge (rows items : List α) : List α :=
  items.foldl (fun rows a => put ident combine a rows) rows

/-- The row of an identity. -/
def find (k : κ) (rows : List α) : Option α := rows.find? (ident · = k)

/-- What a row is after an item of its identity. -/
def absorb (row : Option α) (a : α) : Option α := some (row.elim a (combine · a))

/-- Combining well formed items of one identity gives a well formed one of this identity. -/
structure Lawful (ok : α → Prop) : Prop where
  ok_combine : ∀ a b, ok a → ok b → ident a = ident b → ok (combine a b)
  ident_combine : ∀ a b, ok a → ok b → ident a = ident b → ident (combine a b) = ident a

end

variable {ident : α → κ} {combine : α → α → α} {ok : α → Prop} {a : α} {rows items : List α}

theorem merge_cons (a : α) (rows items : List α) : merge ident combine rows (a :: items) =
      merge ident combine (put ident combine a rows) items := rfl

theorem merge_append (rows items more : List α) : merge ident combine rows (items ++ more) =
      merge ident combine (merge ident combine rows items) more := List.foldl_append

theorem find_mem {k : κ} {row : α} (h : find ident k rows = some row) :
    row ∈ rows ∧ ident row = k :=
  ⟨List.mem_of_find?_eq_some h, by simpa using List.find?_some h⟩

/-! ### One item -/

section

variable (hlawful : Lawful ident combine ok)

include hlawful

theorem ok_put (ha : ok a) (hrows : ∀ row ∈ rows, ok row) :
    ∀ row ∈ put ident combine a rows, ok row := by
  induction rows with
  | nil => exact fun row hrow => List.mem_singleton.1 hrow ▸ ha
  | cons b rows ih =>
    obtain ⟨hb, hrows⟩ := List.forall_mem_cons.1 hrows
    rw [put]
    split
    · next h => exact List.forall_mem_cons.2 ⟨hlawful.ok_combine b a hb ha h, hrows⟩
    · exact List.forall_mem_cons.2 ⟨hb, ih hrows⟩

theorem idents_put (ha : ok a) (hrows : ∀ row ∈ rows, ok row) :
    (put ident combine a rows).map ident =
      if ident a ∈ rows.map ident then rows.map ident else rows.map ident ++ [ident a] := by
  induction rows with
  | nil => rfl
  | cons b rows ih =>
    obtain ⟨hb, hrows⟩ := List.forall_mem_cons.1 hrows
    rw [put]
    by_cases h : ident b = ident a
    · rw [if_pos h, if_pos (by simp [h]), List.map_cons, List.map_cons,
        hlawful.ident_combine b a hb ha h]
    · rw [if_neg h, List.map_cons, ih hrows, List.map_cons]
      by_cases hmem : ident a ∈ rows.map ident
      · rw [if_pos hmem, if_pos (.tail _ hmem)]
      · rw [if_neg hmem, if_neg (by simpa [Ne.symm h] using hmem)]
        rfl

theorem find_put (ha : ok a) (hrows : ∀ row ∈ rows, ok row) (k : κ) :
    find ident k (put ident combine a rows) =
      if ident a = k then absorb combine (find ident k rows) a else find ident k rows := by
  induction rows with
  | nil =>
    by_cases h : ident a = k
    · rw [if_pos h]
      exact List.find?_cons_of_pos (by simpa using h)
    · rw [if_neg h]
      exact List.find?_cons_of_neg (by simpa using h)
  | cons b rows ih =>
    obtain ⟨hb, hrows⟩ := List.forall_mem_cons.1 hrows
    have ih := ih hrows
    rw [put]
    by_cases h : ident b = ident a
    · have hcombine := hlawful.ident_combine b a hb ha h
      rw [if_pos h]
      by_cases hk : ident a = k
      · rw [if_pos hk, find, find, List.find?_cons_of_pos (by simp [hcombine, h, hk]),
          List.find?_cons_of_pos (by simp [h, hk])]
        rfl
      · rw [if_neg hk, find, find, List.find?_cons_of_neg (by simp [hcombine, h, hk]),
          List.find?_cons_of_neg (by simp [h, hk])]
    · rw [if_neg h]
      by_cases hbk : ident b = k
      · rw [if_neg fun hk => h (hbk.trans hk.symm), find, find,
          List.find?_cons_of_pos (by simpa using hbk),
          List.find?_cons_of_pos (by simpa using hbk)]
      · rw [find, List.find?_cons_of_neg (by simpa using hbk), find,
          List.find?_cons_of_neg (by simpa using hbk)]
        exact ih

/-! ### All items -/

theorem ok_merge (hrows : ∀ row ∈ rows, ok row) (hitems : ∀ item ∈ items, ok item) :
    ∀ row ∈ merge ident combine rows items, ok row := by
  induction items generalizing rows with
  | nil => exact hrows
  | cons a items ih =>
    obtain ⟨ha, hitems⟩ := List.forall_mem_cons.1 hitems
    exact ih (ok_put hlawful ha hrows) hitems

/-- What the items of one identity add up to. -/
theorem find_merge (hrows : ∀ row ∈ rows, ok row) (hitems : ∀ item ∈ items, ok item) (k : κ) :
    find ident k (merge ident combine rows items) =
      (items.filter (ident · = k)).foldl (absorb combine) (find ident k rows) := by
  induction items generalizing rows with
  | nil => rfl
  | cons a items ih =>
    obtain ⟨ha, hitems⟩ := List.forall_mem_cons.1 hitems
    rw [merge_cons, ih (ok_put hlawful ha hrows) hitems, find_put hlawful ha hrows]
    by_cases h : ident a = k
    · rw [if_pos h, List.filter_cons_of_pos (by simpa using h), List.foldl_cons]
    · rw [if_neg h, List.filter_cons_of_neg (by simpa using h)]

/-- The rows that were there, and the new identities in the order in which they occur. -/
theorem idents_merge (hrows : ∀ row ∈ rows, ok row) (hitems : ∀ item ∈ items, ok item) :
    (merge ident combine rows items).map ident =
      rows.map ident ++ (firstKeys ident items).filter (· ∉ rows.map ident) := by
  induction items generalizing rows with
  | nil => exact (List.append_nil _).symm
  | cons a items ih =>
    obtain ⟨ha, hitems⟩ := List.forall_mem_cons.1 hitems
    rw [merge_cons, ih (ok_put hlawful ha hrows) hitems, idents_put hlawful ha hrows, firstKeys]
    by_cases h : ident a ∈ rows.map ident
    · rw [if_pos h, List.filter_cons_of_neg (by simpa using h), List.filter_filter]
      refine congrArg _ (List.filter_congr fun k _ => ?_)
      by_cases hk : k = ident a
      · subst hk
        simp [h]
      · simp [hk]
    · rw [if_neg h, List.filter_cons_of_pos (by simpa using h), List.append_assoc,
        List.singleton_append, List.filter_filter]
      refine congrArg (fun ks => rows.map ident ++ ident a :: ks) (List.filter_congr fun k _ => ?_)
      by_cases hk : k = ident a
      · simp [hk]
      · simp [hk, List.mem_append]

theorem idents_merge_nil (hitems : ∀ item ∈ items, ok item) :
    (merge ident combine [] items).map ident = firstKeys ident items := by
  rw [idents_merge hlawful (fun _ h => absurd h List.not_mem_nil) hitems, List.map_nil,
    List.nil_append]
  exact List.filter_eq_self.2 fun _ _ => decide_eq_true List.not_mem_nil

theorem nodup_merge (hrows : ∀ row ∈ rows, ok row) (hitems : ∀ item ∈ items, ok item)
    (hnodup : (rows.map ident).Nodup) :
    ((merge ident combine rows items).map ident).Nodup := by
  rw [idents_merge hlawful hrows hitems]
  refine List.nodup_append.2 ⟨hnodup, (nodup_firstKeys items).filter _, fun k hk k' hk' heq => ?_⟩
  exact of_decide_eq_true (List.mem_filter.1 hk').2 (heq ▸ hk)

end

/-! ### Rows that are the same -/

theorem find_of_mem (hnodup : (rows.map ident).Nodup) (ha : a ∈ rows) :
    find ident (ident a) rows = some a := by
  induction rows with
  | nil => cases ha
  | cons b rows ih =>
    rw [List.map_cons, List.nodup_cons] at hnodup
    rcases List.mem_cons.1 ha with rfl | ha
    · exact List.find?_cons_of_pos (by simp)
    · have hne : ident b ≠ ident a := fun h => hnodup.1 (h ▸ List.mem_map_of_mem ha)
      rw [find, List.find?_cons_of_neg (by simpa using hne)]
      exact ih hnodup.2 ha

/-- Rows with one entry for each identity are the same, up to their order, when they have
the same entries. -/
theorem perm_of_find {rows' : List α} (hnodup : (rows.map ident).Nodup)
    (hnodup' : (rows'.map ident).Nodup) (h : ∀ k, find ident k rows = find ident k rows') :
    rows.Perm rows' := by
  refine (List.perm_ext_iff_of_nodup hnodup.of_map hnodup'.of_map).2 fun a => ?_
  constructor
  · intro ha
    exact (find_mem ((h _).symm.trans (find_of_mem hnodup ha))).1
  · intro ha
    exact (find_mem ((h _).trans (find_of_mem hnodup' ha))).1

theorem eq_of_find {rows' : List α} (hnodup : (rows.map ident).Nodup)
    (hidents : rows.map ident = rows'.map ident)
    (h : ∀ k, find ident k rows = find ident k rows') : rows = rows' := by
  have hperm := perm_of_find hnodup (hidents ▸ hnodup) h
  refine List.ext_getElem hperm.length_eq fun i hi hi' => ?_
  have hident : ident rows[i] = ident rows'[i] := by
    have hget := congrArg (fun ks : List κ => ks[i]?) hidents
    simpa [List.getElem?_eq_getElem hi, List.getElem?_eq_getElem hi'] using hget
  have hfind := find_of_mem hnodup (List.getElem_mem hi)
  rw [hident, h, find_of_mem (hidents ▸ hnodup) (List.getElem_mem hi')] at hfind
  exact (Option.some.inj hfind).symm

/-! ### Merging again, and in another order -/

theorem put_of_notMem (h : ident a ∉ rows.map ident) : put ident combine a rows = rows ++ [a] := by
  induction rows with
  | nil => rfl
  | cons b rows ih =>
    rw [List.map_cons, List.mem_cons, not_or] at h
    rw [put, if_neg (Ne.symm h.1), ih h.2]
    rfl

/-- Rows that are merged into nothing stay as they are. -/
theorem merge_nil_of_nodup (hnodup : (rows.map ident).Nodup) :
    merge ident combine [] rows = rows := by
  have hmerge : ∀ front : List α, ((front ++ rows).map ident).Nodup →
      merge ident combine front rows = front ++ rows := by
    induction rows with
    | nil => exact fun front _ => (List.append_nil front).symm
    | cons a rows ih =>
      intro front h
      have hnot : ident a ∉ front.map ident := fun hmem => by
        rw [List.map_append, List.map_cons] at h
        exact (List.nodup_append.1 h).2.2 _ hmem _ (.head _) rfl
      rw [merge_cons, put_of_notMem hnot, ih (List.nodup_cons.1 hnodup).2]
      · rw [List.append_assoc, List.singleton_append]
      · rwa [List.append_assoc, List.singleton_append]
  exact hmerge [] hnodup

section

variable (hlawful : Lawful ident combine ok)

include hlawful

/-- **Merging the same items again changes nothing**, where the items of one identity do not
change what they have been combined to. -/
theorem merge_merge_self (hrows : ∀ row ∈ rows, ok row) (hitems : ∀ item ∈ items, ok item)
    (hnodup : (rows.map ident).Nodup)
    (habsorb : ∀ k row, (∀ b, row = some b → ok b ∧ ident b = k) →
      (items.filter (ident · = k)).foldl (absorb combine)
        ((items.filter (ident · = k)).foldl (absorb combine) row) =
          (items.filter (ident · = k)).foldl (absorb combine) row) :
    merge ident combine (merge ident combine rows items) items =
      merge ident combine rows items := by
  have hmerged := ok_merge hlawful hrows hitems
  refine eq_of_find (nodup_merge hlawful hmerged hitems (nodup_merge hlawful hrows hitems hnodup))
    ?_ fun k => ?_
  · rw [idents_merge hlawful hmerged hitems]
    refine (List.append_right_eq_self).2 (List.filter_eq_nil_iff.2 fun k hk => ?_)
    have hmem : k ∈ (merge ident combine rows items).map ident := by
      rw [idents_merge hlawful hrows hitems, List.mem_append, List.mem_filter]
      by_cases h : k ∈ rows.map ident
      · exact .inl h
      · exact .inr ⟨hk, decide_eq_true h⟩
    simpa using hmem
  · rw [find_merge hlawful hmerged hitems, find_merge hlawful hrows hitems]
    refine habsorb k _ fun b hb => ?_
    obtain ⟨hmem, hk⟩ := find_mem hb
    exact ⟨hrows b hmem, hk⟩

/-- **Items of different identities can be merged in either order.** -/
theorem merge_comm {more : List α} (hrows : ∀ row ∈ rows, ok row)
    (hitems : ∀ item ∈ items, ok item) (hmore : ∀ item ∈ more, ok item)
    (hnodup : (rows.map ident).Nodup)
    (hdisjoint : ∀ a ∈ items, ∀ b ∈ more, ident a ≠ ident b) :
    (merge ident combine (merge ident combine rows items) more).Perm
      (merge ident combine (merge ident combine rows more) items) := by
  have hfirst := ok_merge hlawful hrows hitems
  have hsecond := ok_merge hlawful hrows hmore
  refine perm_of_find
    (nodup_merge hlawful hfirst hmore (nodup_merge hlawful hrows hitems hnodup))
    (nodup_merge hlawful hsecond hitems (nodup_merge hlawful hrows hmore hnodup)) fun k => ?_
  rw [find_merge hlawful hfirst hmore, find_merge hlawful hrows hitems,
    find_merge hlawful hsecond hitems, find_merge hlawful hrows hmore]
  by_cases hk : ∃ a ∈ items, ident a = k
  · obtain ⟨a, ha, rfl⟩ := hk
    have hnone : more.filter (ident · = ident a) = [] := List.filter_eq_nil_iff.2 fun b hb => by
      simpa using (hdisjoint a ha b hb).symm
    rw [hnone]
    rfl
  · have hnone : items.filter (ident · = k) = [] := List.filter_eq_nil_iff.2 fun a ha => by
      simpa using fun h => hk ⟨a, ha, h⟩
    rw [hnone]
    rfl

end

/-! ### Two ways to say the same identity -/

theorem put_eq_modify {i : ℕ} {b : α} (hget : rows[i]? = some b) (hb : ident b = ident a)
    (hnodup : (rows.map ident).Nodup) :
    put ident combine a rows = rows.modify i (combine · a) := by
  induction rows generalizing i with
  | nil => cases hget
  | cons c rows ih =>
    rw [List.map_cons, List.nodup_cons] at hnodup
    cases i with
    | zero =>
      rw [List.getElem?_cons_zero, Option.some.injEq] at hget
      rw [put, if_pos (hget ▸ hb), List.modify_zero_cons]
    | succ i =>
      rw [List.getElem?_cons_succ] at hget
      have hne : ident c ≠ ident a := fun h =>
        hnodup.1 (h ▸ hb ▸ List.mem_map_of_mem (List.mem_of_getElem? hget))
      rw [put, if_neg hne, List.modify_succ_cons, ih hget hnodup.2]

/-- Identities that are equal for the same items merge the same way. -/
theorem merge_congr {κ' : Type} [DecidableEq κ'] {ident' : α → κ'}
    (hlawful : Lawful ident combine ok) (known : κ → Prop)
    (hsame : ∀ a b, ok a → ok b → known (ident a) → known (ident b) →
      (ident' a = ident' b ↔ ident a = ident b))
    (hrows : ∀ row ∈ rows, ok row ∧ known (ident row))
    (hitems : ∀ item ∈ items, ok item ∧ known (ident item)) :
    merge ident' combine rows items = merge ident combine rows items := by
  induction items generalizing rows with
  | nil => rfl
  | cons a items ih =>
    obtain ⟨ha, hitems⟩ := List.forall_mem_cons.1 hitems
    have hput : put ident' combine a rows = put ident combine a rows := by
      clear ih
      induction rows with
      | nil => rfl
      | cons b rows ih =>
        obtain ⟨hb, hrows⟩ := List.forall_mem_cons.1 hrows
        have hiff := hsame b a hb.1 ha.1 hb.2 ha.2
        rw [put, put, ih hrows]
        by_cases h : ident b = ident a
        · rw [if_pos h, if_pos (hiff.2 h)]
        · rw [if_neg h, if_neg fun h' => h (hiff.1 h')]
    rw [merge_cons, merge_cons, hput]
    refine ih (fun row hrow => ⟨?_, ?_⟩) hitems
    · exact ok_put hlawful ha.1 (fun row hrow => (hrows row hrow).1) row hrow
    · have hident := List.mem_map_of_mem (f := ident) hrow
      rw [idents_put hlawful ha.1 fun row hrow => (hrows row hrow).1] at hident
      have hold : ident row ∈ rows.map ident → known (ident row) := fun h => by
        obtain ⟨b, hb, heq⟩ := List.mem_map.1 h
        exact heq ▸ (hrows b hb).2
      split at hident
      · exact hold hident
      · rcases List.mem_append.1 hident with hident | hident
        · exact hold hident
        · exact List.mem_singleton.1 hident ▸ ha.2

end Kairon.Coalesce

/-
Kairon/Lib/Upsert.lean

A table that a list of items is written to, where the rows to overwrite were
looked up before the first item was written.

An item whose row was found overwrites that row, any other item is appended.
Since nothing is looked up again, the whole loop has a closed form
(`putAll_eq`): each old row takes the items that were sent to it, in order, and
behind the old rows stand the new ones.  Two items with one new key therefore
make two rows; that is all that can go wrong with the keys (`nodup_keys_putAll`).
-/
import Mathlib

namespace Kairon.Upsert

variable {α β κ : Type}

/-! ### Writing -/

/-- One item goes to the row that was found for it, or to the end. -/
def put (found : β → Option ℕ) (update : β → α → α) (insert : β → α) (rows : List α) (b : β) :
    List α :=
  match found b with
  | some i => rows.modify i (update b)
  | none => rows ++ [insert b]

/-- All items, one after the other. -/
def putAll (found : β → Option ℕ) (update : β → α → α) (insert : β → α) (rows : List α)
    (items : List β) : List α :=
  items.foldl (put found update insert) rows

/-- An old row with the items that go to it. -/
def overwritten (found : β → Option ℕ) (update : β → α → α) (items : List β) (i : ℕ) (a : α) : α :=
  (items.filter fun b => found b = some i).foldl (fun a b => update b a) a

/-- The items that no row was found for. -/
def fresh (found : β → Option ℕ) (items : List β) : List β := items.filter fun b => found b = none

variable {found : β → Option ℕ} {update : β → α → α} {insert : β → α}

theorem overwritten_cons_of_eq {b : β} {i : ℕ} (h : found b = some i) (items : List β) (a : α) :
    overwritten found update (b :: items) i a = overwritten found update items i (update b a) := by
  rw [overwritten, List.filter_cons, if_pos (decide_eq_true h)]
  rfl

theorem overwritten_cons_of_ne {b : β} {i : ℕ} (h : found b ≠ some i) (items : List β) (a : α) :
    overwritten found update (b :: items) i a = overwritten found update items i a := by
  rw [overwritten, List.filter_cons, if_neg fun hd => h (of_decide_eq_true hd)]
  rfl

theorem mapIdx_modify {γ : Type} (f : ℕ → α → γ) (g : α → α) (i : ℕ) (rows : List α) :
    (rows.modify i g).mapIdx f = rows.mapIdx fun j a => if i = j then f j (g a) else f j a := by
  apply List.ext_getElem?
  intro j
  rw [List.getElem?_mapIdx, List.getElem?_mapIdx, List.getElem?_modify]
  rcases rows[j]? with - | a
  · rfl
  · by_cases h : i = j
    · simp [h]
    · simp [h]

theorem modify_append {i : ℕ} {old : List α} (hi : i < old.length) (new : List α) (g : α → α) :
    (old ++ new).modify i g = old.modify i g ++ new := by
  apply List.ext_getElem?
  intro j
  rw [List.getElem?_modify]
  by_cases hj : j < old.length
  · rw [List.getElem?_append_left hj, List.getElem?_append_left (by simpa using hj),
      List.getElem?_modify]
  · have hij : i ≠ j := by omega
    rw [List.getElem?_append_right (by omega), List.getElem?_append_right (by simpa using hj),
      List.length_modify]
    simp [hij]

/-- The loop in closed form, with rows behind the old ones that no item is sent to. -/
theorem foldl_put_append (items : List β) (old new : List α)
    (hbound : ∀ b ∈ items, ∀ i, found b = some i → i < old.length) :
    items.foldl (put found update insert) (old ++ new) =
      old.mapIdx (overwritten found update items) ++ (new ++ (fresh found items).map insert) := by
  induction items generalizing old new with
  | nil =>
    have hid : old.mapIdx (overwritten found update []) = old := by
      refine List.mapIdx_eq_iff.2 fun i => ?_
      rcases old[i]? with - | a
      · rfl
      · rfl
    rw [hid]
    simp [fresh]
  | cons b items ih =>
    have hrest : ∀ c ∈ items, ∀ i, found c = some i → i < old.length :=
      fun c hc => hbound c (.tail _ hc)
    rw [List.foldl_cons, put]
    rcases hb : found b with - | i
    · -- appended behind the new rows
      show items.foldl _ (old ++ new ++ [insert b]) = _
      rw [List.append_assoc, ih old _ hrest, fresh, fresh, List.filter_cons,
        if_pos (decide_eq_true hb), List.map_cons]
      have hsame : overwritten found update (b :: items) = overwritten found update items := by
        funext i a
        exact overwritten_cons_of_ne (by simp [hb]) items a
      rw [hsame]
      simp
    · -- written to an old row
      have hi := hbound b (.head _) i hb
      show items.foldl _ ((old ++ new).modify i (update b)) = _
      rw [modify_append hi, ih (old.modify i (update b)) new
        (by simpa [List.length_modify] using hrest), mapIdx_modify, fresh, fresh,
        List.filter_cons, if_neg (by simp [hb])]
      congr 1
      refine List.mapIdx_eq_mapIdx_iff.2 fun j hj => ?_
      by_cases hij : i = j
      · rw [if_pos hij, overwritten_cons_of_eq (hij ▸ hb)]
      · rw [if_neg hij, overwritten_cons_of_ne]
        rw [hb]
        exact fun h => hij (Option.some.inj h)

/-- The loop in closed form. -/
theorem putAll_eq {items : List β} {rows : List α}
    (hbound : ∀ b ∈ items, ∀ i, found b = some i → i < rows.length) :
    putAll found update insert rows items =
      rows.mapIdx (overwritten found update items) ++ (fresh found items).map insert := by
  have h := @foldl_put_append _ _ _ update insert items rows [] hbound
  rwa [List.append_nil, List.nil_append] at h

theorem getElem?_putAll_old {items : List β} {rows : List α}
    (hbound : ∀ b ∈ items, ∀ i, found b = some i → i < rows.length) {i : ℕ} {a : α}
    (h : rows[i]? = some a) :
    (putAll found update insert rows items)[i]? = some (overwritten found update items i a) := by
  obtain ⟨hi, -⟩ := List.getElem?_eq_some_iff.1 h
  rw [putAll_eq hbound, List.getElem?_append_left (by simpa using hi), List.getElem?_mapIdx, h]
  rfl

/-! ### Looking up -/

section Lookup

variable [DecidableEq κ] {key : α → Option κ} {keyOf : β → κ}

/-- The last row with a key. -/
def lastAt (key : α → Option κ) (rows : List α) (k : κ) : Option ℕ :=
  (rows.zipIdx.reverse.find? fun x => key x.1 = some k).map Prod.snd

variable {rows : List α}

theorem lastAt_some {k : κ} {i : ℕ} (h : lastAt key rows k = some i) :
    ∃ a, rows[i]? = some a ∧ key a = some k := by
  obtain ⟨⟨a, j⟩, hfind, rfl⟩ := Option.map_eq_some_iff.1 h
  have hmem := List.mem_reverse.1 (List.mem_of_find?_eq_some hfind)
  exact ⟨a, List.mem_zipIdx_iff_getElem?.1 hmem, by simpa using List.find?_some hfind⟩

theorem lastAt_lt {k : κ} {i : ℕ} (h : lastAt key rows k = some i) : i < rows.length := by
  obtain ⟨a, ha, -⟩ := lastAt_some h
  exact (List.getElem?_eq_some_iff.1 ha).1

theorem lastAt_eq_none {k : κ} : lastAt key rows k = none ↔ ∀ a ∈ rows, key a ≠ some k := by
  rw [lastAt, Option.map_eq_none_iff, List.find?_eq_none]
  constructor
  · intro h a ha hkey
    obtain ⟨i, hi⟩ := List.getElem?_of_mem ha
    exact h (a, i) (List.mem_reverse.2 (List.mem_zipIdx_iff_getElem?.2 hi)) (decide_eq_true hkey)
  · intro h x hx hkey
    have hmem := List.mem_zipIdx_iff_getElem?.1 (List.mem_reverse.1 hx)
    exact h x.1 (List.mem_of_getElem? hmem) (of_decide_eq_true hkey)

omit [DecidableEq κ] in
/-- With unique keys two rows of one key are the same row. -/
theorem index_unique (hnodup : (rows.filterMap key).Nodup) {i j : ℕ} {a b : α}
    {k : κ} (hi : rows[i]? = some a) (hj : rows[j]? = some b) (ha : key a = some k)
    (hb : key b = some k) : i = j := by
  induction rows generalizing i j with
  | nil => cases hi
  | cons c rows ih =>
    have hrest : (rows.filterMap key).Nodup := by
      rw [List.filterMap_cons] at hnodup
      rcases hc : key c with - | k'
      · rwa [hc] at hnodup
      · rw [hc] at hnodup
        exact (List.nodup_cons.1 hnodup).2
    have hfirst : ∀ {i : ℕ} {d : α}, key c = some k → rows[i]? = some d → key d ≠ some k := by
      intro i d hc hd hk
      rw [List.filterMap_cons, hc] at hnodup
      exact (List.nodup_cons.1 hnodup).1
        (List.mem_filterMap.2 ⟨d, List.mem_of_getElem? hd, hk⟩)
    rcases i with - | i <;> rcases j with - | j
    · rfl
    · obtain rfl := Option.some.inj hi
      exact absurd hb (hfirst ha hj)
    · obtain rfl := Option.some.inj hj
      exact absurd ha (hfirst hb hi)
    · rw [ih hrest hi hj]

theorem lastAt_iff (hnodup : (rows.filterMap key).Nodup) {k : κ} {i : ℕ} {a : α}
    (ha : rows[i]? = some a) : lastAt key rows k = some i ↔ key a = some k := by
  constructor
  · intro h
    obtain ⟨b, hb, hk⟩ := lastAt_some h
    rw [ha] at hb
    exact Option.some.inj hb ▸ hk
  · intro hk
    rcases h : lastAt key rows k with - | j
    · exact absurd hk (lastAt_eq_none.1 h a (List.mem_of_getElem? ha))
    · obtain ⟨b, hb, hkb⟩ := lastAt_some h
      rw [index_unique hnodup ha hb hk hkb]

/-- The row that the lookup finds is the last of its key. -/
theorem lastAt_row (rows : List α) (k : κ) : (lastAt key rows k).bind (fun i => rows[i]?) =
      (rows.filter fun a => key a = some k).getLast? := by
  induction rows using List.reverseRecOn with
  | nil => rfl
  | append_singleton rows a ih =>
    rw [lastAt, List.zipIdx_append, List.reverse_append, List.filter_append, List.getLast?_append]
    by_cases ha : key a = some k
    · simp [ha]
    · have hfind : (List.zipIdx rows).reverse.find? (fun x => decide (key x.1 = some k)) =
          ((List.zipIdx [a] (0 + rows.length)).reverse ++ rows.zipIdx.reverse).find?
            fun x => decide (key x.1 = some k) := by
        simp [ha]
      rw [← hfind]
      show (lastAt key rows k).bind _ = _
      rw [List.filter_cons, if_neg (by simpa using ha)]
      show _ = (rows.filter _).getLast?
      rw [← ih]
      rcases h : lastAt key rows k with - | i
      · rfl
      · exact List.getElem?_append_left (lastAt_lt h)

/-! ### Keys -/

/-- An old row keeps its key: an item is sent to a row with its own key. -/
theorem key_overwritten (items : List β)
    (hupdate : ∀ b a, key a = some (keyOf b) → key (update b a) = key a) {i : ℕ} {a : α}
    (ha : rows[i]? = some a) :
    key (overwritten (fun b => lastAt key rows (keyOf b)) update items i a) = key a := by
  rw [overwritten]
  have hsent : ∀ b ∈ items.filter fun b => lastAt key rows (keyOf b) = some i,
      key a = some (keyOf b) := by
    intro b hb
    obtain ⟨a', ha', hk⟩ := lastAt_some (of_decide_eq_true (List.mem_filter.1 hb).2)
    rw [ha] at ha'
    rwa [Option.some.inj ha']
  clear ha
  revert hsent
  generalize (items.filter fun b => lastAt key rows (keyOf b) = some i) = sent
  intro hsent
  induction sent generalizing a with
  | nil => rfl
  | cons b sent ih =>
    have hkey := hupdate b a (hsent b (.head _))
    rw [List.foldl_cons, ih, hkey]
    intro c hc
    rw [hkey]
    exact hsent c (.tail _ hc)

variable {items : List β}

/-- What the items do to the keys: nothing to those of old rows, and each fresh
item brings its own. -/
theorem keys_putAll (hupdate : ∀ b a, key a = some (keyOf b) → key (update b a) = key a)
    (hinsert : ∀ b, key (insert b) = some (keyOf b)) :
    (putAll (fun b => lastAt key rows (keyOf b)) update insert rows items).filterMap key =
      rows.filterMap key ++ (fresh (fun b => lastAt key rows (keyOf b)) items).map keyOf := by
  rw [putAll_eq fun b _ i h => lastAt_lt h, List.filterMap_append, List.filterMap_map]
  congr 1
  · rw [List.mapIdx_eq_zipIdx_map, List.filterMap_map]
    conv_rhs => rw [← List.zipIdx_map_fst 0 rows, List.filterMap_map]
    refine List.filterMap_congr fun x hx => ?_
    exact key_overwritten items hupdate (List.mem_zipIdx_iff_getElem?.1 hx)
  · rw [← List.filterMap_eq_map]
    refine List.filterMap_congr fun b _ => ?_
    exact hinsert b

/-- The keys stay unique exactly if no two fresh items share one. -/
theorem nodup_keys_putAll (hupdate : ∀ b a, key a = some (keyOf b) → key (update b a) = key a)
    (hinsert : ∀ b, key (insert b) = some (keyOf b)) :
    ((putAll (fun b => lastAt key rows (keyOf b)) update insert rows items).filterMap key).Nodup ↔
      (rows.filterMap key).Nodup ∧
        ((fresh (fun b => lastAt key rows (keyOf b)) items).map keyOf).Nodup := by
  rw [keys_putAll hupdate hinsert, List.nodup_append']
  constructor
  · exact fun h => ⟨h.1, h.2.1⟩
  · rintro ⟨hold, hnew⟩
    refine ⟨hold, hnew, fun k hk hk' => ?_⟩
    obtain ⟨a, ha, hkey⟩ := List.mem_filterMap.1 hk
    obtain ⟨b, hb, rfl⟩ := List.mem_map.1 hk'
    exact lastAt_eq_none.1 (of_decide_eq_true (List.mem_filter.1 hb).2) a ha hkey

/-! ### Writing twice -/

omit [DecidableEq κ] in
/-- Items of which the later ones leave no trace of the earlier ones make the same
row of what they made before. -/
theorem foldl_absorb (habsorb : ∀ b c a, update c (update b a) = update c a) (sent : List β)
    (a : α) :
    sent.foldl (fun a b => update b a) (sent.foldl (fun a b => update b a) a) =
      sent.foldl (fun a b => update b a) a := by
  rcases List.eq_nil_or_concat sent with rfl | ⟨sent, b, rfl⟩
  · rfl
  have hlast : ∀ a, (sent ++ [b]).foldl (fun a b => update b a) a = update b a := by
    intro a
    rw [List.foldl_append]
    show update b (sent.foldl _ a) = _
    induction sent generalizing a with
    | nil => rfl
    | cons c sent ih => rw [List.foldl_cons, ih, habsorb]
  rw [List.concat_eq_append, hlast, hlast, habsorb]

/-- With unique keys afterwards, writing the same items again changes nothing. -/
theorem putAll_idempotent {rows rows' : List α}
    (hupdate : ∀ b a, key a = some (keyOf b) → key (update b a) = key a)
    (hinsert : ∀ b, key (insert b) = some (keyOf b))
    (habsorb : ∀ b c a, update c (update b a) = update c a)
    (hself : ∀ b, update b (insert b) = insert b)
    (hrows' : rows' = putAll (fun b => lastAt key rows (keyOf b)) update insert rows items)
    (hnodup : (rows'.filterMap key).Nodup) :
    putAll (fun b => lastAt key rows' (keyOf b)) update insert rows' items = rows' := by
  have hbound : ∀ b ∈ items, ∀ i, lastAt key rows (keyOf b) = some i → i < rows.length :=
    fun b _ i h => lastAt_lt h
  obtain ⟨hold, hnew⟩ := (nodup_keys_putAll hupdate hinsert).1 (hrows' ▸ hnodup)
  -- every item finds its row now
  have hfound : fresh (fun b => lastAt key rows' (keyOf b)) items = [] := by
    refine List.filter_eq_nil_iff.2 fun b hb hnone => ?_
    have hkeys : keyOf b ∈ rows'.filterMap key := by
      rw [hrows', keys_putAll hupdate hinsert, List.mem_append]
      rcases h : lastAt key rows (keyOf b) with - | i
      · exact .inr (List.mem_map.2 ⟨b, List.mem_filter.2 ⟨hb, decide_eq_true h⟩, rfl⟩)
      · obtain ⟨a, ha, hk⟩ := lastAt_some h
        exact .inl (List.mem_filterMap.2 ⟨a, List.mem_of_getElem? ha, hk⟩)
    obtain ⟨a, ha, hk⟩ := List.mem_filterMap.1 hkeys
    exact lastAt_eq_none.1 (of_decide_eq_true hnone) a ha hk
  rw [putAll_eq fun b _ i h => lastAt_lt h, hfound, List.map_nil, List.append_nil]
  refine List.mapIdx_eq_iff.2 fun j => ?_
  rcases hj : rows'[j]? with - | a'
  · rfl
  refine congrArg some ?_
  rcases ha : rows[j]? with - | a
  · -- a row that was appended for `b` is sent nothing but `b`
    have hlen : rows.length ≤ j := List.getElem?_eq_none_iff.1 ha
    have hj' := hj
    rw [hrows', putAll_eq hbound, List.getElem?_append_right (by simpa using hlen)] at hj'
    obtain ⟨b, hb, rfl⟩ := List.mem_map.1 (List.mem_of_getElem? hj')
    have hsent : ∀ c ∈ items.filter fun c => lastAt key rows' (keyOf c) = some j, c = b := by
      intro c hc
      obtain ⟨hc, hcj⟩ := List.mem_filter.1 hc
      have hkey := (lastAt_iff hnodup hj).1 (of_decide_eq_true hcj)
      rw [hinsert] at hkey
      have hsame := Option.some.inj hkey
      refine List.inj_on_of_nodup_map hnew (List.mem_filter.2 ⟨hc, ?_⟩) hb hsame.symm
      show decide (lastAt key rows (keyOf c) = none) = true
      rw [← hsame]
      exact (List.mem_filter.1 hb).2
    rw [overwritten]
    revert hsent
    generalize (items.filter fun c => lastAt key rows' (keyOf c) = some j) = sent
    intro hsent
    induction sent with
    | nil => rfl
    | cons c sent ih =>
      obtain rfl := hsent c (.head _)
      rw [List.foldl_cons, hself]
      exact ih fun d hd => hsent d (.tail _ hd)
  · -- an old row kept its key, so that it is sent the same items again
    have ha' := @getElem?_putAll_old _ _ _ update insert _ _ hbound _ _ ha
    rw [← hrows', hj] at ha'
    have hsame : ∀ b ∈ items, (decide (lastAt key rows' (keyOf b) = some j)) =
        decide (lastAt key rows (keyOf b) = some j) := by
      intro b _
      refine decide_eq_decide.2 ?_
      rw [lastAt_iff hnodup hj, lastAt_iff hold ha, Option.some.inj ha',
        key_overwritten items hupdate ha]
    rw [overwritten, List.filter_congr hsame, Option.some.inj ha', overwritten,
      foldl_absorb habsorb]

end Lookup

end Kairon.Upsert

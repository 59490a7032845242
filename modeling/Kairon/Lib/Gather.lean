/-
Kairon/Lib/Gather.lean

Records gathered into groups under a key, and dated records into clusters without a
long pause.

* `groups` is a dictionary of lists filled in one pass: the keys stand in the order
  they first occur and each list keeps the order of the records.
* `clusters` sorts the dated records and starts a new cluster where the pause is
  longer than the gap; undated records are in no cluster.

Nothing is lost by grouping (`flatten_groups`), and clustering loses the undated
records and nothing else (`flatten_clusters`).  A total is therefore the same over the
records and over their groups (`sum_groups`).
-/
import Mathlib

namespace Kairon.Gather

variable {α κ : Type*}

/-! ### Groups under a key -/

section Groups

variable [DecidableEq κ] (key : α → κ)

/-- The keys in the order they first occur. -/
def firstKeys : List α → List κ
  | [] => []
  | a :: as => key a :: (firstKeys as).filter (· ≠ key a)

/-- What the records of every key weigh together. -/
def tally (weight : α → ℕ) (xs : List α) : List (κ × ℕ) :=
  (firstKeys key xs).map fun k => (k, ((xs.filter (key · = k)).map weight).sum)

/-- The records of every key, in the order of the first occurrence of the key. -/
def groups (xs : List α) : List (List α) :=
  (firstKeys key xs).map fun k => xs.filter (key · = k)

variable {key}

theorem mem_firstKeys {xs : List α} {k : κ} : k ∈ firstKeys key xs ↔ ∃ a ∈ xs, key a = k := by
  induction xs with
  | nil => simp [firstKeys]
  | cons a as ih =>
    rw [firstKeys, List.mem_cons, List.mem_filter, ih, List.exists_mem_cons_iff]
    by_cases h : key a = k
    · exact iff_of_true (.inl h.symm) (.inl h)
    · refine or_congr eq_comm ⟨fun hk => hk.1, fun hk => ⟨hk, ?_⟩⟩
      exact decide_eq_true fun he : k = key a => h he.symm

theorem nodup_firstKeys (xs : List α) : (firstKeys key xs).Nodup := by
  induction xs with
  | nil => exact List.nodup_nil
  | cons a as ih =>
    rw [firstKeys, List.nodup_cons]
    refine ⟨fun h => ?_, ih.filter _⟩
    simpa using (List.mem_filter.1 h).2

theorem mem_groups {xs group : List α} :
    group ∈ groups key xs ↔ ∃ a ∈ xs, group = xs.filter (key · = key a) := by
  rw [groups, List.mem_map]
  constructor
  · rintro ⟨k, hk, rfl⟩
    obtain ⟨a, ha, rfl⟩ := mem_firstKeys.1 hk
    exact ⟨a, ha, rfl⟩
  · rintro ⟨a, ha, rfl⟩
    exact ⟨key a, mem_firstKeys.2 ⟨a, ha, rfl⟩, rfl⟩

/-- The groups of some keys hold the records that have one of them. -/
theorem flatten_map_filter {keys : List κ} (hkeys : keys.Nodup) (xs : List α) :
    ((keys.map fun k => xs.filter (key · = k)).flatten).Perm
      (xs.filter fun a => key a ∈ keys) := by
  induction keys with
  | nil => simp
  | cons k ks ih =>
    obtain ⟨hk, hks⟩ := List.nodup_cons.1 hkeys
    rw [List.map_cons, List.flatten_cons]
    refine (List.Perm.append_left _ (ih hks)).trans ?_
    refine List.Perm.trans ?_ (List.filter_append_perm (fun a => decide (key a = k)) _)
    rw [List.filter_filter, List.filter_filter]
    refine List.Perm.of_eq (congrArg₂ _ (List.filter_congr fun a _ => ?_)
      (List.filter_congr fun a _ => ?_))
    · by_cases h : key a = k <;> simp [h]
    · by_cases h : key a = k
      · simp [h, hk]
      · simp [h]

/-- A total over the rows of keys that cover the records is the total over the records. -/
theorem sum_map_filter {keys : List κ} (hkeys : keys.Nodup) {xs : List α}
    (hcover : ∀ a ∈ xs, key a ∈ keys) (f : α → ℕ) :
    (keys.map fun k => ((xs.filter (key · = k)).map f).sum).sum = (xs.map f).sum := by
  have hself : (xs.filter fun a => key a ∈ keys) = xs :=
    List.filter_eq_self.2 fun a ha => decide_eq_true (hcover a ha)
  have hperm := @flatten_map_filter α κ _ key keys hkeys xs
  rw [hself] at hperm
  rw [← (hperm.map f).sum_eq, List.map_flatten, List.sum_flatten, List.map_map, List.map_map]
  rfl

/-- **Grouping loses nothing.** -/
theorem flatten_groups (xs : List α) : (groups key xs).flatten.Perm xs := by
  refine (flatten_map_filter (nodup_firstKeys xs) xs).trans (List.Perm.of_eq ?_)
  refine List.filter_eq_self.2 fun a ha => ?_
  exact decide_eq_true (mem_firstKeys.2 ⟨a, ha, rfl⟩)

end Groups

/-! ### Stable sorting -/

section Sorting

variable {r : α → α → Prop} [DecidableRel r]

theorem orderedInsert_append {a : α} {ys : List α} (h : ∀ b ∈ ys, r a b) (xs : List α) :
    (xs ++ ys).orderedInsert r a = xs.orderedInsert r a ++ ys := by
  induction xs with
  | nil =>
    rcases ys with - | ⟨b, ys⟩
    · rfl
    · exact List.orderedInsert_cons_of_le r ys (h b (.head _))
  | cons x xs ih =>
    rw [List.cons_append, List.orderedInsert_cons, List.orderedInsert_cons, ih]
    split_ifs <;> rfl

/-- Two lists one of which comes before the other are sorted apart. -/
theorem insertionSort_append {xs ys : List α} (h : ∀ a ∈ xs, ∀ b ∈ ys, r a b) :
    (xs ++ ys).insertionSort r = xs.insertionSort r ++ ys.insertionSort r := by
  induction xs with
  | nil => rfl
  | cons a as ih =>
    obtain ⟨ha, has⟩ := List.forall_mem_cons.1 h
    rw [List.cons_append, List.insertionSort_cons, List.insertionSort_cons, ih has,
      orderedInsert_append fun b hb => ha b ((List.mem_insertionSort r).1 hb)]

theorem filter_orderedInsert [IsTrans α r] {a : α} {xs : List α} (hxs : xs.Pairwise r)
    (p : α → Bool) :
    (xs.orderedInsert r a).filter p =
      if p a then (xs.filter p).orderedInsert r a else xs.filter p := by
  induction xs with
  | nil => cases h : p a <;> simp [h]
  | cons x xs ih =>
    obtain ⟨hx, hxs⟩ := List.pairwise_cons.1 hxs
    rw [List.orderedInsert_cons]
    split_ifs with hax hpa hpa
    · rw [List.filter_cons_of_pos hpa]
      -- everything that follows comes after the record
      have hall : ∀ b ∈ (x :: xs).filter p, r a b := by
        intro b hb
        rcases List.mem_cons.1 (List.mem_of_mem_filter hb) with rfl | hb
        · exact hax
        · exact IsTrans.trans a x b hax (hx b hb)
      exact (orderedInsert_append hall []).symm
    · rw [List.filter_cons_of_neg hpa]
    · rw [List.filter_cons, List.filter_cons, ih hxs, if_pos hpa]
      split_ifs with hpx
      · rw [List.orderedInsert_of_not_le r _ hax]
      · rfl
    · rw [List.filter_cons, List.filter_cons, ih hxs, if_neg hpa]

/-- **Sorting is stable**: taking records away before sorting or after is the same. -/
theorem filter_insertionSort [Std.Total r] [IsTrans α r] (p : α → Bool) (xs : List α) :
    (xs.insertionSort r).filter p = (xs.filter p).insertionSort r := by
  induction xs with
  | nil => rfl
  | cons a as ih =>
    rw [List.insertionSort_cons, filter_orderedInsert (List.pairwise_insertionSort r as), ih,
      List.filter_cons]
    split_ifs <;> rfl

end Sorting

/-! ### Clusters without a long pause -/

section Clusters

variable (dt : α → Option ℤ)

/-- The dated records in the order of their times, ties in the order of the list. -/
def ordered (items : List α) : List α :=
  (items.filter fun a => (dt a).isSome).insertionSort fun a b => (dt a).getD 0 ≤ (dt b).getD 0

/-- The dated records, cut where the pause is longer than the gap. -/
def clusters (gap : ℤ) (items : List α) : List (List α) :=
  (ordered dt items).splitBy fun a b => (dt b).getD 0 - (dt a).getD 0 ≤ gap

variable {dt}

theorem ordered_perm (items : List α) :
    (ordered dt items).Perm (items.filter fun a => (dt a).isSome) :=
  List.perm_insertionSort _ _

theorem flatten_clusters (gap : ℤ) (items : List α) :
    (clusters dt gap items).flatten.Perm (items.filter fun a => (dt a).isSome) := by
  rw [clusters, List.flatten_splitBy]
  exact ordered_perm items

variable {items : List α}

theorem clusters_eq_nil {gap : ℤ} : clusters dt gap items = [] ↔ ∀ a ∈ items, dt a = none := by
  have hlength := (@ordered_perm α dt items).length_eq
  rw [clusters, List.splitBy_eq_nil, ← List.length_eq_zero_iff, hlength,
    List.length_eq_zero_iff, List.filter_eq_nil_iff]
  simp

/-- When everything is dated, clustering loses nothing. -/
theorem flatten_clusters_of_dated (h : ∀ a ∈ items, dt a ≠ none) (gap : ℤ) :
    (clusters dt gap items).flatten.Perm items := by
  refine (flatten_clusters gap items).trans (List.Perm.of_eq (List.filter_eq_self.2 fun a ha => ?_))
  exact Option.isSome_iff_ne_none.2 (h a ha)

theorem ordered_sorted (items : List α) :
    (ordered dt items).Pairwise fun a b => (dt a).getD 0 ≤ (dt b).getD 0 := by
  have htotal : Std.Total fun a b : α => (dt a).getD 0 ≤ (dt b).getD 0 :=
    ⟨fun a b => le_total _ _⟩
  have htrans : IsTrans α fun a b => (dt a).getD 0 ≤ (dt b).getD 0 :=
    ⟨fun _ _ _ hab hbc => hab.trans hbc⟩
  exact List.pairwise_insertionSort _ _

theorem mem_ordered {a : α} : a ∈ ordered dt items ↔ a ∈ items ∧ ∃ t, dt a = some t := by
  rw [(ordered_perm items).mem_iff, List.mem_filter, Option.isSome_iff_exists]

/-- The records of the first list are not later than those of the second. -/
def Precedes (dt : α → Option ℤ) (xs ys : List α) : Prop :=
  ∀ a ∈ xs, ∀ b ∈ ys, ∀ s t, dt a = some s → dt b = some t → s ≤ t

variable {xs ys : List α}

theorem ordered_append (h : Precedes dt xs ys) :
    ordered dt (xs ++ ys) = ordered dt xs ++ ordered dt ys := by
  rw [ordered, List.filter_append]
  refine insertionSort_append fun a ha b hb => ?_
  obtain ⟨ha, hs⟩ := List.mem_filter.1 ha
  obtain ⟨hb, ht⟩ := List.mem_filter.1 hb
  obtain ⟨s, hs⟩ := Option.isSome_iff_exists.1 hs
  obtain ⟨t, ht⟩ := Option.isSome_iff_exists.1 ht
  rw [hs, ht]
  exact h a ha b hb s t hs ht

/-- The pause between any two records of the two lists is longer than the gap. -/
def FarApart (dt : α → Option ℤ) (gap : ℤ) (xs ys : List α) : Prop :=
  ∀ a ∈ xs, ∀ b ∈ ys, ∀ s t, dt a = some s → dt b = some t → gap < t - s

/-- Lists far apart have their clusters apart. -/
theorem clusters_append {gap : ℤ} (h : Precedes dt xs ys) (hfar : FarApart dt gap xs ys) :
    clusters dt gap (xs ++ ys) = clusters dt gap xs ++ clusters dt gap ys := by
  rw [clusters, ordered_append h]
  refine List.splitBy_append fun a ha b hb => decide_eq_false (not_le.2 ?_)
  obtain ⟨ha, s, hs⟩ := mem_ordered.1 (List.mem_of_mem_getLast? ha)
  obtain ⟨hb, t, ht⟩ := mem_ordered.1 (List.mem_of_mem_head? hb)
  rw [hs, ht]
  exact hfar a ha b hb s t hs ht

/-- How often two neighbours are not near. -/
def pauses (near : α → α → Bool) : List α → ℕ
  | [] => 0
  | [_] => 0
  | a :: b :: rest => (if near a b then 0 else 1) + pauses near (b :: rest)

theorem length_splitBy_loop (near : α → α → Bool) (xs : List α) (a : α) (group : List α)
    (done : List (List α)) :
    (List.splitBy.loop near xs a group done).length = done.length + 1 + pauses near (a :: xs) := by
  induction xs generalizing a group done with
  | nil => simp [List.splitBy.loop, pauses]
  | cons b xs ih =>
    rw [List.splitBy.loop, pauses]
    cases near a b with
    | true => exact (ih b (a :: group) done).trans (by simp)
    | false => exact (ih b [] _).trans (by simp; omega)

theorem length_splitBy (near : α → α → Bool) {xs : List α} (h : xs ≠ []) :
    (xs.splitBy near).length = 1 + pauses near xs := by
  rcases xs with - | ⟨a, xs⟩
  · exact absurd rfl h
  · exact (length_splitBy_loop near xs a [] []).trans (by simp)

theorem pauses_append (near : α → α → Bool) (xs : List α) (a b : α) (ys : List α) :
    pauses near (xs ++ a :: b :: ys) =
      pauses near (xs ++ [a]) + (if near a b then 0 else 1) + pauses near (b :: ys) := by
  induction xs with
  | nil => simp [pauses]
  | cons x xs ih =>
    rcases xs with - | ⟨y, xs⟩
    · simp only [List.cons_append, List.nil_append, pauses]
      omega
    · simp only [List.cons_append, pauses] at ih ⊢
      rw [ih]
      omega

/-- Two records near each other join two clusters into one. -/
theorem length_clusters_append {gap : ℤ} (h : Precedes dt xs ys) {a b : α}
    {s t : ℤ} (ha : a ∈ xs) (hb : b ∈ ys) (hs : dt a = some s) (ht : dt b = some t)
    (hnear : t - s ≤ gap) :
    (clusters dt gap (xs ++ ys)).length + 1 =
      (clusters dt gap xs).length + (clusters dt gap ys).length := by
  have hsx := @ordered_sorted α dt xs
  have hsy := @ordered_sorted α dt ys
  have hmx : a ∈ ordered dt xs := mem_ordered.2 ⟨ha, s, hs⟩
  have hmy : b ∈ ordered dt ys := mem_ordered.2 ⟨hb, t, ht⟩
  unfold clusters
  rw [ordered_append h]
  generalize ordered dt xs = us at hsx hmx
  generalize ordered dt ys = vs at hsy hmy
  obtain ⟨us, u, rfl⟩ := us.eq_nil_or_concat'.resolve_left (List.ne_nil_of_mem hmx)
  obtain ⟨v, vs, rfl⟩ := List.exists_cons_of_ne_nil (List.ne_nil_of_mem hmy)
  have hu : s ≤ (dt u).getD 0 := by
    rcases List.mem_append.1 hmx with hmem | hmem
    · have hle := (List.pairwise_append.1 hsx).2.2 a hmem u (List.mem_singleton_self u)
      rwa [hs] at hle
    · rw [← List.mem_singleton.1 hmem, hs]
      exact le_rfl
  have hv : (dt v).getD 0 ≤ t := by
    rcases List.mem_cons.1 hmy with rfl | hmem
    · rw [ht]
      exact le_rfl
    · have hle := (List.pairwise_cons.1 hsy).1 b hmem
      rwa [ht] at hle
  have hjoin : (dt v).getD 0 - (dt u).getD 0 ≤ gap := by omega
  rw [length_splitBy _ (by simp), length_splitBy _ (by simp), length_splitBy _ (by simp),
    List.append_assoc, List.singleton_append, pauses_append, if_pos (decide_eq_true hjoin)]
  omega

theorem pauses_map {β : Type*} (near : β → β → Bool) (f : α → β) (xs : List α) :
    pauses near (xs.map f) = pauses (fun a b => near (f a) (f b)) xs := by
  induction xs with
  | nil => rfl
  | cons a xs ih =>
    rcases xs with - | ⟨b, xs⟩
    · rfl
    · exact congrArg (_ + ·) ih

/-- The number of clusters is a matter of the times. -/
theorem length_clusters_map {f : α → α} (h : ∀ a, dt (f a) = dt a) (gap : ℤ) (xs : List α) :
    (clusters dt gap (xs.map f)).length = (clusters dt gap xs).length := by
  have hordered : ordered dt (xs.map f) = (ordered dt xs).map f := by
    have hdated : ((fun a => (dt a).isSome) ∘ f) = fun a => (dt a).isSome := by
      funext a
      rw [Function.comp_apply, h]
    rw [ordered, List.filter_map, hdated]
    refine (List.map_insertionSort _ _ f _ fun a _ b _ => ?_).symm
    rw [h, h]
  unfold clusters
  rw [hordered]
  rcases hnil : ordered dt xs with - | ⟨a, as⟩
  · rfl
  · rw [length_splitBy _ (by simp), length_splitBy _ (by simp), pauses_map]
    simp only [h]

end Clusters

/-! ### The earliest record -/

section Earliest

variable (time : α → ℤ)

/-- The first of the records with the smallest time. -/
def earliest : List α → Option α
  | [] => none
  | a :: as =>
    match earliest as with
    | none => some a
    | some b => if time b < time a then some b else some a

variable {time}

theorem earliest_eq_none {xs : List α} : earliest time xs = none ↔ xs = [] := by
  rcases xs with - | ⟨a, as⟩
  · exact iff_of_true rfl rfl
  · refine iff_of_false ?_ (List.cons_ne_nil a as)
    unfold earliest
    split
    · exact Option.some_ne_none a
    · split_ifs <;> exact not_false

theorem earliest_spec {xs : List α} {a : α} (h : earliest time xs = some a) :
    a ∈ xs ∧ ∀ b ∈ xs, time a ≤ time b := by
  induction xs generalizing a with
  | nil => cases h
  | cons b bs ih =>
    unfold earliest at h
    split at h
    · rename_i hnone
      obtain rfl := earliest_eq_none.1 hnone
      obtain rfl := Option.some.inj h
      exact ⟨.head _, by simp⟩
    · rename_i c hc
      obtain ⟨hmem, hle⟩ := ih hc
      split_ifs at h with hlt
      · obtain rfl := Option.some.inj h
        exact ⟨List.mem_cons_of_mem b hmem, List.forall_mem_cons.2 ⟨hlt.le, hle⟩⟩
      · obtain rfl := Option.some.inj h
        refine ⟨.head _, List.forall_mem_cons.2 ⟨le_rfl, fun d hd => ?_⟩⟩
        exact (not_lt.1 hlt).trans (hle d hd)

/-- Taking away other records leaves the earliest one. -/
theorem earliest_filter {xs : List α} {a : α} {p : α → Bool} (h : earliest time xs = some a)
    (hp : p a) : earliest time (xs.filter p) = some a := by
  induction xs generalizing a with
  | nil => cases h
  | cons b bs ih =>
    unfold earliest at h
    split at h
    · rename_i hnone
      obtain rfl := earliest_eq_none.1 hnone
      obtain rfl := Option.some.inj h
      rw [List.filter_cons_of_pos hp]
      rfl
    · rename_i c hc
      split_ifs at h with hlt
      · obtain rfl := Option.some.inj h
        have hrest := ih hc hp
        by_cases hb : p b
        · rw [List.filter_cons_of_pos hb]
          simp only [earliest, hrest, if_pos hlt]
        · rwa [List.filter_cons_of_neg hb]
      · obtain rfl := Option.some.inj h
        rw [List.filter_cons_of_pos hp]
        unfold earliest
        split
        · rfl
        · rename_i d hd
          have hle := (earliest_spec hc).2 d (List.mem_of_mem_filter (earliest_spec hd).1)
          rw [if_neg (not_lt.2 ((not_lt.1 hlt).trans hle))]

end Earliest

end Kairon.Gather

/-
Kairon/Lib/Paging.lean

Stable sorting by a key, and pages that are cut out of a list of which each
page sees a part of its own.

A reader who asks for page `k` of size `n` fetches what is available for that
page, sorts it and shows the positions from `k * n` on.  When the whole list has
no repeats, sorting what was fetched is the same as filtering the sorted whole
(`sorted_eq_filter`), so every such page is a `page` below, whatever the fetch
does.  `pages_exact_iff` says when the pages fit together: when, and only when,
each page that is reached sees everything up to its own end.
-/
import Mathlib

namespace Kairon.Paging

variable {α κ : Type*}

/-! ### Sorting by a key -/

section Sorted

variable [LinearOrder κ]

/-- Python's `sorted`: stable, and stable with `reverse=True` as well. -/
def sorted (key : α → κ) (reverse : Bool) (items : List α) : List α :=
  items.insertionSort fun a b => if reverse then key b ≤ key a else key a ≤ key b

theorem perm_sorted (key : α → κ) (reverse : Bool) (items : List α) :
    (sorted key reverse items).Perm items :=
  List.perm_insertionSort _ items

variable {items : List α}

@[simp] theorem mem_sorted {key : α → κ} {reverse : Bool} {x : α} :
    x ∈ sorted key reverse items ↔ x ∈ items :=
  (perm_sorted key reverse items).mem_iff

@[simp] theorem length_sorted (key : α → κ) (reverse : Bool) (items : List α) :
    (sorted key reverse items).length = items.length :=
  (perm_sorted key reverse items).length_eq

@[simp] theorem nodup_sorted {key : α → κ} {reverse : Bool} :
    (sorted key reverse items).Nodup ↔ items.Nodup :=
  (perm_sorted key reverse items).nodup_iff

variable {r : α → α → Prop} [DecidableRel r]

theorem filter_orderedInsert_of_neg (p : α → Bool) {a : α} (ha : p a = false) (items : List α) :
    (items.orderedInsert r a).filter p = items.filter p := by
  induction items with
  | nil => simp [ha]
  | cons b items ih =>
    rw [List.orderedInsert_cons]
    by_cases hab : r a b
    · rw [if_pos hab, List.filter_cons_of_neg (by simp [ha])]
    · rw [if_neg hab, List.filter_cons, ih, ← List.filter_cons]

theorem orderedInsert_of_forall {a : α} (h : ∀ b ∈ items, r a b) :
    items.orderedInsert r a = a :: items := by
  cases items with
  | nil => rfl
  | cons b items => exact List.orderedInsert_cons_of_le r items (h b (.head _))

variable [IsTrans α r]

/-- Where the list is sorted, the new element comes before everything kept behind its place. -/
theorem filter_orderedInsert_of_pos (p : α → Bool) {a : α} (ha : p a = true)
    (hitems : items.Pairwise r) :
    (items.orderedInsert r a).filter p = (items.filter p).orderedInsert r a := by
  induction items with
  | nil => simp [ha]
  | cons b items ih =>
    have ih := ih hitems.of_cons
    by_cases hab : r a b
    · rw [List.orderedInsert_cons_of_le r items hab, List.filter_cons_of_pos ha]
      -- everything that is kept is behind `b`, and so behind `a`
      refine (orderedInsert_of_forall ?_).symm
      intro c hc
      rcases List.mem_cons.1 (List.mem_of_mem_filter hc) with rfl | hc
      · exact hab
      · exact trans_of r hab (List.rel_of_pairwise_cons hitems hc)
    · rw [List.orderedInsert_of_not_le r items hab]
      by_cases hb : p b = true
      · rw [List.filter_cons_of_pos hb, List.filter_cons_of_pos hb,
          List.orderedInsert_of_not_le r _ hab, ih]
      · rw [List.filter_cons_of_neg hb, List.filter_cons_of_neg hb, ih]

variable [Std.Total r]

theorem insertionSort_filter (p : α → Bool) (items : List α) :
    (items.filter p).insertionSort r = (items.insertionSort r).filter p := by
  induction items with
  | nil => rfl
  | cons a items ih =>
    rw [List.insertionSort_cons]
    by_cases ha : p a = true
    · rw [List.filter_cons_of_pos ha, List.insertionSort_cons, ih,
        filter_orderedInsert_of_pos p ha (List.pairwise_insertionSort r items)]
    · rw [List.filter_cons_of_neg ha, ih, filter_orderedInsert_of_neg p (Bool.eq_false_iff.2 ha)]

end Sorted

section Stable

variable [LinearOrder κ]

instance sortedTotal (key : α → κ) (reverse : Bool) :
    Std.Total fun a b => if reverse then key b ≤ key a else key a ≤ key b where
  total a b := by
    cases reverse
    · exact le_total (key a) (key b)
    · exact le_total (key b) (key a)

instance sortedTrans (key : α → κ) (reverse : Bool) :
    IsTrans α fun a b => if reverse then key b ≤ key a else key a ≤ key b where
  trans a b c hab hbc := by
    cases reverse
    · exact le_trans (a := key a) hab hbc
    · exact le_trans (a := key c) hbc hab

theorem sorted_filter (key : α → κ) (reverse : Bool) (p : α → Bool) (items : List α) :
    sorted key reverse (items.filter p) = (sorted key reverse items).filter p :=
  insertionSort_filter p items

theorem pairwise_sorted (key : α → κ) (reverse : Bool) (items : List α) :
    (sorted key reverse items).Pairwise fun a b =>
      if reverse then key b ≤ key a else key a ≤ key b :=
  List.pairwise_insertionSort _ items

variable {before after : List α}

/-- Sorted downwards, what is greater than an element stands before it, and it is the first
of its key when it was that before. -/
theorem exists_sorted_eq {key : α → κ} {a : α} (hbefore : ∀ b ∈ before, key b ≠ key a) :
    ∃ rest, sorted key true (before ++ a :: after) =
      sorted key true ((before ++ a :: after).filter (key a < key ·)) ++ a :: rest := by
  generalize hitems : before ++ a :: after = items
  -- the greater ones, and then the others
  have hsplit : sorted key true items = (sorted key true items).filter (key a < key ·) ++
        (sorted key true items).filter (¬ key a < key ·) := by
    have hsorted := pairwise_sorted key true items
    generalize sorted key true items = row at hsorted
    induction row with
    | nil => rfl
    | cons b row ih =>
      obtain ⟨hb, hrow⟩ := List.pairwise_cons.1 hsorted
      by_cases h : key a < key b
      · rw [List.filter_cons_of_pos (by simpa using h), List.filter_cons_of_neg (by simpa using h),
          List.cons_append, ← ih hrow]
      · have hnone : row.filter (key a < key ·) = [] := List.filter_eq_nil_iff.2 fun c hc => by
          have hle : key c ≤ key b := hb c hc
          simpa using hle.trans (not_lt.1 h)
        rw [List.filter_cons_of_neg (by simpa using h), hnone, List.filter_eq_self.2 fun c hc => ?_]
        · rfl
        · rcases List.mem_cons.1 hc with rfl | hc
          · exact decide_eq_true h
          · have hle : key c ≤ key b := hb c hc
            exact decide_eq_true (not_lt.2 (hle.trans (not_lt.1 h)))
  -- among the others, the first of the key of `a` is `a`
  obtain ⟨rest, hrest⟩ : ∃ rest, (sorted key true items).filter (¬ key a < key ·) = a :: rest := by
    have hmem : a ∈ (sorted key true items).filter (¬ key a < key ·) := by
      rw [List.mem_filter, mem_sorted, ← hitems]
      exact ⟨by simp, by simp⟩
    have hsorted : ((sorted key true items).filter (¬ key a < key ·)).Pairwise
        fun b c => key c ≤ key b := (pairwise_sorted key true items).filter _
    have hsame : ((sorted key true items).filter (¬ key a < key ·)).filter (key · = key a) =
        a :: after.filter (key · = key a) := by
      rw [List.filter_filter, ← sorted_filter, ← hitems]
      have hfilter : (before ++ a :: after).filter
          (fun b => decide (key b = key a) && decide (¬ key a < key b)) =
            a :: after.filter (key · = key a) := by
        have hcongr : ∀ b, (decide (key b = key a) && decide (¬ key a < key b)) =
            decide (key b = key a) := fun b => by
          by_cases h : key b = key a
          · simp [h]
          · simp [h]
        simp only [hcongr]
        rw [List.filter_append, List.filter_eq_nil_iff.2 fun b hb => by simpa using hbefore b hb,
          List.filter_cons_of_pos (by simp), List.nil_append]
      rw [hfilter]
      refine List.Pairwise.insertionSort_eq (List.pairwise_of_forall_mem_list fun b hb c hc => ?_)
      have hkey : ∀ b ∈ a :: after.filter (key · = key a), key b = key a := fun b hb => by
        rcases List.mem_cons.1 hb with rfl | hb
        · rfl
        · exact of_decide_eq_true (List.mem_filter.1 hb).2
      rw [if_pos rfl, hkey b hb, hkey c hc]
    have hnot : ∀ b ∈ (sorted key true items).filter (¬ key a < key ·), ¬ key a < key b :=
      fun b hb => of_decide_eq_true (List.mem_filter.1 hb).2
    generalize (sorted key true items).filter (¬ key a < key ·) = row at hmem hsorted hsame hnot
    rcases row with - | ⟨b, row⟩
    · cases hmem
    · have hle : key a ≤ key b := by
        rcases List.mem_cons.1 hmem with rfl | hmem
        · exact le_rfl
        · exact List.rel_of_pairwise_cons hsorted hmem
      have hkey : key b = key a := le_antisymm (not_lt.1 (hnot b (.head _))) hle
      rw [List.filter_cons_of_pos (by simpa using hkey), List.cons.injEq] at hsame
      exact ⟨row, by rw [hsame.1]⟩
  rw [sorted_filter]
  exact ⟨rest, by rw [← hrest]; exact hsplit⟩

/-- **What is kept of a sorted list**: an element is among the first `n` exactly where fewer
than `n` are greater. -/
theorem mem_take_sorted_iff {key : α → κ} {a : α} {n : ℕ} (hbefore : ∀ b ∈ before, key b ≠ key a) :
    a ∈ (sorted key true (before ++ a :: after)).take n ↔
      ((before ++ a :: after).filter (key a < key ·)).length < n := by
  obtain ⟨rest, hrest⟩ := @exists_sorted_eq α κ _ before after key a hbefore
  generalize hitems : before ++ a :: after = items at hrest
  have hgreater : a ∉ sorted key true (items.filter (key a < key ·)) := fun h => by
    rw [mem_sorted, List.mem_filter] at h
    exact lt_irrefl _ (of_decide_eq_true h.2)
  rw [hrest, List.take_append, List.mem_append, length_sorted]
  generalize hcount : (items.filter (key a < key ·)).length = count
  constructor
  · rintro (h | h)
    · exact absurd (List.mem_of_mem_take h) hgreater
    · by_contra hle
      rw [Nat.sub_eq_zero_of_le (not_lt.1 hle)] at h
      cases h
  · intro h
    obtain ⟨m, hm⟩ := Nat.exists_eq_succ_of_ne_zero (Nat.sub_ne_zero_of_lt h)
    rw [hm, List.take_succ_cons]
    exact .inr (.head _)

variable [DecidableEq α]

variable {part items : List α}

/-- Of a list without repeats every selection in its order is a filter. -/
theorem eq_filter_of_sublist (h : part.Sublist items)
    (hitems : items.Nodup) : part = items.filter (· ∈ part) := by
  induction h with
  | slnil => rfl
  | @cons part items a h ih =>
    have ha : a ∉ part := fun hmem => (List.nodup_cons.1 hitems).1 (h.subset hmem)
    rw [List.filter_cons_of_neg (by simpa using ha)]
    exact ih hitems.of_cons
  | @cons_cons part items a h ih =>
    rw [List.filter_cons_of_pos (by simp)]
    refine congrArg (a :: ·) ((ih hitems.of_cons).trans (List.filter_congr ?_))
    intro b hb
    have hne : b ≠ a := fun hba => (List.nodup_cons.1 hitems).1 (hba ▸ hb)
    simp [hne]

/-- **What was fetched, sorted, is the whole list, sorted, without the rest.** -/
theorem sorted_eq_filter (key : α → κ) (reverse : Bool)
    (h : part.Sublist items) (hitems : items.Nodup) :
    sorted key reverse part = (sorted key reverse items).filter (· ∈ part) := by
  rw [← sorted_filter, ← eq_filter_of_sublist h hitems]

theorem sorted_sublist (key : α → κ) (reverse : Bool)
    (h : part.Sublist items) (hitems : items.Nodup) :
    (sorted key reverse part).Sublist (sorted key reverse items) := by
  rw [sorted_eq_filter key reverse h hitems]
  exact List.filter_sublist

end Stable

/-! ### Pages of what is available -/

section Pages

variable (n : ℕ) (available : ℕ → α → Bool) (full : List α)

/-- Page `k`: what is available for it, from position `k * n` on. -/
def page (k : ℕ) : List α := ((full.filter (available k)).drop (k * n)).take n

/-- The positions that page `k` should show. -/
def block (k : ℕ) : List α := (full.drop (k * n)).take n

def pages (K : ℕ) : List α := (List.range K).flatMap (page n available full)

/-- Page `k` sees everything up to its own end. -/
def SeesAll (k : ℕ) : Prop := ∀ x ∈ full.take ((k + 1) * n), available k x = true

variable {n available full}

theorem take_succ_mul (k : ℕ) : full.take ((k + 1) * n) = full.take (k * n) ++ block n full k := by
  rw [block, Nat.succ_mul, List.take_add]

theorem flatMap_block (K : ℕ) : (List.range K).flatMap (block n full) = full.take (K * n) := by
  induction K with
  | zero => simp
  | succ K ih =>
    rw [List.range_succ, List.flatMap_append, ih, take_succ_mul]
    simp

theorem filter_eq_append (k m : ℕ) : full.filter (available k)
      = (full.take m).filter (available k) ++ (full.drop m).filter (available k) := by
  rw [← List.filter_append, List.take_append_drop]

/-- A page that sees everything up to its own end shows its own positions. -/
theorem page_eq_block {k : ℕ} (h : SeesAll n available full k) :
    page n available full k = block n full k := by
  have htake : (full.filter (available k)).take ((k + 1) * n) = full.take ((k + 1) * n) := by
    rw [filter_eq_append k ((k + 1) * n), List.filter_eq_self.2 h]
    rcases Nat.lt_or_ge full.length ((k + 1) * n) with hlt | hge
    · rw [List.drop_eq_nil_of_le hlt.le]
      simp
    · exact List.take_left' (by rw [List.length_take, min_eq_left hge])
  have hswap : ∀ items : List α,
      (items.drop (k * n)).take n = (items.take ((k + 1) * n)).drop (k * n) := by
    intro items
    rw [List.take_drop, Nat.succ_mul]
  rw [page, block, hswap, hswap, htake]

/-- A page that begins behind the end is empty, as it should be. -/
theorem page_eq_nil {k : ℕ} (h : full.length ≤ k * n) : page n available full k = [] := by
  have hlength := (List.length_filter_le (available k) full).trans h
  rw [page, List.drop_eq_nil_of_le hlength, List.take_nil]

theorem mem_of_mem_page {k : ℕ} {x : α} (hx : x ∈ page n available full k) :
    x ∈ full ∧ available k x = true :=
  List.mem_filter.1 (List.mem_of_mem_drop (List.mem_of_mem_take hx))

/-- No page shows anything of the positions before it. -/
theorem notMem_take_of_mem_page (hfull : full.Nodup) {k : ℕ} {x : α}
    (hx : x ∈ page n available full k) : x ∉ full.take (k * n) := by
  intro hbefore
  rw [page, filter_eq_append k (k * n), List.drop_append] at hx
  have hshort : ((full.take (k * n)).filter (available k)).length ≤ k * n :=
    (List.length_filter_le _ _).trans (List.length_take_le _ _)
  rw [List.drop_eq_nil_of_le hshort, List.nil_append] at hx
  have hbehind : x ∈ full.drop (k * n) :=
    List.mem_of_mem_filter (List.mem_of_mem_drop (List.mem_of_mem_take hx))
  exact List.disjoint_take_drop hfull le_rfl hbefore hbehind

/-- Where a page shows the first of its own positions, it sees everything before it: otherwise
that element would come earlier among what the page sees. -/
theorem sees_take_of_first {k : ℕ} (hfull : full.Nodup) {y : α} {rest : List α}
    (hdrop : full.drop (k * n) = y :: rest) (hy : y ∈ page n available full k) :
    ∀ x ∈ full.take (k * n), available k x = true := by
  have hyrest : y ∉ rest := by
    have hnodup := hfull.sublist (List.drop_sublist (k * n) full)
    rw [hdrop] at hnodup
    exact (List.nodup_cons.1 hnodup).1
  have hsees := (mem_of_mem_page hy).2
  refine List.length_filter_eq_length_iff.1 (by_contra fun hne => hyrest ?_)
  have hlt : ((full.take (k * n)).filter (available k)).length < k * n :=
    (lt_of_le_of_ne (List.length_filter_le _ _) hne).trans_le (List.length_take_le _ _)
  obtain ⟨m, hm⟩ := Nat.exists_eq_add_of_lt hlt
  rw [page, filter_eq_append k (k * n), hdrop, List.filter_cons_of_pos hsees, List.drop_append,
    List.drop_eq_nil_of_le hlt.le, List.nil_append, show k * n - _ = m + 1 by omega,
    List.drop_succ_cons] at hy
  exact List.mem_of_mem_filter (List.mem_of_mem_drop (List.mem_of_mem_take hy))

/-- **The pages fit together if and only if each page that is reached sees everything up to its
own end.**  No page then repeats an element, and none is skipped. -/
theorem pages_exact_iff (hfull : full.Nodup) (hn : 0 < n) (K : ℕ) :
    ((pages n available full K).Nodup ∧ ∀ x ∈ full.take (K * n), x ∈ pages n available full K) ↔
      ∀ k < K, k * n < full.length → SeesAll n available full k := by
  constructor
  · rintro ⟨-, hcover⟩ k hk
    -- the pages before show their own positions, so that those of page `k` are left to it
    induction k using Nat.strong_induction_on with
    | _ k ih =>
      intro hreached
      have hblock : ∀ x ∈ block n full k, x ∈ page n available full k := by
        intro x hx
        have hxfull : x ∈ full.drop (k * n) := List.mem_of_mem_take hx
        have hxtake : x ∈ full.take ((k + 1) * n) := by
          rw [take_succ_mul]
          exact List.mem_append_right _ hx
        have hxK : x ∈ full.take (K * n) :=
          List.take_subset_take_left full (Nat.mul_le_mul_right n hk) hxtake
        obtain ⟨j, -, hxj⟩ := List.mem_flatMap.1 (hcover x hxK)
        rcases Nat.lt_trichotomy j k with hjk | rfl | hkj
        · have hjn : j * n < full.length := lt_of_le_of_lt (Nat.mul_le_mul_right n hjk.le) hreached
          rw [page_eq_block (ih j hjk (hjk.trans hk) hjn)] at hxj
          have hxbefore : x ∈ full.take (k * n) := by
            rw [← flatMap_block]
            exact List.mem_flatMap.2 ⟨j, List.mem_range.2 hjk, hxj⟩
          exact absurd hxfull fun h => List.disjoint_take_drop hfull le_rfl hxbefore h
        · exact hxj
        · exact absurd (List.take_subset_take_left full (Nat.mul_le_mul_right n hkj) hxtake)
            (notMem_take_of_mem_page hfull hxj)
      obtain ⟨y, rest, hdrop⟩ := List.exists_cons_of_length_pos
        (l := full.drop (k * n)) (by rw [List.length_drop]; omega)
      have hy : y ∈ page n available full k := by
        refine hblock y ?_
        rw [block, hdrop]
        exact (List.take_cons hn).symm ▸ List.mem_cons_self
      intro x hx
      rw [take_succ_mul] at hx
      rcases List.mem_append.1 hx with hx | hx
      · exact sees_take_of_first hfull hdrop hy x hx
      · exact (mem_of_mem_page (hblock x hx)).2
  · intro hsees
    have hpages : pages n available full K = full.take (K * n) := by
      rw [← flatMap_block, pages]
      refine List.flatMap_congr ?_
      intro k hk
      rcases Nat.lt_or_ge (k * n) full.length with hreached | hend
      · exact page_eq_block (hsees k (List.mem_range.1 hk) hreached)
      · rw [page_eq_nil hend, block, List.drop_eq_nil_of_le hend, List.take_nil]
    rw [hpages]
    exact ⟨hfull.sublist (List.take_sublist _ _), fun x hx => hx⟩

end Pages

end Kairon.Paging

/-
Kairon/Lib/Clusters.lean

One more record at a time that is already there.

The record joins the cluster of that time, right behind a record of the time, and the
other clusters stay as they are (`clusters_concat`).  Which cluster that is is decided
by the time alone, since the clusters follow each other in time (`clusters_strict`).
-/
import Kairon.Lib.Gather

namespace Kairon.Gather

variable {α : Type*}

/-! ### Splitting at a pause -/

section SplitBy

variable {near : α → α → Bool}

/-- The records before the first pause belong together. -/
theorem splitBy_loop_group (xs : List α) (a : α) (group : List α) :
    ∃ first rest, List.splitBy.loop near xs a [] [] = first :: rest ∧
      List.splitBy.loop near xs a group [] = (group.reverse ++ first) :: rest := by
  have hdone (xs : List α) (a : α) (group : List α) (done : List (List α)) :
      List.splitBy.loop near xs a group done =
        done.reverse ++ List.splitBy.loop near xs a group [] := by
    induction xs generalizing a group done with
    | nil => simp [List.splitBy.loop]
    | cons b xs ih =>
      rw [List.splitBy.loop, List.splitBy.loop]
      cases near a b with
      | true => exact ih b (a :: group) done
      | false =>
        rw [ih b [] _, ih b [] [(a :: group).reverse]]
        simp
  induction xs generalizing a group with
  | nil => exact ⟨[a], [], rfl, by simp [List.splitBy.loop]⟩
  | cons b xs ih =>
    rw [List.splitBy.loop, List.splitBy.loop]
    cases near a b with
    | true =>
      obtain ⟨first, rest, hfirst, hone⟩ := ih b [a]
      obtain ⟨first', rest', hfirst', hall⟩ := ih b (a :: group)
      obtain ⟨rfl, rfl⟩ := List.cons.inj (hfirst.symm.trans hfirst')
      refine ⟨[a] ++ first, rest, hone, ?_⟩
      simpa using hall
    | false =>
      refine ⟨[a], List.splitBy.loop near xs b [] [], ?_, ?_⟩
      · exact hdone xs b [] [[a]]
      · simpa using hdone xs b [] [(a :: group).reverse]

theorem splitBy_cons_of_near {a b : α} (h : near a b = true) (xs : List α) :
    ∃ first rest, (b :: xs).splitBy near = first :: rest ∧
      (a :: b :: xs).splitBy near = (a :: first) :: rest := by
  obtain ⟨first, rest, hfirst, hall⟩ := @splitBy_loop_group α near xs b [a]
  refine ⟨first, rest, hfirst, ?_⟩
  rw [List.splitBy, List.splitBy.loop, h]
  exact hall

theorem splitBy_cons_of_pause {a b : α} (h : near a b = false) (xs : List α) :
    (a :: b :: xs).splitBy near = [a] :: (b :: xs).splitBy near := by
  refine (@List.splitBy_append α near [a] (b :: xs) fun x hx y hy => ?_).trans rfl
  obtain rfl : a = x := by simpa using hx
  obtain rfl : b = y := by simpa using hy
  exact h

/-- A record that is near its left neighbour and has the same right neighbours joins the
group of the neighbour. -/
theorem splitBy_insert {p k : α} (hpk : near p k = true) (hk : ∀ y, near k y = near p y)
    (pre post : List α) :
    ∃ groups left right rest, groups.flatten ++ left = pre ∧
      (pre ++ p :: post).splitBy near = groups ++ (left ++ p :: right) :: rest ∧
      (pre ++ p :: k :: post).splitBy near = groups ++ (left ++ p :: k :: right) :: rest := by
  induction pre with
  | nil =>
    obtain ⟨first, rest, hfirst, hall⟩ := @splitBy_cons_of_near α near p k hpk post
    -- the group of the record is that of its neighbour
    have hgroup : ∃ right, first = k :: right ∧
        (p :: post).splitBy near = (p :: right) :: rest := by
      rcases post with - | ⟨y, post⟩
      · obtain ⟨rfl, rfl⟩ := List.cons.inj hfirst
        exact ⟨[], rfl, rfl⟩
      · rcases hnear : near p y with - | -
        · rw [splitBy_cons_of_pause ((hk y).trans hnear)] at hfirst
          obtain ⟨rfl, rfl⟩ := List.cons.inj hfirst
          exact ⟨[], rfl, splitBy_cons_of_pause hnear post⟩
        · obtain ⟨g, gs, hg, hkg⟩ := splitBy_cons_of_near ((hk y).trans hnear) post
          obtain ⟨g', gs', hg', hpg⟩ := splitBy_cons_of_near hnear post
          obtain ⟨rfl, rfl⟩ := List.cons.inj (hg.symm.trans hg')
          obtain ⟨rfl, rfl⟩ := List.cons.inj (hkg.symm.trans hfirst)
          exact ⟨g, rfl, hpg⟩
    obtain ⟨right, rfl, hp⟩ := hgroup
    exact ⟨[], [], right, rest, rfl, hp, hall⟩
  | cons a pre ih =>
    obtain ⟨groups, left, right, rest, hpre, hone, hall⟩ := ih
    obtain ⟨b, xs, ys, hxs, hys⟩ : ∃ b xs ys, pre ++ p :: post = b :: xs ∧
        pre ++ p :: k :: post = b :: ys := by
      rcases pre with - | ⟨b, pre⟩
      · exact ⟨p, post, k :: post, rfl, rfl⟩
      · exact ⟨b, pre ++ p :: post, pre ++ p :: k :: post, rfl, rfl⟩
    rw [List.cons_append, List.cons_append, hxs, hys]
    rw [hxs] at hone
    rw [hys] at hall
    rcases hnear : near a b with - | -
    · rw [splitBy_cons_of_pause hnear, splitBy_cons_of_pause hnear, hone, hall]
      exact ⟨[a] :: groups, left, right, rest, congrArg (a :: ·) hpre, rfl, rfl⟩
    · obtain ⟨g, gs, hg, hag⟩ := splitBy_cons_of_near hnear xs
      obtain ⟨g', gs', hg', hag'⟩ := splitBy_cons_of_near hnear ys
      rw [hag, hag']
      rw [hone] at hg
      rw [hall] at hg'
      rcases groups with - | ⟨h, groups⟩
      · obtain ⟨rfl, rfl⟩ := List.cons.inj hg
        obtain ⟨rfl, rfl⟩ := List.cons.inj hg'
        exact ⟨[], a :: left, right, rest, congrArg (a :: ·) hpre, rfl, rfl⟩
      · obtain ⟨rfl, rfl⟩ := List.cons.inj hg
        obtain ⟨rfl, rfl⟩ := List.cons.inj hg'
        exact ⟨(a :: h) :: groups, left, right, rest, congrArg (a :: ·) hpre, rfl, rfl⟩

end SplitBy

/-! ### Clusters in time -/

section Clusters

variable {dt : α → Option ℤ} {gap : ℤ}

/-- Everything of the first list is earlier than everything of the second. -/
def Earlier (dt : α → Option ℤ) (xs ys : List α) : Prop :=
  ∀ a ∈ xs, ∀ b ∈ ys, (dt a).getD 0 < (dt b).getD 0

/-- Sorted records, cut at the long pauses, are in groups that follow each other. -/
theorem splitBy_strict (hgap : 0 ≤ gap) {xs : List α}
    (h : xs.Pairwise fun a b => (dt a).getD 0 ≤ (dt b).getD 0) :
    (xs.splitBy fun a b => decide ((dt b).getD 0 - (dt a).getD 0 ≤ gap)).Pairwise
      (Earlier dt) := by
  induction xs with
  | nil => exact List.Pairwise.nil
  | cons a xs ih =>
    rcases xs with - | ⟨b, xs⟩
    · exact List.pairwise_singleton _ _
    obtain ⟨ha, hxs⟩ := List.pairwise_cons.1 h
    have ih := ih hxs
    by_cases hnear : (dt b).getD 0 - (dt a).getD 0 ≤ gap
    · obtain ⟨first, rest, hfirst, hall⟩ := @splitBy_cons_of_near α
        (fun a b => decide ((dt b).getD 0 - (dt a).getD 0 ≤ gap)) a b
        (decide_eq_true hnear) xs
      rw [hfirst] at ih
      obtain ⟨hhead, htail⟩ := List.pairwise_cons.1 ih
      rw [hall]
      refine List.pairwise_cons.2 ⟨fun group hgroup x hx y hy => ?_, htail⟩
      rcases List.mem_cons.1 hx with rfl | hx
      · -- the neighbour is in the first group
        have hb : b ∈ first := by
          have hflat := List.flatten_splitBy
            (fun a b => decide ((dt b).getD 0 - (dt a).getD 0 ≤ gap)) (b :: xs)
          rw [hfirst, List.flatten_cons] at hflat
          rcases first with - | ⟨c, first⟩
          · exact absurd (hfirst ▸ List.mem_cons_self) (List.nil_notMem_splitBy _ _)
          · rw [List.cons_append] at hflat
            rw [(List.cons.inj hflat).1]
            exact .head _
        exact (ha b (.head _)).trans_lt (hhead group hgroup b hb y hy)
      · exact hhead group hgroup x hx y hy
    · rw [splitBy_cons_of_pause (decide_eq_false hnear)]
      refine List.pairwise_cons.2 ⟨fun group hgroup x hx y hy => ?_, ih⟩
      obtain rfl := List.mem_singleton.1 hx
      have hmem : y ∈ b :: xs := by
        rw [← List.flatten_splitBy
          (fun a b => decide ((dt b).getD 0 - (dt a).getD 0 ≤ gap)) (b :: xs)]
        exact List.mem_flatten.2 ⟨group, hgroup, hy⟩
      have hby : (dt b).getD 0 ≤ (dt y).getD 0 := by
        rcases List.mem_cons.1 hmem with rfl | hmem
        · exact le_rfl
        · exact (List.pairwise_cons.1 hxs).1 y hmem
      omega

theorem clusters_strict (hgap : 0 ≤ gap) (xs : List α) :
    (clusters dt gap xs).Pairwise (Earlier dt) := splitBy_strict hgap (ordered_sorted xs)

/-- A sorted list is what comes not after a time and then the rest. -/
theorem sorted_eq_append {xs : List α}
    (h : xs.Pairwise fun a b => (dt a).getD 0 ≤ (dt b).getD 0) (t : ℤ) :
    xs = xs.filter (fun a => (dt a).getD 0 ≤ t) ++ xs.filter (fun a => ¬ (dt a).getD 0 ≤ t) := by
  induction xs with
  | nil => rfl
  | cons a xs ih =>
    obtain ⟨ha, hxs⟩ := List.pairwise_cons.1 h
    by_cases hat : (dt a).getD 0 ≤ t
    · rw [List.filter_cons_of_pos (by simpa using hat), List.filter_cons_of_neg (by simpa using hat),
        List.cons_append, ← ih hxs]
    · have hnone : xs.filter (fun a => (dt a).getD 0 ≤ t) = [] := by
        refine List.filter_eq_nil_iff.2 fun b hb hbt => hat ?_
        exact (ha b hb).trans (of_decide_eq_true hbt)
      have hall : xs.filter (fun a => ¬ (dt a).getD 0 ≤ t) = xs := by
        refine List.filter_eq_self.2 fun b hb => decide_eq_true fun hbt => hat ?_
        exact (ha b hb).trans hbt
      rw [List.filter_cons_of_neg (by simpa using hat), List.filter_cons_of_pos (by simpa using hat),
        hnone, hall, List.nil_append]

/-- A record behind all others stands, when sorted, behind those of its time. -/
theorem ordered_concat {xs : List α} {k : α} {t : ℤ} (hk : dt k = some t) : ordered dt (xs ++ [k]) =
      (ordered dt xs).filter (fun a => (dt a).getD 0 ≤ t) ++
        k :: (ordered dt xs).filter (fun a => ¬ (dt a).getD 0 ≤ t) := by
  have htotal : Std.Total fun a b : α => (dt a).getD 0 ≤ (dt b).getD 0 :=
    ⟨fun a b => le_total _ _⟩
  have htrans : IsTrans α fun a b => (dt a).getD 0 ≤ (dt b).getD 0 :=
    ⟨fun _ _ _ hab hbc => hab.trans hbc⟩
  have hdated : (xs ++ [k]).filter (fun a => (dt a).isSome) =
      xs.filter (fun a => (dt a).isSome) ++ [k] := by simp [hk]
  rw [sorted_eq_append (ordered_sorted (xs ++ [k])) t]
  unfold ordered
  rw [filter_insertionSort, filter_insertionSort, filter_insertionSort, filter_insertionSort,
    hdated, List.filter_append, List.filter_append]
  have hle : [k].filter (fun a => (dt a).getD 0 ≤ t) = [k] := by simp [hk]
  have hgt : [k].filter (fun a => ¬ (dt a).getD 0 ≤ t) = [] := by simp [hk]
  rw [hle, hgt, List.append_nil, insertionSort_append, List.append_assoc]
  · rfl
  · intro a ha b hb
    rw [List.mem_singleton.1 hb, hk]
    exact of_decide_eq_true (List.mem_filter.1 ha).2

/-- **A record at the time of another one joins its cluster**, right behind a record of
that time, and leaves the other clusters. -/
theorem clusters_concat (hgap : 0 ≤ gap) {xs : List α} {o k : α} {t : ℤ} (ho : o ∈ xs)
    (hot : dt o = some t) (hk : dt k = some t) :
    ∃ groups left p right rest, o ∈ left ++ [p] ∧
      clusters dt gap xs = groups ++ (left ++ p :: right) :: rest ∧
      clusters dt gap (xs ++ [k]) = groups ++ (left ++ p :: k :: right) :: rest := by
  have hsorted := @ordered_sorted α dt xs
  have hmem : o ∈ (ordered dt xs).filter (fun a => (dt a).getD 0 ≤ t) :=
    List.mem_filter.2 ⟨mem_ordered.2 ⟨ho, t, hot⟩, by simp [hot]⟩
  have hsplit := sorted_eq_append hsorted t
  have hconcat := @ordered_concat α dt xs k t hk
  have hle : ∀ a ∈ (ordered dt xs).filter (fun a => (dt a).getD 0 ≤ t), (dt a).getD 0 ≤ t :=
    fun a ha => of_decide_eq_true (List.mem_filter.1 ha).2
  generalize (ordered dt xs).filter (fun a => (dt a).getD 0 ≤ t) = pre at hmem hsplit hconcat hle
  generalize (ordered dt xs).filter (fun a => ¬ (dt a).getD 0 ≤ t) = post at hsplit hconcat
  obtain ⟨pre, p, rfl⟩ := pre.eq_nil_or_concat'.resolve_left (List.ne_nil_of_mem hmem)
  have hp : (dt p).getD 0 = t := by
    refine le_antisymm (hle p (by simp)) ?_
    rcases List.mem_append.1 hmem with ho | ho
    · have hop := (List.pairwise_append.1 (List.pairwise_append.1 (hsplit ▸ hsorted)).1).2.2 o ho
        p (List.mem_singleton_self p)
      rwa [hot] at hop
    · rw [← List.mem_singleton.1 ho, hot]
      exact le_rfl
  rw [List.append_assoc, List.singleton_append] at hsplit hconcat
  obtain ⟨groups, left, right, rest, hpre, hone, hall⟩ := @splitBy_insert α
    (fun a b => decide ((dt b).getD 0 - (dt a).getD 0 ≤ gap)) p k
    (decide_eq_true (by rw [hp, hk]; simpa using hgap)) (fun y => by rw [hp, hk]; rfl) pre post
  rw [← hsplit] at hone
  rw [← hconcat] at hall
  refine ⟨groups, left, p, right, rest, ?_, hone, hall⟩
  -- a record of the same time is in no cluster before
  have hstrict := @clusters_strict α dt gap hgap xs
  rw [clusters, hone] at hstrict
  rw [← hpre, List.append_assoc] at hmem
  rcases List.mem_append.1 hmem with ho | ho
  · obtain ⟨group, hgroup, hog⟩ := List.mem_flatten.1 ho
    have hearlier := (List.pairwise_append.1 hstrict).2.2 group hgroup _ (.head _)
      o hog p (by simp)
    rw [hot, hp] at hearlier
    exact absurd hearlier (lt_irrefl t)
  · exact ho

end Clusters

end Kairon.Gather

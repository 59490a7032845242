/-
Kairon/Lib/Sweep.lean

A sweep for bursts: records sorted in time, and a pointer that looks at the
records up to `width` later than its own.  If they are `need` or more they are
a burst and the pointer goes past them, else it goes on by one record.

`sweep` recurses on the records; the counter says how many of them are of the
burst before.  `flatten_sweep`: a record is in at most one burst.
`mem_sweep`: a burst is one look of the pointer.  `sweep_complete`: `need`
records in `width` of each other cannot all be left out.  `sweep_perm`: what
bursts there are does not depend on the order of records of one time, since a
look from inside such a tie sees less than the look from its first record
(`sweep_ties`), so that every burst is made of whole ties.
-/
import Mathlib.Data.List.Perm.Basic
import Mathlib.Data.List.Sublists
import Mathlib.Data.List.Perm.Subperm
import Mathlib.Data.List.TakeWhile
import Mathlib.Algebra.Order.Group.Int

namespace Kairon.Sweep

variable {α : Type}

/-! ### Sorted records -/

section Sorted

variable {time : α → ℤ}

def Sorted (time : α → ℤ) (xs : List α) : Prop := xs.Pairwise fun a b => time a ≤ time b

/-- What a bound cuts off at the front of sorted records is all that is below it. -/
theorem Sorted.takeWhile_eq {xs : List α} (h : Sorted time xs) (bound : ℤ) :
    xs.takeWhile (fun a => time a ≤ bound) = xs.filter fun a => time a ≤ bound := by
  induction xs with
  | nil => rfl
  | cons a xs ih =>
    obtain ⟨ha, hxs⟩ := List.pairwise_cons.1 h
    by_cases hbound : time a ≤ bound
    · rw [List.takeWhile_cons_of_pos (by simpa using hbound),
        List.filter_cons_of_pos (by simpa using hbound), ih hxs]
    · rw [List.takeWhile_cons_of_neg (by simpa using hbound),
        List.filter_cons_of_neg (by simpa using hbound)]
      refine (List.filter_eq_nil_iff.2 fun b hb => ?_).symm
      simpa using (lt_of_not_ge hbound).trans_le (ha b hb)

theorem Sorted.dropWhile_eq {xs : List α} (h : Sorted time xs) (bound : ℤ) :
    xs.dropWhile (fun a => time a ≤ bound) = xs.filter fun a => bound < time a := by
  induction xs with
  | nil => rfl
  | cons a xs ih =>
    obtain ⟨ha, hxs⟩ := List.pairwise_cons.1 h
    by_cases hbound : time a ≤ bound
    · rw [List.dropWhile_cons_of_pos (by simpa using hbound),
        List.filter_cons_of_neg (by simpa using hbound), ih hxs]
    · rw [List.dropWhile_cons_of_neg (by simpa using hbound)]
      refine (List.filter_eq_self.2 fun b hb => ?_).symm
      rcases List.mem_cons.1 hb with rfl | hb
      · simpa using hbound
      · simpa using (lt_of_not_ge hbound).trans_le (ha b hb)

theorem Sorted.head_le {a c : α} {xs : List α} (h : Sorted time (a :: xs)) (hc : c ∈ a :: xs) :
    time a ≤ time c := by
  rcases List.mem_cons.1 hc with rfl | hc
  · exact le_rfl
  · exact (List.pairwise_cons.1 h).1 c hc

theorem Sorted.le_getLast {xs : List α} (h : Sorted time xs) {c : α} (hc : c ∈ xs) (hne : xs ≠ []) :
    time c ≤ time (xs.getLast hne) := by
  rw [← List.dropLast_append_getLast hne, List.mem_append, List.mem_singleton] at hc
  rw [← List.dropLast_append_getLast hne] at h
  rcases hc with hc | rfl
  · exact (List.pairwise_append.1 h).2.2 c hc _ (List.mem_singleton_self _)
  · exact le_rfl

/-- Two sorted forms of one list begin at the same time, and end at the same time. -/
theorem Sorted.head_eq {a b : α} {xs ys : List α} (hx : Sorted time (a :: xs))
    (hy : Sorted time (b :: ys)) (h : (a :: xs).Perm (b :: ys)) : time a = time b :=
  le_antisymm (hx.head_le (h.symm.subset (.head _)))
    (hy.head_le (h.subset (.head _)))

theorem Sorted.getLast_eq {xs ys : List α} (hx : Sorted time xs) (hy : Sorted time ys)
    (h : xs.Perm ys) (hxne : xs ≠ []) (hyne : ys ≠ []) :
    time (xs.getLast hxne) = time (ys.getLast hyne) :=
  le_antisymm (hy.le_getLast (h.subset (List.getLast_mem hxne)) hyne)
    (hx.le_getLast (h.symm.subset (List.getLast_mem hyne)) hxne)

end Sorted

/-! ### The sweep -/

section Sweep

variable (time : α → ℤ) (width : ℤ) (need : ℕ)

/-- What the pointer sees from a record. -/
def look (a : α) (xs : List α) : List α :=
  a :: xs.takeWhile fun b => time b - time a ≤ width

/-- The bursts of sorted records, of which the first `skip` are taken. -/
def sweep : ℕ → List α → List (List α)
  | _, [] => []
  | skip + 1, _ :: xs => sweep skip xs
  | 0, a :: xs =>
    if need ≤ (look time width a xs).length then
      look time width a xs :: sweep ((look time width a xs).length - 1) xs
    else sweep 0 xs

/-- The cases of a sweep: nothing left, a burst, or one record passed. -/
theorem sweep_induction {motive : List α → Prop} (nil : motive [])
    (burst : ∀ a xs, need ≤ (look time width a xs).length →
      motive (xs.dropWhile fun b => time b ≤ time a + width) → motive (a :: xs))
    (next : ∀ a xs, ¬ need ≤ (look time width a xs).length → motive xs → motive (a :: xs))
    (xs : List α) : motive xs := by
  induction hn : xs.length using Nat.strong_induction_on generalizing xs with
  | h n ih =>
    subst hn
    rcases xs with - | ⟨a, xs⟩
    · exact nil
    by_cases hlook : need ≤ (look time width a xs).length
    · refine burst a xs hlook (ih _ ?_ _ rfl)
      exact Nat.lt_succ_of_le (List.dropWhile_sublist _).length_le
    · exact next a xs hlook (ih _ (Nat.lt_succ_self _) xs rfl)

variable {time width need}

theorem sweep_skip (skip : ℕ) (xs : List α) :
    sweep time width need skip xs = sweep time width need 0 (xs.drop skip) := by
  induction xs generalizing skip with
  | nil => simp only [sweep, List.drop_nil]
  | cons a xs ih =>
    rcases skip with - | skip
    · rfl
    · rw [sweep, ih, List.drop_succ_cons]

/-- A sweep does not look at more of a record than its time. -/
theorem sweep_map {β : Type} (f : β → α) (skip : ℕ) (xs : List β) :
    sweep time width need skip (xs.map f) =
      (sweep (fun b => time (f b)) width need skip xs).map (List.map f) := by
  have hlook : ∀ a ys, look time width (f a) (ys.map f) =
      (look (fun b => time (f b)) width a ys).map f := by
    intro a ys
    rw [look, look, List.map_cons, List.takeWhile_map]
    rfl
  induction xs generalizing skip with
  | nil => rw [List.map_nil, sweep, sweep, List.map_nil]
  | cons a xs ih =>
    rcases skip with - | skip
    · rw [List.map_cons, sweep, sweep, hlook, List.length_map]
      split
      · rw [ih, List.map_cons]
      · exact ih 0
    · rw [List.map_cons, sweep, sweep, ih]

theorem look_eq (a : α) (xs : List α) :
    look time width a xs = a :: xs.takeWhile fun b => time b ≤ time a + width := by
  have hsame : (fun b => decide (time b - time a ≤ width)) =
      fun b => decide (time b ≤ time a + width) :=
    funext fun b => decide_eq_decide.2 (by omega)
  rw [look, hsame]

variable {xs : List α}

/-- After a burst the pointer is at the first record it did not see. -/
theorem sweep_burst {a : α} (h : need ≤ (look time width a xs).length) :
    sweep time width need 0 (a :: xs) = look time width a xs ::
      sweep time width need 0 (xs.dropWhile fun b => time b ≤ time a + width) := by
  rw [sweep, if_pos h, sweep_skip]
  have hrest : xs.drop ((look time width a xs).length - 1) =
      xs.dropWhile fun b => time b ≤ time a + width := by
    rw [look_eq, List.length_cons, Nat.add_sub_cancel]
    have hdrop := @List.drop_left α (xs.takeWhile fun b => time b ≤ time a + width)
      (xs.dropWhile fun b => time b ≤ time a + width)
    rwa [List.takeWhile_append_dropWhile] at hdrop
  rw [hrest]

theorem sweep_next {a : α} (h : ¬ need ≤ (look time width a xs).length) :
    sweep time width need 0 (a :: xs) = sweep time width need 0 xs := by
  rw [sweep, if_neg h]

/-- A record is in at most one burst. -/
theorem flatten_sweep (xs : List α) : (sweep time width need 0 xs).flatten.Sublist xs := by
  induction xs using sweep_induction time width need with
  | nil => exact List.Sublist.refl _
  | burst a xs h ih =>
    rw [sweep_burst h, List.flatten_cons, look_eq, List.cons_append]
    refine List.Sublist.cons_cons a ?_
    conv_rhs => rw [← @List.takeWhile_append_dropWhile α (fun b => time b ≤ time a + width) xs]
    exact (List.Sublist.refl _).append ih
  | next a xs h ih =>
    rw [sweep_next h]
    exact ih.cons a

theorem sublist_of_mem_sweep {xs burst : List α} (h : burst ∈ sweep time width need 0 xs) :
    burst.Sublist xs := (List.sublist_flatten_of_mem h).trans (flatten_sweep xs)

/-- A burst is one look of the pointer, with enough records. -/
theorem mem_sweep {xs burst : List α} (hburst : burst ∈ sweep time width need 0 xs) :
    ∃ a ys, burst = look time width a ys ∧ need ≤ burst.length := by
  induction xs using sweep_induction time width need with
  | nil => exact absurd hburst List.not_mem_nil
  | burst a xs h ih =>
    rw [sweep_burst h] at hburst
    rcases List.mem_cons.1 hburst with rfl | hburst
    · exact ⟨a, xs, rfl, h⟩
    · exact ih hburst
  | next a xs h ih =>
    rw [sweep_next h] at hburst
    exact ih hburst

theorem mem_look {a b : α} (hwidth : 0 ≤ width) (hb : b ∈ look time width a xs) :
    time b ≤ time a + width := by
  rw [look_eq] at hb
  rcases List.mem_cons.1 hb with rfl | hb
  · omega
  · simpa using List.mem_takeWhile_imp hb

/-- **Nothing that qualifies slips between the bursts.**  Of `need` records, any two
of them not more than `width` apart, one is in a burst. -/
theorem sweep_complete {xs few : List α} (hsorted : Sorted time xs) (hnodup : few.Nodup)
    (hfew : ∀ a ∈ few, a ∈ xs) (hneed : need ≤ few.length) (hne : few ≠ [])
    (hnear : ∀ a ∈ few, ∀ b ∈ few, time b - time a ≤ width) :
    ∃ burst ∈ sweep time width need 0 xs, ∃ a ∈ few, a ∈ burst := by
  induction xs using sweep_induction time width need with
  | nil =>
    obtain ⟨a, ha⟩ := List.exists_mem_of_ne_nil few hne
    exact absurd (hfew a ha) List.not_mem_nil
  | burst a xs h ih =>
    rw [sweep_burst h]
    by_cases hsome : ∃ b ∈ few, b ∈ look time width a xs
    · exact ⟨_, .head _, hsome⟩
    -- all of them are behind the burst
    have hrest : ∀ b ∈ few, b ∈ xs.dropWhile fun b => time b ≤ time a + width := by
      intro b hb
      have hmem := hfew b hb
      have hout : b ∉ look time width a xs := fun hin => hsome ⟨b, hb, hin⟩
      rw [look_eq, List.mem_cons, not_or] at hout
      have hxs := (List.mem_cons.1 hmem).resolve_left hout.1
      rw [← @List.takeWhile_append_dropWhile α (fun b => time b ≤ time a + width) xs] at hxs
      exact (List.mem_append.1 hxs).resolve_left hout.2
    obtain ⟨burst, hburst, hin⟩ :=
      ih ((List.pairwise_cons.1 hsorted).2.sublist (List.dropWhile_sublist _)) hrest
    exact ⟨burst, .tail _ hburst, hin⟩
  | next a xs h ih =>
    rw [sweep_next h]
    refine ih (List.pairwise_cons.1 hsorted).2 fun b hb => ?_
    refine (List.mem_cons.1 (hfew b hb)).resolve_left fun hba => h ?_
    -- if the pointer's own record is one of them, it sees them all
    subst hba
    refine hneed.trans (hnodup.subperm fun c hc => ?_).length_le
    rw [look_eq]
    rcases List.mem_cons.1 (hfew c hc) with rfl | hcx
    · exact .head _
    · refine .tail _ ?_
      rw [Sorted.takeWhile_eq (List.pairwise_cons.1 hsorted).2]
      have := hnear b hb c hc
      exact List.mem_filter.2 ⟨hcx, decide_eq_true (by omega)⟩

/-! ### Ties -/

theorem look_length (a : α) (hsorted : Sorted time xs) :
    (look time width a xs).length = (xs.filter fun b => time b ≤ time a + width).length + 1 := by
  rw [look_eq, List.length_cons, hsorted.takeWhile_eq]

/-- A pointer that sees too little passes all records of its own time. -/
theorem sweep_ties {a : α} (hsorted : Sorted time (a :: xs))
    (h : ¬ need ≤ (look time width a xs).length) :
    sweep time width need 0 (a :: xs) =
      sweep time width need 0 (xs.filter fun b => time a < time b) := by
  rw [sweep_next h]
  induction xs generalizing a with
  | nil => rfl
  | cons b xs ih =>
    obtain ⟨ha, hxs⟩ := List.pairwise_cons.1 hsorted
    rcases (ha b (.head _)).lt_or_eq with hlt | heq
    · have hall : (b :: xs).filter (fun c => time a < time c) = b :: xs := by
        refine List.filter_eq_self.2 fun c hc => decide_eq_true ?_
        rcases List.mem_cons.1 hc with rfl | hc
        · exact hlt
        · exact hlt.trans_le ((List.pairwise_cons.1 hxs).1 c hc)
      rw [hall]
    · -- the look from the next record of a tie is the same, less one
      have hless : ¬ need ≤ (look time width b xs).length := by
        refine fun hneed => h (hneed.trans ?_)
        rw [look_length b (List.pairwise_cons.1 hxs).2, look_length a hxs, heq]
        exact Nat.succ_le_succ ((List.sublist_cons_self b xs).filter _).length_le
      rw [sweep_next hless, ih hxs hless]
      rw [List.filter_cons_of_neg (by simp [heq]), heq]

/-- With the width not negative, a look is all there is up to its end. -/
theorem look_eq_filter {a : α} (hwidth : 0 ≤ width) (hsorted : Sorted time (a :: xs)) :
    look time width a xs = (a :: xs).filter fun b => time b ≤ time a + width := by
  rw [look_eq, Sorted.takeWhile_eq (List.pairwise_cons.1 hsorted).2,
    List.filter_cons_of_pos (by simpa using hwidth)]

/-- **The bursts do not depend on the order of ties.**  Sorted forms of one list have
the same bursts, up to the order inside each. -/
theorem sweep_perm {xs ys : List α} (hwidth : 0 ≤ width) (hxs : Sorted time xs)
    (hys : Sorted time ys) (h : xs.Perm ys) :
    List.Forall₂ List.Perm (sweep time width need 0 xs) (sweep time width need 0 ys) := by
  induction hn : xs.length using Nat.strong_induction_on generalizing xs ys with
  | h n ih =>
    subst hn
    rcases xs with - | ⟨a, xs⟩
    · rw [List.nil_perm.1 h]
      exact List.Forall₂.nil
    rcases ys with - | ⟨b, ys⟩
    · exact absurd h.symm (List.not_perm_nil_cons _ _)
    have hab := hxs.head_eq hys h
    have hseen : (look time width a xs).Perm (look time width b ys) := by
      rw [look_eq_filter hwidth hxs, look_eq_filter hwidth hys, hab]
      exact h.filter _
    obtain ⟨-, hxs'⟩ := List.pairwise_cons.1 hxs
    obtain ⟨-, hys'⟩ := List.pairwise_cons.1 hys
    by_cases hneed : need ≤ (look time width a xs).length
    · rw [sweep_burst hneed, sweep_burst (hneed.trans_eq hseen.length_eq)]
      refine List.Forall₂.cons hseen (ih _ ?_ ?_ ?_ ?_ rfl)
      · exact Nat.lt_succ_of_le (List.dropWhile_sublist _).length_le
      · exact hxs'.sublist (List.dropWhile_sublist _)
      · exact hys'.sublist (List.dropWhile_sublist _)
      · have hrest := h.filter fun c => decide (time a + width < time c)
        rw [List.filter_cons_of_neg (by simp [hwidth]),
          List.filter_cons_of_neg (by simp [hab, hwidth])] at hrest
        rw [Sorted.dropWhile_eq hxs', Sorted.dropWhile_eq hys', ← hab]
        exact hrest
    · rw [sweep_ties hxs hneed, sweep_ties hys (hseen.length_eq ▸ hneed)]
      have hrest := h.filter fun c => decide (time a < time c)
      rw [List.filter_cons_of_neg (by simp), List.filter_cons_of_neg (by simp [hab])] at hrest
      refine ih _ ?_ (hxs'.sublist List.filter_sublist) (hys'.sublist List.filter_sublist) ?_ rfl
      · exact Nat.lt_succ_of_le (List.length_filter_le _ _)
      · rw [← hab]
        exact hrest

end Sweep

end Kairon.Sweep

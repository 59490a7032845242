/-
Kairon/Lib/Sighting.lean

When a thing was last seen, and when it was first missed.

Several sources report on a thing; each has moments at which it saw it (`seen`) and moments
at which it looked and did not (`missed`).  `missedRun` goes over the sources in some order:
behind each one it asks for the first moment at which that source missed the thing since it
was last seen by any source so far (`missedSince`), and remembers the last answer it got.

The order of the sources is no matter, and the answer is a moment behind the last sighting, in
a source that did see the thing, exactly if the sources are `Settled` (`agree_iff`).  One
direction looks at three kinds of orders; the other follows any order up to the last source
that misses the thing.
-/
import Mathlib

namespace Kairon.Sighting

section Defs

variable {α : Type} (seen missed : α → List ℕ)

/-! ### The run -/

/-- The first moment at which the source missed the thing, behind the last of some moments. -/
def missedSince (a : α) (moments : List ℕ) : Option ℕ :=
  moments.max?.bind fun last => ((missed a).filter fun n => last < n).min?

/-- All sightings of some sources. -/
def sightings (sources : List α) : List ℕ := sources.flatMap seen

/-- The sources in their order, with the sightings so far and the last answer. -/
def missedRun : List ℕ → Option ℕ → List α → Option ℕ
  | _, answer, [] => answer
  | moments, answer, a :: sources =>
    missedRun (moments ++ seen a) ((missedSince missed a (moments ++ seen a)).or answer) sources

/-! ### What is promised -/

/-- The answer is a moment behind all sightings, at which a source missed the thing that had
seen it before. -/
structure Late (sources : List α) (n : ℕ) : Prop where
  behind : ∀ m ∈ sightings seen sources, m < n
  source : ∃ a ∈ sources, n ∈ missed a ∧ ∃ m ∈ seen a, m < n

/-- Every order of the sources gives one answer, and a late one. -/
def Agree (sources : List α) : Prop :=
  ∀ order : List α, order.Perm sources →
    missedRun seen missed [] none order = missedRun seen missed [] none sources ∧
      ∀ n, missedRun seen missed [] none order = some n → Late seen missed order n

/-- The sources that missed the thing behind the last sighting of all. -/
def missing (sources : List α) : List α :=
  sources.filter fun a => (missedSince missed a (sightings seen sources)).isSome

/-- No source misses the thing behind the last sighting of all, and none behind its own last
sighting and that of another. -/
def Unmissed (sources : List α) : Prop :=
  missing seen missed sources = [] ∧
    ∀ a ∈ sources, ∀ b ∈ sources, missedSince missed a (seen b ++ seen a) = none

/-- Those that miss it agree on the moment, also if only their own sightings count, and the
others do not miss it behind these and their own. -/
def MissedAt (sources : List α) (n : ℕ) : Prop :=
  missing seen missed sources ≠ [] ∧
    (∀ a ∈ missing seen missed sources, missedSince missed a (sightings seen sources) = some n ∧
      missedSince missed a (sightings seen (missing seen missed sources)) = some n) ∧
    ∀ a ∈ sources, a ∉ missing seen missed sources →
      missedSince missed a (sightings seen (missing seen missed sources) ++ seen a) = none

def Settled (sources : List α) : Prop :=
  Unmissed seen missed sources ∨ ∃ n, MissedAt seen missed sources n

end Defs

section Since

variable {α : Type} {seen missed : α → List ℕ} {a : α} {moments moments' : List ℕ} {n : ℕ}

theorem ne_nil_iff_exists_mem : moments ≠ [] ↔ ∃ m, m ∈ moments :=
  ⟨List.exists_mem_of_ne_nil _, fun ⟨_, hm⟩ => List.ne_nil_of_mem hm⟩

/-- The moments count by what is among them only. -/
theorem missedSince_eq_some : missedSince missed a moments = some n ↔ moments ≠ [] ∧
    n ∈ missed a ∧ (∀ m ∈ moments, m < n) ∧ ∀ k ∈ missed a, (∀ m ∈ moments, m < k) → n ≤ k := by
  rw [missedSince]
  rcases hmax : moments.max? with - | last
  · rw [List.max?_eq_none_iff] at hmax
    simp [hmax]
  · have hne : moments ≠ [] := by
      rintro rfl
      cases hmax
    rw [List.max?_eq_some_iff] at hmax
    have hlt : ∀ k, (∀ m ∈ moments, m < k) ↔ last < k := fun k =>
      ⟨fun h => h last hmax.1, fun h m hm => (hmax.2 m hm).trans_lt h⟩
    rw [Option.bind_some, List.min?_eq_some_iff]
    simp only [List.mem_filter, decide_eq_true_eq, hlt, and_imp]
    exact ⟨fun h => ⟨hne, h.1.1, h.1.2, h.2⟩, fun h => ⟨⟨h.2.1, h.2.2.1⟩, h.2.2.2⟩⟩

theorem missedSince_eq_none :
    missedSince missed a moments = none ↔ moments = [] ∨ ∀ k ∈ missed a, ∃ m ∈ moments, k ≤ m := by
  rw [missedSince]
  rcases hmax : moments.max? with - | last
  · rw [List.max?_eq_none_iff] at hmax
    simp [hmax]
  · have hne : moments ≠ [] := by
      rintro rfl
      cases hmax
    rw [List.max?_eq_some_iff] at hmax
    rw [Option.bind_some, List.min?_eq_none_iff, List.filter_eq_nil_iff, or_iff_right hne]
    refine forall₂_congr fun k _ => ?_
    rw [decide_eq_true_eq, not_lt]
    exact ⟨fun h => ⟨last, hmax.1, h⟩, fun ⟨m, hm, hk⟩ => hk.trans (hmax.2 m hm)⟩

theorem missedSince_congr (h : ∀ m, m ∈ moments ↔ m ∈ moments') :
    missedSince missed a moments = missedSince missed a moments' := by
  refine Option.ext fun n => ?_
  have hnil : moments ≠ [] ↔ moments' ≠ [] := by
    rw [ne_nil_iff_exists_mem, ne_nil_iff_exists_mem]
    exact exists_congr h
  rw [missedSince_eq_some, missedSince_eq_some, hnil]
  simp only [h]

theorem missedSince_twice :
    missedSince missed a (moments ++ moments) = missedSince missed a moments :=
  missedSince_congr fun m => by rw [List.mem_append, or_self]

/-- What is not missed behind some moments is not behind more. -/
theorem missedSince_mono (hne : moments ≠ []) (h : ∀ m ∈ moments, m ∈ moments')
    (hnone : missedSince missed a moments = none) : missedSince missed a moments' = none := by
  rw [missedSince_eq_none] at hnone ⊢
  refine .inr fun k hk => ?_
  obtain ⟨m, hm, hle⟩ := hnone.resolve_left hne k hk
  exact ⟨m, h m hm, hle⟩

/-- An answer that is the same for some moments and for more is the same between them. -/
theorem missedSince_between {moments'' : List ℕ} (h : ∀ m ∈ moments, m ∈ moments')
    (h' : ∀ m ∈ moments', m ∈ moments'') (hfew : missedSince missed a moments = some n)
    (hmany : missedSince missed a moments'' = some n) : missedSince missed a moments' = some n := by
  rw [missedSince_eq_some] at hfew hmany ⊢
  obtain ⟨hne, hmem, -, hleast⟩ := hfew
  refine ⟨fun hnil => ?_, hmem, fun m hm => hmany.2.2.1 m (h' m hm),
    fun k hk hlt => hleast k hk fun m hm => hlt m (h m hm)⟩
  obtain ⟨m, hm⟩ := List.exists_mem_of_ne_nil _ hne
  have hm' := h m hm
  rw [hnil] at hm'
  cases hm'

theorem sightings_append (sources more : List α) :
    sightings seen (sources ++ more) = sightings seen sources ++ sightings seen more :=
  List.flatMap_append

theorem mem_sightings {sources : List α} {m : ℕ} :
    m ∈ sightings seen sources ↔ ∃ a ∈ sources, m ∈ seen a := List.mem_flatMap

theorem sightings_subset {sources more : List α} (h : ∀ a ∈ sources, a ∈ more) :
    ∀ m ∈ sightings seen sources, m ∈ sightings seen more := by
  intro m hm
  obtain ⟨a, ha, hm⟩ := mem_sightings.mp hm
  exact mem_sightings.mpr ⟨a, h a ha, hm⟩

theorem mem_missing {sources : List α} : a ∈ missing seen missed sources ↔
    a ∈ sources ∧ missedSince missed a (sightings seen sources) ≠ none := by
  rw [missing, List.mem_filter, Option.isSome_iff_ne_none]

end Since

/-! ### Runs -/

section Runs

variable {α : Type} {seen missed : α → List ℕ} {moments : List ℕ} {answer : Option ℕ} {n : ℕ}

theorem missedRun_append (sources more : List α) :
    missedRun seen missed moments answer (sources ++ more) =
      missedRun seen missed (moments ++ sightings seen sources)
        (missedRun seen missed moments answer sources) more := by
  induction sources generalizing moments answer with
  | nil =>
    rw [List.nil_append, show sightings seen [] = [] from rfl, List.append_nil]
    rfl
  | cons a sources ih =>
    rw [List.cons_append, missedRun, ih, missedRun, List.append_assoc]
    rfl

variable {sources : List α}

/-- Where no source misses the thing, the answer stays. -/
theorem missedRun_quiet (h : ∀ a ∈ sources, ∀ before : List α, (∀ b ∈ before, b ∈ sources) →
      missedSince missed a (moments ++ (sightings seen before ++ seen a)) = none) :
    missedRun seen missed moments answer sources = answer := by
  induction sources generalizing moments with
  | nil => rfl
  | cons a sources ih =>
    have hhead := h a (.head _) [] (fun b hb => by cases hb)
    rw [missedRun, show moments ++ seen a = moments ++ (sightings seen [] ++ seen a) from rfl,
      hhead, Option.none_or]
    refine ih fun b hb before hbefore => ?_
    have htail := h b (.tail _ hb) (a :: before) fun c hc =>
      (List.mem_cons.mp hc).elim (fun hca => hca ▸ List.mem_cons_self)
        fun hc => .tail _ (hbefore c hc)
    rw [show sightings seen (a :: before) = seen a ++ sightings seen before from rfl,
      List.append_assoc] at htail
    rw [List.append_assoc]
    exact htail

/-- What no source saw, none misses. -/
theorem missedRun_unseen (h : sightings seen sources = []) :
    missedRun seen missed [] answer sources = answer := by
  refine missedRun_quiet fun a ha before hbefore => ?_
  have hnil : ∀ m, m ∉ sightings seen sources := fun m => h ▸ List.not_mem_nil
  refine missedSince_eq_none.mpr (.inl (List.eq_nil_iff_forall_not_mem.mpr fun m hm => ?_))
  rw [List.nil_append, List.mem_append] at hm
  refine hnil m (hm.elim (sightings_subset hbefore m) fun hm => ?_)
  exact mem_sightings.mpr ⟨a, ha, hm⟩

/-- Every answer was there at the beginning, or is a moment at which a source missed the thing
behind all that was seen up to it. -/
theorem missed_of_missedRun (h : missedRun seen missed moments answer sources = some n) :
    answer = some n ∨ ∃ a ∈ sources, n ∈ missed a := by
  induction sources generalizing moments answer with
  | nil => exact .inl h
  | cons a sources ih =>
    rcases ih h with h | ⟨b, hb, hn⟩
    · rcases Option.or_eq_some_iff.mp h with h | h
      · exact .inr ⟨a, .head _, (missedSince_eq_some.mp h).2.1⟩
      · exact .inl h.2
    · exact .inr ⟨b, .tail _ hb, hn⟩

/-- An answer is never forgotten. -/
theorem missedRun_ne_none (h : answer ≠ none) :
    missedRun seen missed moments answer sources ≠ none := by
  induction sources generalizing moments answer with
  | nil => exact h
  | cons a sources ih =>
    refine ih fun hnone => h ?_
    exact (Option.or_eq_none_iff.mp hnone).2

end Runs

/-! ### Settled sources -/

section Settled

variable {α : Type} {seen missed : α → List ℕ} {sources : List α} {n : ℕ}

variable {order : List α}

theorem missedSince_perm (h : order.Perm sources) (a : α) :
    missedSince missed a (sightings seen order) = missedSince missed a (sightings seen sources) :=
  missedSince_congr fun m => by simp only [mem_sightings, h.mem_iff]

theorem missing_perm (h : order.Perm sources) {a : α} :
    a ∈ missing seen missed order ↔ a ∈ missing seen missed sources := by
  rw [mem_missing, mem_missing, h.mem_iff, missedSince_perm h]

/-- Behind the answer of a source that misses the thing, the others change nothing. -/
theorem missedRun_rest {before rest : List α} {answer : Option ℕ}
    (hne : sightings seen (missing seen missed sources) ≠ [])
    (hbefore : ∀ a ∈ missing seen missed sources, a ∈ before)
    (hrest : ∀ a ∈ rest, missedSince missed a
      (sightings seen (missing seen missed sources) ++ seen a) = none) :
    missedRun seen missed (sightings seen before) answer rest = answer := by
  refine missedRun_quiet fun a ha more _ => missedSince_mono ?_ (fun m hm => ?_) (hrest a ha)
  · exact List.append_ne_nil_of_left_ne_nil hne _
  · rcases List.mem_append.mp hm with hm | hm
    · exact List.mem_append_left _ (sightings_subset hbefore m hm)
    · exact List.mem_append_right _ (List.mem_append_right _ hm)

theorem agree_of_unmissed (h : Unmissed seen missed sources) : Agree seen missed sources := by
  have hnone : ∀ order : List α, order.Perm sources →
      missedRun seen missed [] none order = none := by
    intro order horder
    refine missedRun_quiet fun a ha before hbefore => ?_
    rw [List.nil_append]
    have ha := horder.mem_iff.mp ha
    by_cases hseen : sightings seen before = []
    · rw [hseen, List.nil_append, ← missedSince_twice]
      exact h.2 a ha a ha
    · -- Some source before has seen the thing.
      obtain ⟨m, hm⟩ := List.exists_mem_of_ne_nil _ hseen
      obtain ⟨b, hb, hm⟩ := mem_sightings.mp hm
      refine missedSince_mono ?_ (fun k hk => ?_) (h.2 a ha b (horder.mem_iff.mp (hbefore b hb)))
      · exact List.append_ne_nil_of_left_ne_nil (List.ne_nil_of_mem hm) _
      · rcases List.mem_append.mp hk with hk | hk
        · exact List.mem_append_left _ (mem_sightings.mpr ⟨b, hb, hk⟩)
        · exact List.mem_append_right _ hk
  intro order horder
  rw [hnone order horder, hnone sources (List.Perm.refl _)]
  exact ⟨rfl, fun n h => by cases h⟩

/-- A list is split at the last of its elements that satisfies `P`. -/
theorem exists_last (P : α → Prop) [DecidablePred P] {l : List α} (h : ∃ a ∈ l, P a) :
    ∃ before a after, l = before ++ a :: after ∧ P a ∧ ∀ b ∈ after, ¬ P b := by
  induction l with
  | nil =>
    obtain ⟨a, ha, -⟩ := h
    cases ha
  | cons b l ih =>
    by_cases hl : ∃ a ∈ l, P a
    · obtain ⟨before, a, after, rfl, ha, hafter⟩ := ih hl
      exact ⟨b :: before, a, after, rfl, ha, hafter⟩
    · obtain ⟨a, ha, hP⟩ := h
      rcases List.mem_cons.mp ha with rfl | ha
      · exact ⟨[], a, l, rfl, hP, fun b hb hPb => hl ⟨b, hb, hPb⟩⟩
      · exact absurd ⟨a, ha, hP⟩ hl

theorem MissedAt.seen_ne (h : MissedAt seen missed sources n) :
    sightings seen (missing seen missed sources) ≠ [] := by
  obtain ⟨hne, hagree, -⟩ := h
  obtain ⟨a, ha⟩ := List.exists_mem_of_ne_nil _ hne
  exact (missedSince_eq_some.mp (hagree a ha).2).1

theorem run_of_missedAt [DecidableEq α] (h : MissedAt seen missed sources n)
    (horder : order.Perm sources) : missedRun seen missed [] none order = some n := by
  have hseen := h.seen_ne
  obtain ⟨hne, hagree, hothers⟩ := h
  obtain ⟨a, ha⟩ := List.exists_mem_of_ne_nil _ hne
  -- The order is followed up to the last source that misses the thing.
  obtain ⟨before, last, after, rfl, hlast, hafter⟩ :=
    exists_last (fun a => a ∈ missing seen missed sources)
      ⟨a, horder.mem_iff.mpr (mem_missing.mp ha).1, ha⟩
  have hall : ∀ b ∈ missing seen missed sources, b ∈ before ++ [last] := by
    intro b hb
    have hmem := horder.mem_iff.mpr (mem_missing.mp hb).1
    rw [List.mem_append, List.mem_cons] at hmem
    rw [List.mem_append, List.mem_singleton]
    exact hmem.imp_right fun hmem => hmem.resolve_right fun hb' => hafter b hb' hb
  have hanswer : missedSince missed last (sightings seen (before ++ [last])) = some n := by
    refine missedSince_between (sightings_subset hall) (fun m hm => ?_) (hagree last hlast).2
      (hagree last hlast).1
    obtain ⟨b, hb, hm⟩ := mem_sightings.mp hm
    refine mem_sightings.mpr ⟨b, horder.mem_iff.mp ?_, hm⟩
    rw [List.mem_append, List.mem_singleton] at hb
    rw [List.mem_append, List.mem_cons]
    exact hb.imp_right .inl
  have hstep : missedRun seen missed [] none (before ++ [last]) = some n := by
    rw [missedRun_append, missedRun, List.nil_append, missedRun]
    rw [sightings_append, show sightings seen [last] = seen last from List.append_nil _] at hanswer
    rw [hanswer, Option.some_or]
  rw [show before ++ last :: after = (before ++ [last]) ++ after by simp, missedRun_append, hstep,
    List.nil_append]
  refine missedRun_rest hseen hall fun b hb => hothers b ?_ (hafter b hb)
  exact horder.mem_iff.mp (List.mem_append_right _ (.tail _ hb))

theorem agree_of_missedAt [DecidableEq α] (h : MissedAt seen missed sources n) :
    Agree seen missed sources := by
  intro order horder
  rw [run_of_missedAt h horder, run_of_missedAt h (List.Perm.refl _)]
  refine ⟨rfl, fun k hk => ?_⟩
  cases hk
  obtain ⟨m, hm⟩ := List.exists_mem_of_ne_nil _ h.seen_ne
  obtain ⟨a, ha, hm⟩ := mem_sightings.mp hm
  have hsince := (h.2.1 a ha).1
  rw [← missedSince_perm horder, missedSince_eq_some] at hsince
  have ha := horder.mem_iff.mpr (mem_missing.mp ha).1
  exact ⟨hsince.2.2.1, a, ha, hsince.2.1, m, hm, hsince.2.2.1 m (mem_sightings.mpr ⟨a, ha, hm⟩)⟩

/-! ### What agreement asks for -/

/-- A moment behind all sightings at which a source misses the thing. -/
theorem mem_missing_of_behind {a : α} (ha : a ∈ sources) (hmem : n ∈ missed a)
    (hne : sightings seen sources ≠ []) (hbehind : ∀ m ∈ sightings seen sources, m < n) :
    a ∈ missing seen missed sources := by
  refine mem_missing.mpr ⟨ha, fun hnone => ?_⟩
  obtain ⟨m, hm, hle⟩ := (missedSince_eq_none.mp hnone).resolve_left hne n hmem
  exact absurd (hbehind m hm) hle.not_gt

theorem mem_missing_of_late (horder : order.Perm sources) (h : Late seen missed order n) :
    ∃ a ∈ missing seen missed sources, n ∈ missed a ∧ ∃ m, m ∈ seen a := by
  obtain ⟨hbehind, a, ha, hmem, m, hm, -⟩ := h
  have hne : sightings seen order ≠ [] := List.ne_nil_of_mem (mem_sightings.mpr ⟨a, ha, hm⟩)
  exact ⟨a, (missing_perm horder).mp (mem_missing_of_behind ha hmem hne hbehind), hmem, m, hm⟩

/-- The run up to a source that misses the thing has the answer of that source. -/
theorem missedRun_source {before : List α} {a : α}
    (h : missedSince missed a (sightings seen before ++ seen a) = some n) :
    missedRun seen missed [] none (before ++ [a]) = some n := by
  rw [missedRun_append, List.nil_append, missedRun, missedRun, h, Option.some_or]

/-- A source that misses the thing somewhere on the way leaves an answer. -/
theorem missing_of_source (before : List α) {after : List α} {a : α}
    (hagree : Agree seen missed sources) (horder : (before ++ a :: after).Perm sources)
    (h : missedSince missed a (sightings seen before ++ seen a) = some n) :
    missing seen missed sources ≠ [] := by
  have hsome : missedRun seen missed [] none (before ++ a :: after) ≠ none := by
    rw [show before ++ a :: after = (before ++ [a]) ++ after by simp, missedRun_append,
      missedRun_source h]
    exact missedRun_ne_none (by simp)
  obtain ⟨y, hy⟩ := Option.ne_none_iff_exists'.mp hsome
  obtain ⟨b, hb, -⟩ := mem_missing_of_late horder ((hagree _ horder).2 y hy)
  exact List.ne_nil_of_mem hb

theorem unmissed_of_agree [DecidableEq α] (hagree : Agree seen missed sources)
    (hnil : missing seen missed sources = []) : Unmissed seen missed sources := by
  refine ⟨hnil, fun a ha b hb => ?_⟩
  rcases hsince : missedSince missed a (seen b ++ seen a) with - | x
  · rfl
  · refine absurd hnil ?_
    by_cases hab : b = a
    · rw [hab, missedSince_twice] at hsince
      exact missing_of_source [] hagree (List.perm_cons_erase ha).symm hsince
    · -- The other source goes before this one.
      have hrest : (b :: a :: (sources.erase b).erase a).Perm sources := by
        have ha' : a ∈ sources.erase b := (List.mem_erase_of_ne (Ne.symm hab)).mpr ha
        exact ((List.perm_cons_erase ha').symm.cons b).trans (List.perm_cons_erase hb).symm
      refine missing_of_source [b] hagree hrest (n := x) ?_
      rw [show sightings seen [b] = seen b from List.append_nil _]
      exact hsince

/-- Where a source that misses the thing comes last, the answer is its own. -/
theorem run_source_last [DecidableEq α] {a : α} (ha : a ∈ sources)
    (h : missedSince missed a (sightings seen sources) = some n)
    (hagree : Agree seen missed sources) : missedRun seen missed [] none sources = some n := by
  have horder : (sources.erase a ++ [a]).Perm sources :=
    (List.perm_append_singleton a _).trans (List.perm_cons_erase ha).symm
  rw [← (hagree _ horder).1]
  refine missedRun_source ?_
  rw [← missedSince_perm horder, sightings_append,
    show sightings seen [a] = seen a from List.append_nil _] at h
  exact h

/-- The sources that miss the thing, and then the others. -/
theorem missing_append_perm : (missing seen missed sources ++ sources.filter fun a =>
      !(missedSince missed a (sightings seen sources)).isSome).Perm sources :=
  List.filter_append_perm _ _

theorem missedAt_of_agree [DecidableEq α] (hagree : Agree seen missed sources)
    (hne : missing seen missed sources ≠ []) : ∃ n, MissedAt seen missed sources n := by
  obtain ⟨a, ha⟩ := List.exists_mem_of_ne_nil _ hne
  obtain ⟨hmem, hsome⟩ := mem_missing.mp ha
  obtain ⟨n, hn⟩ := Option.ne_none_iff_exists'.mp hsome
  have hrun := run_source_last hmem hn hagree
  have hfinal : ∀ order : List α, order.Perm sources →
      missedRun seen missed [] none order = some n := fun order horder =>
    (hagree order horder).1.trans hrun
  have hlate := (hagree sources (List.Perm.refl _)).2 n hrun
  obtain ⟨b, hb, -, m, hm⟩ := mem_missing_of_late (List.Perm.refl _) hlate
  have hseen : sightings seen (missing seen missed sources) ≠ [] :=
    List.ne_nil_of_mem (mem_sightings.mpr ⟨b, hb, hm⟩)
  have hsub : ∀ c ∈ missing seen missed sources, c ∈ sources := fun c hc => (mem_missing.mp hc).1
  have hall : sightings seen sources ≠ [] := by
    obtain ⟨m, hm⟩ := List.exists_mem_of_ne_nil _ hseen
    exact List.ne_nil_of_mem (sightings_subset hsub m hm)
  set others := sources.filter fun a => !(missedSince missed a (sightings seen sources)).isSome
    with hothers
  have hmissing_others : ∀ c ∈ others, c ∉ missing seen missed sources := by
    intro c hc hc'
    rw [hothers, List.mem_filter, Bool.not_eq_true', Option.isSome_eq_false_iff,
      Option.isNone_iff_eq_none] at hc
    exact (mem_missing.mp hc').2 hc.2
  have hquiet : ∀ c ∈ sources, c ∉ missing seen missed sources →
      missedSince missed c (sightings seen (missing seen missed sources) ++ seen c) = none := by
    intro c hc hc'
    rcases hsince : missedSince missed c
      (sightings seen (missing seen missed sources) ++ seen c) with - | x
    · rfl
    -- Behind the sources that miss the thing, this one leaves an answer that none of them gave.
    have hc_others : c ∈ others := by
      rw [hothers, List.mem_filter, Bool.not_eq_true', Option.isSome_eq_false_iff,
        Option.isNone_iff_eq_none]
      refine ⟨hc, ?_⟩
      by_contra hsome
      exact hc' (mem_missing.mpr ⟨hc, hsome⟩)
    have horder : (missing seen missed sources ++ c :: others.erase c).Perm sources :=
      ((List.perm_cons_erase hc_others).symm.append_left _).trans missing_append_perm
    have hend := hfinal _ horder
    rw [show missing seen missed sources ++ c :: others.erase c =
      (missing seen missed sources ++ [c]) ++ others.erase c by simp, missedRun_append,
      missedRun_source hsince] at hend
    have hfrom : ∃ d ∈ others, n ∈ missed d := by
      rcases missed_of_missedRun hend with hx | ⟨d, hd, hn⟩
      · cases hx
        exact ⟨c, hc_others, (missedSince_eq_some.mp hsince).2.1⟩
      · exact ⟨d, List.mem_of_mem_erase hd, hn⟩
    obtain ⟨d, hd, hn⟩ := hfrom
    exact absurd (mem_missing_of_behind (List.mem_of_mem_filter hd) hn hall hlate.behind)
      (hmissing_others d hd)
  refine ⟨n, hne, fun c hc => ?_, hquiet⟩
  obtain ⟨hc_mem, hc_some⟩ := mem_missing.mp hc
  obtain ⟨k, hk⟩ := Option.ne_none_iff_exists'.mp hc_some
  have hkn : k = n := Option.some.inj ((run_source_last hc_mem hk hagree).symm.trans hrun)
  subst hkn
  refine ⟨hk, ?_⟩
  -- Of the sources that miss the thing this one comes last, and the others change nothing.
  have hperm : ((missing seen missed sources).erase c ++ [c]).Perm (missing seen missed sources) :=
    (List.perm_append_singleton c _).trans (List.perm_cons_erase hc).symm
  have hx : missedSince missed c (sightings seen (missing seen missed sources)) ≠ none :=
    fun hnone => hc_some (missedSince_mono hseen (sightings_subset hsub) hnone)
  obtain ⟨x, hx⟩ := Option.ne_none_iff_exists'.mp hx
  have hend := hfinal _ ((hperm.append_right others).trans missing_append_perm)
  rw [missedRun_append, List.nil_append, missedRun_rest hseen (fun d hd => hperm.mem_iff.mpr hd)
    fun d hd => hquiet d (List.mem_of_mem_filter hd) (hmissing_others d hd)] at hend
  rw [← missedSince_perm hperm, sightings_append,
    show sightings seen [c] = seen c from List.append_nil _] at hx ⊢
  rw [missedRun_source hx] at hend
  exact hx.trans hend

theorem agree_of_unseen (h : sightings seen sources = []) : Agree seen missed sources := by
  intro order horder
  have horder_nil : sightings seen order = [] := by
    refine List.eq_nil_iff_forall_not_mem.mpr fun m hm => ?_
    have hmem := sightings_subset (fun a => horder.mem_iff.mp) m hm
    rw [h] at hmem
    cases hmem
  rw [missedRun_unseen horder_nil, missedRun_unseen h]
  exact ⟨rfl, fun n hn => by cases hn⟩

/-- **The order of the sources is no matter, and the answer is late, exactly if they are
settled.** -/
theorem agree_iff [DecidableEq α] : Agree seen missed sources ↔ Settled seen missed sources := by
  refine ⟨fun hagree => ?_, ?_⟩
  · by_cases hnil : missing seen missed sources = []
    · exact .inl (unmissed_of_agree hagree hnil)
    · exact .inr (missedAt_of_agree hagree hnil)
  · rintro (h | ⟨n, h⟩)
    · exact agree_of_unmissed h
    · exact agree_of_missedAt h

end Settled

end Kairon.Sighting

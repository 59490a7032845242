/-
Kairon/Lib/Worklist.lean

Searches that keep what is still to be visited.

A search has what it has seen and what waits.  A visit takes one that waits, and
whatever is next to it and not seen yet is seen now and waits too; in which order
is left open, so that queues and stacks are both meant (`Visit`).

`Search` is what holds at any moment of a search.  At its end nothing waits, and
what is seen is what was seen at the start and whatever is reached from what
waited at the start without entering what was seen (`Search.seen_iff`).
-/
import Mathlib

namespace Kairon.Worklist

variable {α : Type} (next : α → Set α)

/-- A step into what is not in a set. -/
def Enters (known : Set α) (x y : α) : Prop := y ∈ next x ∧ y ∉ known

/-- One visit. -/
structure Visit (seen waiting seen' waiting' : Set α) (cur : α) : Prop where
  waits : cur ∈ waiting
  seen_eq : seen' = seen ∪ next cur
  kept : ∀ x ∈ waiting, x = cur ∨ x ∈ waiting'
  queued : ∀ x ∈ next cur, x ∉ seen → x ∈ waiting'
  origin : ∀ x ∈ waiting', x ∈ waiting ∨ x ∈ next cur ∧ x ∉ seen

/-- What holds of a search that started with `known` and `start`. -/
structure Search (known start seen waiting : Set α) : Prop where
  grows : known ⊆ seen
  sound : ∀ x ∈ seen, x ∈ known ∨ ∃ q ∈ start, Relation.TransGen (Enters next known) q x
  reached : ∀ x ∈ waiting, ∃ q ∈ start, Relation.ReflTransGen (Enters next known) q x
  closed : ∀ x, x ∈ start ∨ x ∈ seen ∧ x ∉ known → x ∈ waiting ∨ next x ⊆ seen

variable {next} {known start seen waiting seen' waiting' : Set α} {cur : α}

theorem search_start : Search next known start known start where
  grows := Set.Subset.rfl
  sound := fun x hx => .inl hx
  reached := fun x hx => ⟨x, hx, Relation.ReflTransGen.refl⟩
  closed := by
    rintro x (hx | ⟨hx, hnot⟩)
    · exact .inl hx
    · exact absurd hx hnot

theorem Search.visit (h : Search next known start seen waiting)
    (hvisit : Visit next seen waiting seen' waiting' cur) :
    Search next known start seen' waiting' := by
  obtain ⟨first, hfirst, hcur⟩ := h.reached cur hvisit.waits
  have hstep : ∀ x ∈ next cur, x ∉ seen → Relation.TransGen (Enters next known) first x :=
    fun x hx hnew => Relation.TransGen.tail' hcur ⟨hx, fun hknown => hnew (h.grows hknown)⟩
  have hmore : seen ⊆ seen' := hvisit.seen_eq ▸ Set.subset_union_left
  refine ⟨h.grows.trans hmore, ?_, ?_, ?_⟩
  · intro x hx
    by_cases hseen : x ∈ seen
    · exact h.sound x hseen
    rw [hvisit.seen_eq] at hx
    exact .inr ⟨first, hfirst, hstep x (hx.resolve_left hseen) hseen⟩
  · intro x hx
    rcases hvisit.origin x hx with hx | ⟨hx, hnew⟩
    · exact h.reached x hx
    · exact ⟨first, hfirst, (hstep x hx hnew).to_reflTransGen⟩
  · intro x hx
    -- a visited element has what is next to it in the set, whatever else happens
    have hold : x ∈ start ∨ x ∈ seen ∧ x ∉ known → x ∈ waiting' ∨ next x ⊆ seen' := by
      intro hx
      rcases h.closed x hx with hwaits | hsub
      · rcases hvisit.kept x hwaits with rfl | hwaits
        · exact .inr (hvisit.seen_eq ▸ Set.subset_union_right)
        · exact .inl hwaits
      · exact .inr (hsub.trans hmore)
    rcases hx with hx | ⟨hx, hnot⟩
    · exact hold (.inl hx)
    by_cases hseen : x ∈ seen
    · exact hold (.inr ⟨hseen, hnot⟩)
    rw [hvisit.seen_eq] at hx
    exact .inl (hvisit.queued x (hx.resolve_left hseen) hseen)

/-- **What a search has seen at its end.** -/
theorem Search.seen_iff (h : Search next known start seen ∅) (x : α) :
    x ∈ seen ↔ x ∈ known ∨ ∃ q ∈ start, Relation.TransGen (Enters next known) q x := by
  constructor
  · exact h.sound x
  · rintro (hx | ⟨q, hq, hpath⟩)
    · exact h.grows hx
    have hnone : ∀ y, y ∈ start ∨ y ∈ seen ∧ y ∉ known → next y ⊆ seen := by
      intro y hy
      exact (h.closed y hy).resolve_left (Set.notMem_empty y)
    induction hpath with
    | single hstep => exact hnone q (.inl hq) hstep.1
    | @tail y z hpath hstep ih =>
      have hnew : y ∉ known := by
        rcases hpath with hfirst | ⟨-, hlast⟩
        · exact hfirst.2
        · exact hlast.2
      exact hnone y (.inr ⟨ih, hnew⟩) hstep.1

/-- What is left of a row is less with one more of it taken. -/
theorem left_cons_lt [BEq α] [LawfulBEq α] {row taken : List α} {x : α} (hx : x ∈ row)
    (hnew : x ∉ taken) : (row.filter fun y => y ∉ x :: taken).length <
      (row.filter fun y => y ∉ taken).length := by
  have hsub : (row.filter fun y => y ∉ x :: taken).Sublist (row.filter fun y => y ∉ taken) := by
    refine List.monotone_filter_right _ fun y hy => ?_
    rw [decide_eq_true_eq] at hy ⊢
    exact fun hmem => hy (.tail _ hmem)
  refine lt_of_le_of_ne hsub.length_le fun heq => ?_
  have hmem : x ∈ row.filter fun y => y ∉ x :: taken := by
    rw [hsub.eq_of_length heq]
    exact List.mem_filter.2 ⟨hx, decide_eq_true hnew⟩
  exact of_decide_eq_true (List.mem_filter.1 hmem).2 (.head _)

end Kairon.Worklist

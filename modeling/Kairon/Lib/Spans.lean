/-
Kairon/Lib/Spans.lean

Spans of time one behind the other, some of them perhaps without an end.

To find out whether some span begins by a point and ends late enough, it is enough to look at the
one that begins last by that point: the others that begin by it have ended by its beginning
(`exists_iff_lastStarted`).  "Late enough" is any property of ends that later ends have as well.
-/
import Kairon.Lib.Bisect

namespace Kairon.Spans

variable {α : Type} [LinearOrder α]

/-- A beginning, and an end unless it is open. -/
abbrev Span (α : Type) := α × Option α

/-- Every span but the last has an end, by which the later ones have not begun. -/
structure Ordered (spans : List (Span α)) : Prop where
  behind : spans.Pairwise fun a b => ∃ stop, a.2 = some stop ∧ stop ≤ b.1
  forward : ∀ a ∈ spans, ∀ stop, a.2 = some stop → a.1 ≤ stop

/-- The span that begins last by `x`, found by bisection on the beginnings. -/
def lastStarted (spans : List (Span α)) (x : α) : Option (Span α) :=
  match Bisect.bisectRight (spans.map Prod.fst) x with
  | 0 => none
  | n + 1 => spans[n]?

section

variable {spans : List (Span α)}

theorem mem_of_lastStarted {x : α} {a : Span α} (h : lastStarted spans x = some a) : a ∈ spans := by
  rw [lastStarted] at h
  split at h
  · cases h
  · exact List.mem_of_getElem? h

theorem Ordered.start_le (h : Ordered spans) : spans.Pairwise fun a b => a.1 ≤ b.1 := by
  refine h.behind.imp_of_mem fun ha _ hab => ?_
  obtain ⟨stop, hstop, hle⟩ := hab
  exact (h.forward _ ha stop hstop).trans hle

theorem ordered_nil : Ordered ([] : List (Span α)) :=
  ⟨List.Pairwise.nil, fun a ha => by cases ha⟩

/-- A further span comes behind the ends of all others. -/
theorem ordered_concat {a : Span α} : Ordered (spans ++ [a]) ↔ Ordered spans ∧
      (∀ b ∈ spans, ∃ stop, b.2 = some stop ∧ stop ≤ a.1) ∧
      ∀ stop, a.2 = some stop → a.1 ≤ stop := by
  constructor
  · rintro ⟨hbehind, hforward⟩
    obtain ⟨hspans, -, hlast⟩ := List.pairwise_append.1 hbehind
    refine ⟨⟨hspans, fun b hb => hforward b (List.mem_append_left _ hb)⟩, fun b hb => ?_, ?_⟩
    · exact hlast b hb a (List.mem_singleton.2 rfl)
    · exact hforward a (List.mem_append_right _ (List.mem_singleton.2 rfl))
  · rintro ⟨⟨hbehind, hforward⟩, hlast, hself⟩
    refine ⟨List.pairwise_append.2 ⟨hbehind, List.pairwise_singleton _ a, fun b hb c hc => ?_⟩,
      fun b hb => ?_⟩
    · rw [List.mem_singleton.1 hc]
      exact hlast b hb
    · obtain hb | hb := List.mem_append.1 hb
      · exact hforward b hb
      · rw [List.mem_singleton.1 hb]
        exact hself

/-- The point at which bisection splits the spans. -/
theorem Ordered.exists_split (h : Ordered spans) (x : α) :
    ∃ p ≤ spans.length, Bisect.bisectRight (spans.map Prod.fst) x = p ∧
      (∀ i a, i < p → spans[i]? = some a → a.1 ≤ x) ∧
      ∀ i a, p ≤ i → spans[i]? = some a → x < a.1 := by
  have hsorted : (spans.map Prod.fst).Pairwise (· ≤ ·) := List.pairwise_map.2 h.start_le
  obtain ⟨p, hp, hbefore, hbehind⟩ := Bisect.exists_split
    (f := fun i => ((spans.map Prod.fst)[i]?).getD x) (n := spans.length)
    (by
      intro i j hij hj
      have hj' : j < (spans.map Prod.fst).length := by rw [List.length_map]; exact hj
      simp only [List.getElem?_eq_getElem hj', List.getElem?_eq_getElem (hij.trans_lt hj'),
        Option.getD_some]
      obtain hlt | rfl := hij.lt_or_eq
      · exact List.pairwise_iff_getElem.1 hsorted i j _ _ hlt
      · exact le_rfl) x
  have hget : ∀ (i : ℕ) (a : Span α), spans[i]? = some a →
      ((spans.map Prod.fst)[i]?).getD x = a.1 := by
    intro i a ha
    rw [List.getElem?_map, ha]
    rfl
  have hbefore' : ∀ (i : ℕ) (a : Span α), i < p → spans[i]? = some a → a.1 ≤ x := fun i a hi ha =>
    hget i a ha ▸ hbefore i hi
  have hbehind' : ∀ (i : ℕ) (a : Span α), p ≤ i → spans[i]? = some a → x < a.1 := fun i a hi ha =>
    hget i a ha ▸ hbehind i hi (List.getElem?_eq_some_iff.1 ha).1
  refine ⟨p, hp, Bisect.bisectRight_eq ⟨by rw [List.length_map]; exact hp, ?_, ?_⟩, hbefore',
    hbehind'⟩
  · intro i y hi hy
    rw [List.getElem?_map, Option.map_eq_some_iff] at hy
    obtain ⟨a, ha, rfl⟩ := hy
    exact hbefore' i a hi ha
  · intro i y hi hy
    rw [List.getElem?_map, Option.map_eq_some_iff] at hy
    obtain ⟨a, ha, rfl⟩ := hy
    exact hbehind' i a hi ha

/-- A span that begins by `x` and ends late enough exists exactly if the one that begins last by
`x` ends late enough. -/
theorem Ordered.exists_iff_lastStarted (h : Ordered spans) {P : α → Prop}
    (hP : ∀ s t, s ≤ t → P s → P t) (x : α) :
    (∃ a ∈ spans, a.1 ≤ x ∧ ∀ stop, a.2 = some stop → P stop) ↔
      ∃ a, lastStarted spans x = some a ∧ ∀ stop, a.2 = some stop → P stop := by
  obtain ⟨p, hp, hbisect, hbefore, hbehind⟩ := h.exists_split x
  rw [lastStarted, hbisect]
  constructor
  · rintro ⟨a, hmem, hstart, hend⟩
    obtain ⟨i, hi⟩ := List.mem_iff_getElem?.1 hmem
    have hip : i < p := by
      by_contra hge
      exact absurd hstart (not_le.2 (hbehind i a (not_lt.1 hge) hi))
    rcases p with - | n
    · exact absurd hip (Nat.not_lt_zero i)
    have hn : n < spans.length := hp
    have hlast : spans[n]? = some spans[n] := List.getElem?_eq_getElem hn
    refine ⟨spans[n], hlast, fun stop hstop => ?_⟩
    obtain hlt | rfl := (Nat.lt_succ_iff.1 hip).lt_or_eq
    · -- an earlier span has ended by the beginning of the last one
      obtain ⟨hi', rfl⟩ := List.getElem?_eq_some_iff.1 hi
      obtain ⟨stop', hstop', hle⟩ := List.pairwise_iff_getElem.1 h.behind i n hi' hn hlt
      have hforward := h.forward _ (List.getElem_mem hn) stop hstop
      exact hP stop' stop (hle.trans hforward) (hend stop' hstop')
    · rw [hlast, Option.some.injEq] at hi
      subst hi
      exact hend stop hstop
  · rintro ⟨a, ha, hend⟩
    rcases p with - | n
    · cases ha
    · exact ⟨a, List.mem_of_getElem? ha, hbefore n a (Nat.lt_succ_self n) ha, hend⟩

end

end Kairon.Spans

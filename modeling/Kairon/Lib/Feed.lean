/-
Kairon/Lib/Feed.lean

A list that is used up in order by the items of another.

`feed` is the loop: an item that is the next one expected is taken, any other is
passed over.  Nothing is left exactly when the expected items come in order.
-/
import Mathlib

namespace Kairon

variable {α : Type} [DecidableEq α]

/-- What is left of the expected items after one item. -/
def feedOne (expected : List α) (item : α) : List α :=
  if expected.head? = some item then expected.tail else expected

/-- What is left of the expected items after some. -/
def feed (expected : List α) (items : List α) : List α := items.foldl feedOne expected

theorem feed_eq_nil_iff (expected items : List α) :
    feed expected items = [] ↔ expected.Sublist items := by
  induction items generalizing expected with
  | nil => exact List.sublist_nil.symm
  | cons item items ih =>
    show feed (feedOne expected item) items = [] ↔ _
    rw [ih]
    rcases expected with - | ⟨first, expected⟩
    · simp [feedOne]
    by_cases h : first = item
    · -- the item is the one expected
      subst h
      rw [feedOne, List.head?_cons, if_pos rfl, List.tail_cons]
      exact List.cons_sublist_cons.symm
    · rw [feedOne, List.head?_cons, if_neg fun heq => h (Option.some.inj heq)]
      constructor
      · exact fun hsub => hsub.trans (List.sublist_cons_self item items)
      · intro hsub
        rcases List.sublist_cons_iff.1 hsub with hsub | ⟨rest, heq, -⟩
        · exact hsub
        · exact absurd (List.cons.inj heq).1 h

end Kairon

/-
Kairon/Lib/Trace.lean

Runs of a system that takes one event after the other.

`run step s events` is the state after the events.  What is said of a run is said
of its moments: `Always P` of every state that it goes through, `Meets ok` of every
event together with the state it is taken in, and `Keeps R` of every two states of
which the second comes later.  The rules `always_of_step` and `keeps_of_step` lead
each of them back to a single step.
-/
import Mathlib

namespace Kairon.Trace

variable {State Event : Type} (step : State → Event → State)

/-- The state after a list of events. -/
def run (s : State) (events : List Event) : State := events.foldl step s

@[simp] theorem run_nil (s : State) : run step s [] = s := rfl

@[simp] theorem run_cons (s : State) (e : Event) (events : List Event) :
    run step s (e :: events) = run step (step s e) events := rfl

theorem run_append (s : State) (first second : List Event) :
    run step s (first ++ second) = run step (run step s first) second :=
  List.foldl_append

/-- The property holds in every state of the run. -/
def Always (P : State → Prop) (s : State) (events : List Event) : Prop :=
  ∀ before after, events = before ++ after → P (run step s before)

/-- Every event of the run is taken in a state in which it may be. -/
def Meets (ok : State → Event → Prop) (s : State) (events : List Event) : Prop :=
  ∀ before e after, events = before ++ e :: after → ok (run step s before) e

/-- The relation holds between every state of the run and every later one. -/
def Keeps (R : State → State → Prop) (s : State) (events : List Event) : Prop :=
  ∀ before between after, events = before ++ between ++ after →
    R (run step s before) (run step s (before ++ between))

variable {step} {ok ok' : State → Event → Prop} {P : State → Prop} {R : State → State → Prop}
variable {s : State} {e : Event} {events : List Event}

theorem meets_nil : Meets step ok s [] := by
  intro before e after h
  exact absurd h.symm (List.append_ne_nil_of_right_ne_nil _ (List.cons_ne_nil _ _))

theorem meets_cons : Meets step ok s (e :: events) ↔ ok s e ∧ Meets step ok (step s e) events := by
  refine ⟨fun h => ⟨h [] e events rfl, fun before e' after heq => ?_⟩, fun h => ?_⟩
  · exact h (e :: before) e' after (congrArg (e :: ·) heq)
  · rintro (- | ⟨first, before⟩) e' after heq
    · obtain ⟨rfl, rfl⟩ := List.cons.inj heq
      exact h.1
    · obtain ⟨rfl, hrest⟩ := List.cons.inj heq
      exact h.2 before e' after hrest

theorem Meets.mono (h : Meets step ok s events) (hmono : ∀ s e, ok s e → ok' s e) :
    Meets step ok' s events := fun before e after heq => hmono _ _ (h before e after heq)

/-- The events of a run up to some moment and those after it. -/
theorem meets_append {first second : List Event} : Meets step ok s (first ++ second) ↔
      Meets step ok s first ∧ Meets step ok (run step s first) second := by
  induction first generalizing s with
  | nil => exact ⟨fun h => ⟨meets_nil, h⟩, fun h => h.2⟩
  | cons e first ih =>
    show Meets step ok s (e :: (first ++ second)) ↔ _
    rw [meets_cons, meets_cons, ih, and_assoc]
    rfl

/-- The induction behind the other rules: the invariant is carried to the end of the run. -/
theorem run_of_step (hstep : ∀ s e, P s → ok s e → P (step s e)) (hs : P s)
    (h : Meets step ok s events) : P (run step s events) := by
  induction events generalizing s with
  | nil => exact hs
  | cons e events ih =>
    obtain ⟨hfirst, hrest⟩ := meets_cons.1 h
    exact ih (hstep s e hs hfirst) hrest

/-- **An invariant of the steps that may be taken holds throughout.** -/
theorem always_of_step (hstep : ∀ s e, P s → ok s e → P (step s e)) (hs : P s)
    (h : Meets step ok s events) : Always step P s events := by
  rintro before after rfl
  exact run_of_step hstep hs (meets_append.1 h).1

theorem Always.mono {Q : State → Prop} (h : Always step P s events) (hmono : ∀ s, P s → Q s) :
    Always step Q s events := fun before after heq => hmono _ (h before after heq)

/-- **A relation that every step keeps holds between any two moments.** -/
theorem keeps_of_step (hrefl : ∀ s, R s s) (htrans : ∀ a b c, R a b → R b c → R a c)
    (hstep : ∀ s e, ok s e → R s (step s e)) (h : Meets step ok s events) :
    Keeps step R s events := by
  rintro before between after rfl
  rw [run_append]
  refine run_of_step (P := R (run step s before)) ?_ (hrefl _)
    (meets_append.1 (meets_append.1 h).1).2
  exact fun b e hab hok => htrans _ _ _ hab (hstep b e hok)

end Kairon.Trace

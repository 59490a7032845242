/-
Kairon/Lib/Tally.lean

A counter that its users increment by reading it and writing the sum back.

A user reads the counter, goes on with something else and writes what it has read plus
one; between the two, others write.  An increment is lost where a write does not find
the value that its user has read.  `value_eq_written_iff` says that the counter shows
the number of writes exactly if no increment has been lost: an overlap is never made
good by a later one, since the counter never exceeds the number of writes and a value
that was read when it fell short cannot lead back to it.
-/
import Kairon.Lib.Trace

namespace Kairon

/-- The counter, what each user has read and not yet written back, and the number of
writes so far. -/
structure Tally (ι : Type) where
  value : ℕ
  held : ι → Option ℕ
  written : ℕ

namespace Tally

inductive Act (ι : Type)
  | read (i : ι)
  | write (i : ι)

variable {ι : Type} [DecidableEq ι]

def step (t : Tally ι) : Act ι → Tally ι
  | .read i => { t with held := Function.update t.held i (some t.value) }
  | .write i => match t.held i with
    | none => t
    | some value =>
      { value := value + 1, held := Function.update t.held i none, written := t.written + 1 }

/-- A write finds the value that its user has read. -/
def Fresh (t : Tally ι) : Act ι → Prop
  | .read _ => True
  | .write i => ∀ value, t.held i = some value → value = t.value

/-- The counter shows no more than the writes; and what was read when it showed all of
them is still there if no write has come since. -/
structure Bounded (t : Tally ι) : Prop where
  value : t.value ≤ t.written
  held : ∀ i value, t.held i = some value → value ≤ t.written
  last : ∀ i value, t.held i = some value → value = t.written → t.value = value

variable {t : Tally ι}

theorem write_eq {i : ι} {value : ℕ} (h : t.held i = some value) : t.step (.write i) =
      { value := value + 1, held := Function.update t.held i none, written := t.written + 1 } := by
  rw [step, h]

theorem write_eq_self {i : ι} (h : t.held i = none) : t.step (.write i) = t := by
  rw [step, h]

theorem bounded_step (h : t.Bounded) (act : Act ι) : (t.step act).Bounded := by
  cases act with
  | read i =>
    -- what is read is the value of the counter
    have hread : ∀ j value, Function.update t.held i (some t.value) j = some value →
        value = t.value ∨ t.held j = some value := by
      intro j value hj
      by_cases hji : j = i
      · rw [hji, Function.update_self] at hj
        exact .inl (Option.some.inj hj).symm
      · rw [Function.update_of_ne hji] at hj
        exact .inr hj
    refine ⟨h.value, fun j value hj => ?_, fun j value hj hlast => ?_⟩
    · rcases hread j value hj with rfl | hheld
      · exact h.value
      · exact h.held j value hheld
    · rcases hread j value hj with rfl | hheld
      · rfl
      · exact h.last j value hheld hlast
  | write i =>
    rcases hi : t.held i with - | value
    · rwa [write_eq_self hi]
    · rw [write_eq hi]
      have hold : ∀ j other, Function.update t.held i none j = some other → other ≤ t.written := by
        intro j other hj
        by_cases hji : j = i
        · rw [hji, Function.update_self] at hj
          cases hj
        · rw [Function.update_of_ne hji] at hj
          exact h.held j other hj
      refine ⟨Nat.succ_le_succ (h.held i value hi), fun j other hj => ?_,
        fun j other hj hlast => ?_⟩
      · exact (hold j other hj).trans (Nat.le_succ _)
      · -- what others hold was read before this write
        have hle := hold j other hj
        dsimp only at hlast
        omega

/-- **A step keeps the counter complete exactly if it was complete and loses nothing.** -/
theorem complete_step_iff (h : t.Bounded) (act : Act ι) :
    (t.step act).value = (t.step act).written ↔ t.value = t.written ∧ t.Fresh act := by
  cases act with
  | read i => exact ⟨fun heq => ⟨heq, trivial⟩, fun heq => heq.1⟩
  | write i =>
    rcases hi : t.held i with - | value
    · rw [write_eq_self hi]
      refine ⟨fun heq => ⟨heq, fun value hheld => ?_⟩, fun heq => heq.1⟩
      rw [hi] at hheld
      cases hheld
    · rw [write_eq hi]
      refine ⟨fun heq => ?_, fun heq => ?_⟩
      · have hlast : value = t.written := Nat.succ.inj heq
        have hvalue := h.last i value hi hlast
        refine ⟨hvalue.trans hlast, fun other hother => ?_⟩
        obtain rfl := Option.some.inj (hi.symm.trans hother)
        exact hvalue.symm
      · show value + 1 = t.written + 1
        rw [heq.2 value hi, heq.1]

theorem bounded_run (h : t.Bounded) (acts : List (Act ι)) : (Trace.run step t acts).Bounded :=
  Trace.run_of_step (fun _ act hb (_ : True) => bounded_step hb act) h
    fun _ _ _ _ => trivial

/-- **The counter shows all writes exactly if each found what its user had read.** -/
theorem value_eq_written_iff (h : t.Bounded) (hcomplete : t.value = t.written)
    (acts : List (Act ι)) :
    (Trace.run step t acts).value = (Trace.run step t acts).written ↔
      Trace.Meets step Fresh t acts := by
  -- what was lost at some moment is still missing at the end
  have hall : ∀ (acts : List (Act ι)) {t : Tally ι}, t.Bounded →
      ((Trace.run step t acts).value = (Trace.run step t acts).written ↔
        t.value = t.written ∧ Trace.Meets step Fresh t acts) := by
    intro acts
    induction acts with
    | nil => exact fun _ => ⟨fun heq => ⟨heq, Trace.meets_nil⟩, fun heq => heq.1⟩
    | cons act acts ih =>
      intro t hb
      rw [Trace.run_cons, ih (bounded_step hb act), complete_step_iff hb, Trace.meets_cons,
        and_assoc]
  exact (hall acts h).trans (and_iff_right hcomplete)

end Tally

end Kairon

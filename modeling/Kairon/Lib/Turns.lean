/-
Kairon/Lib/Turns.lean

Loops that may not end.

A turn of a loop gives the next state or the result; `run` makes so many
turns and has no result yet where they are too few.  `Reached` is what a
loop comes to.  `run_of_reached` and `run_reached` say that running from a
state is running from whatever it comes to, `exists_last` that a result is
the result of a turn.  A loop ends if something falls with every turn
(`run_of_falls`), and never does where every turn it comes to has a next one
(`run_never`).
-/
import Mathlib.Logic.Relation
import Mathlib.Data.Nat.Init

namespace Kairon.Turns

variable {σ ρ : Type} (turn : σ → σ ⊕ ρ)

def run : ℕ → σ → Option ρ
  | 0, _ => none
  | fuel + 1, s =>
    match turn s with
    | .inl next => run fuel next
    | .inr result => some result

/-- What the loop comes to. -/
def Reached : σ → σ → Prop := Relation.ReflTransGen fun s next => turn s = .inl next

variable {turn} {s next : σ} {result other : ρ} {fuel more : ℕ}

theorem run_next (h : turn s = .inl next) : run turn (fuel + 1) s = run turn fuel next := by
  rw [run, h]

theorem run_last (h : turn s = .inr result) : run turn (fuel + 1) s = some result := by
  rw [run, h]

/-- More turns do not change a result. -/
theorem run_mono (h : run turn fuel s = some result) (hle : fuel ≤ more) :
    run turn more s = some result := by
  induction fuel generalizing s more with
  | zero => exact absurd h nofun
  | succ fuel ih =>
    obtain ⟨more, rfl⟩ : ∃ k, more = k + 1 := ⟨more - 1, by omega⟩
    rcases hturn : turn s with next | last
    · rw [run_next hturn] at h ⊢
      exact ih h (by omega)
    · rw [run_last hturn] at h ⊢
      exact h

theorem run_unique (h : run turn fuel s = some result) (h' : run turn more s = some other) :
    result = other := by
  have hmax := run_mono h (Nat.le_max_left fuel more)
  have hmax' := run_mono h' (Nat.le_max_right fuel more)
  exact Option.some.inj (hmax.symm.trans hmax')

/-- A result is found again from where the loop comes to. -/
theorem run_reached (h : Reached turn s next) (hrun : run turn fuel s = some result) :
    ∃ more, run turn more next = some result := by
  induction h with
  | refl => exact ⟨fuel, hrun⟩
  | tail _ hturn ih =>
    obtain ⟨more, hmore⟩ := ih
    rcases more with - | more
    · exact absurd hmore nofun
    · rw [run_next hturn] at hmore
      exact ⟨more, hmore⟩

theorem run_of_reached (h : Reached turn s next) (hrun : run turn fuel next = some result) :
    ∃ more, run turn more s = some result := by
  induction h using Relation.ReflTransGen.head_induction_on with
  | refl => exact ⟨fuel, hrun⟩
  | head hturn _ ih =>
    obtain ⟨more, hmore⟩ := ih
    exact ⟨more + 1, (run_next hturn).trans hmore⟩

/-- A result is the result of a turn. -/
theorem exists_last (h : run turn fuel s = some result) :
    ∃ last, Reached turn s last ∧ turn last = .inr result := by
  induction fuel generalizing s with
  | zero => exact absurd h nofun
  | succ fuel ih =>
    rcases hturn : turn s with next | last
    · rw [run_next hturn] at h
      obtain ⟨last, hreached, hlast⟩ := ih h
      exact ⟨last, hreached.head hturn, hlast⟩
    · rw [run_last hturn] at h
      exact ⟨s, Relation.ReflTransGen.refl, hturn.trans (congrArg Sum.inr (Option.some.inj h))⟩

/-- What every turn keeps holds of all the loop comes to. -/
theorem Reached.keeps {P : σ → Prop} (hstep : ∀ s next, P s → turn s = .inl next → P next)
    (h : Reached turn s next) (hs : P s) : P next := by
  induction h with
  | refl => exact hs
  | tail _ hturn ih => exact hstep _ _ ih hturn

/-- A loop in which something falls with every turn ends. -/
theorem run_of_falls {P : σ → Prop} (rank : σ → ℕ)
    (hstep : ∀ s next, P s → turn s = .inl next → P next ∧ rank next < rank s) (hs : P s) :
    ∃ fuel result, run turn fuel s = some result := by
  induction hn : rank s using Nat.strong_induction_on generalizing s with
  | h n ih =>
    subst hn
    rcases hturn : turn s with next | last
    · obtain ⟨hnext, hfalls⟩ := hstep s next hs hturn
      obtain ⟨fuel, result, hrun⟩ := ih _ hfalls hnext rfl
      exact ⟨fuel + 1, result, (run_next hturn).trans hrun⟩
    · exact ⟨1, last, run_last hturn⟩

/-- A loop whose turns all have a next one does not end. -/
theorem run_never {P : σ → Prop} (hstep : ∀ s, P s → ∃ next, turn s = .inl next ∧ P next)
    (hs : P s) (fuel : ℕ) : run turn fuel s = none := by
  induction fuel generalizing s with
  | zero => rfl
  | succ fuel ih =>
    obtain ⟨next, hturn, hnext⟩ := hstep s hs
    rw [run_next hturn]
    exact ih hnext

end Kairon.Turns

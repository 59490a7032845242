/-
Kairon/Sigma/Precedence.lean

What the stack evaluator makes of a condition.

`evaluateTokens` is `_to_rpn` and the stack machine behind it.  The machine is followed in
`Lib/Shunting`; the names of a shape are given values by two selections, one that matches
and one that does not.
-/
import Kairon.Lib.Shunting
import Kairon.Sigma.Evaluate

namespace Kairon.Sigma

open Search (Text)
open Rpn

/-- `_to_rpn` of the tokens, and the stack machine on its result. -/
def evaluateTokens (verdict : Text → Verdict) (tokens : List (Tok Text)) :
    Except SigmaError Verdict :=
  match toRpn tokens with
  | none => .error .valueError
  | some rpn => eval verdictAlgebra .indexError .valueError (fun name => .ok (verdict name)) rpn

/-- The tokens of a condition evaluate to its value. -/
def EvaluatesTo (c : Cond Text .sum) : Prop :=
  ∀ verdict : Text → Verdict, (evaluateTokens verdict c.tokens).map Verdict.matched =
    .ok (c.value boolAlgebra fun name => (verdict name).matched)

theorem evaluateTokens_eq (c : Cond Text .sum) (verdict : Text → Verdict) :
    (evaluateTokens verdict c.tokens).map Verdict.matched =
      if c.lead = 0 then .ok (c.reading boolAlgebra fun name => (verdict name).matched)
      else .error .indexError := by
  rw [evaluateTokens, toRpn_tokens]
  dsimp only
  rw [← eval_map hom_matched]
  exact eval_code c

/-- **A condition is evaluated right, whatever its names are, exactly if it is
straight.** -/
theorem evaluatesTo_iff_straight (c : Cond Text .sum) :
    (∀ d : Cond Text .sum, d.shape = c.shape → EvaluatesTo d) ↔ c.Straight := by
  constructor
  · intro h
    have hlead : c.lead = 0 := by
      by_contra hlead
      have hvalue := h c rfl fun _ => ⟨false, [], []⟩
      rw [evaluateTokens_eq, if_neg hlead] at hvalue
      cases hvalue
    refine (Cond.straight_iff c).2 ⟨hlead, fun d hshape => ?_⟩
    -- Two names are enough: one selection matches, the other one does not.
    have hnames : (d.map fun b => if b then ['t'] else ['f']).shape = c.shape := by
      rw [Cond.shape_map, hshape]
    have hvalue := h _ hnames fun name => ⟨name = ['t'], [], []⟩
    rw [evaluateTokens_eq, if_pos (by rw [Cond.lead_eq_of_shape hnames, hlead]),
      Cond.reading_map, Cond.value_map] at hvalue
    have htruth : (fun b : Bool => decide ((if b then ['t'] else ['f']) = ['t'])) = id := by
      decide
    have hread := Except.ok.inj hvalue
    dsimp only at hread
    rwa [htruth] at hread
  · intro h d hshape verdict
    have hd := h.of_shape hshape
    rw [evaluateTokens_eq, if_pos hd.lead, hd.reading_eq]

/-- `not not a`. -/
def doubleNegation : Cond Text .sum := .term (.factor (.nots 2 (.name ['a'])))

/-- There is nothing for the first negation to act on. -/
theorem doubleNegation_raises : ¬ EvaluatesTo doubleNegation := by
  intro h
  have hvalue := h fun _ => ⟨true, [], []⟩
  rw [evaluateTokens_eq] at hvalue
  cases hvalue

example : evaluateTokens (fun name => ⟨name = ['a'], [], []⟩)
    [.name ['a'], .op .and, .op .not, .op .not, .name ['a']] = .ok ⟨false, [], []⟩ := rfl

end Kairon.Sigma

/-
Kairon/Lib/Rpn.lean

Boolean expressions in reverse Polish notation: the shunting-yard conversion
of a token row, and the stack machine that evaluates its result.

The conversion checks parentheses only.  Whether the machine comes to an end
depends on nothing but the number of values on its stack (`depth`): it
succeeds exactly when that number never falls short of what an operator needs,
is one at the end, and every operand has a value (`eval_ok_iff`).  The values
can be anything with the three connectives; a map of values that respects them
can be applied before or after the evaluation (`eval_map`).
-/
import Mathlib.Data.List.Basic

namespace Kairon.Rpn

/-- The connectives. -/
inductive Op
  | or | and | not
  deriving DecidableEq

def Op.precedence : Op → ℕ
  | .or => 1
  | .and => 2
  | .not => 3

/-- A token of an expression over names. -/
inductive Tok (α : Type)
  | lparen
  | rparen
  | op (o : Op)
  | name (a : α)

/-- A step of the stack machine. -/
inductive Item (α : Type)
  | op (o : Op)
  | name (a : α)
  deriving DecidableEq

/-! ### The conversion -/

section Convert

variable {α : Type}

/-- What waits on the operator stack: an open parenthesis or a connective. -/
abbrev Pending := Option Op

/-- Pops down to the last open parenthesis. -/
def closeParen : List Pending → List (Item α) → Option (List Pending × List (Item α))
  | [], _ => none
  | none :: stack, output => some (stack, output)
  | some o :: stack, output => closeParen stack (output ++ [.op o])

/-- Pops the connectives that bind at least as tightly as `o`. -/
def popTighter (o : Op) : List Pending → List (Item α) → List Pending × List (Item α)
  | some o' :: stack, output =>
    if o'.precedence ≥ o.precedence then popTighter o stack (output ++ [.op o'])
    else (some o' :: stack, output)
  | stack, output => (stack, output)

/-- Pops what is left. -/
def popAll : List Pending → List (Item α) → Option (List (Item α))
  | [], output => some output
  | none :: _, _ => none
  | some o :: stack, output => popAll stack (output ++ [.op o])

def convert : List (Tok α) → List Pending → List (Item α) → Option (List (Item α))
  | [], stack, output => popAll stack output
  | .lparen :: ts, stack, output => convert ts (none :: stack) output
  | .rparen :: ts, stack, output =>
    match closeParen stack output with
    | some (stack, output) => convert ts stack output
    | none => none
  | .op o :: ts, stack, output =>
    convert ts (some o :: (popTighter o stack output).1) (popTighter o stack output).2
  | .name a :: ts, stack, output => convert ts stack (output ++ [.name a])

/-- The row in reverse Polish notation; `none` for unbalanced parentheses. -/
def toRpn (ts : List (Tok α)) : Option (List (Item α)) := convert ts [] []

end Convert

/-! ### The machine -/

/-- Values with the three connectives. -/
structure Algebra (V : Type) where
  neg : V → V
  conj : V → V → V
  disj : V → V → V

/-- The truth values. -/
def boolAlgebra : Algebra Bool := ⟨not, and, or⟩

section Machine

variable {α V ε : Type}

/-- One step; the right operand is on top. -/
def step (alg : Algebra V) (underflow : ε) (operand : α → Except ε V) :
    Item α → List V → Except ε (List V)
  | .op .not, v :: stack => .ok (alg.neg v :: stack)
  | .op .and, right :: left :: stack => .ok (alg.conj left right :: stack)
  | .op .or, right :: left :: stack => .ok (alg.disj left right :: stack)
  | .op _, _ => .error underflow
  | .name a, stack => do
      let v ← operand a
      pure (v :: stack)

def run (alg : Algebra V) (underflow : ε) (operand : α → Except ε V) :
    List (Item α) → List V → Except ε (List V)
  | [], stack => .ok stack
  | i :: is, stack => do
      let stack ← step alg underflow operand i stack
      run alg underflow operand is stack

/-- The value of a row: the only one that is left. -/
def eval (alg : Algebra V) (underflow leftover : ε) (operand : α → Except ε V)
    (is : List (Item α)) : Except ε V := do
  match ← run alg underflow operand is [] with
  | [v] => pure v
  | _ => .error leftover

/-- The number of values on the stack after a row; `none` where it falls
short. -/
def depth : List (Item α) → ℕ → Option ℕ
  | [], n => some n
  | .name _ :: is, n => depth is (n + 1)
  | .op .not :: is, n => if 1 ≤ n then depth is n else none
  | .op _ :: is, n => if 2 ≤ n then depth is (n - 1) else none

/-- The operands of a row. -/
def names : List (Item α) → List α
  | [] => []
  | .name a :: is => a :: names is
  | .op _ :: is => names is

variable {alg : Algebra V} {underflow leftover : ε} {operand : α → Except ε V}

/-- A row runs through exactly when the stack suffices and its operands have
values. -/
theorem run_ok_iff (is : List (Item α)) (stack : List V) (n : ℕ) :
    (∃ s, run alg underflow operand is stack = .ok s ∧ s.length = n) ↔
      depth is stack.length = some n ∧ ∀ a ∈ names is, ∃ v, operand a = .ok v := by
  induction is generalizing stack with
  | nil => simp [run, depth, names]
  | cons i is ih =>
    cases i with
    | name a =>
      cases hv : operand a with
      | error e => simp [run, step, names, hv, bind, Except.bind]
      | ok v =>
        have h := ih (v :: stack)
        simpa [run, step, depth, names, hv, bind, Except.bind, pure, Except.pure] using h
    | op o =>
      cases o with
      | not =>
        obtain - | ⟨v, stack⟩ := stack
        · simp [run, step, depth, bind, Except.bind]
        · have h := ih (alg.neg v :: stack)
          simpa [run, step, depth, names, bind, Except.bind] using h
      | and =>
        obtain - | ⟨v, - | ⟨w, stack⟩⟩ := stack
        · simp [run, step, depth, bind, Except.bind]
        · simp [run, step, depth, bind, Except.bind]
        · have h := ih (alg.conj w v :: stack)
          simpa [run, step, depth, names, bind, Except.bind] using h
      | or =>
        obtain - | ⟨v, - | ⟨w, stack⟩⟩ := stack
        · simp [run, step, depth, bind, Except.bind]
        · simp [run, step, depth, bind, Except.bind]
        · have h := ih (alg.disj w v :: stack)
          simpa [run, step, depth, names, bind, Except.bind] using h

theorem eval_ok_iff (is : List (Item α)) : (∃ v, eval alg underflow leftover operand is = .ok v) ↔
      depth is 0 = some 1 ∧ ∀ a ∈ names is, ∃ v, operand a = .ok v := by
  have h : (∃ s, run alg underflow operand is [] = .ok s ∧ s.length = 1) ↔
      depth is 0 = some 1 ∧ ∀ a ∈ names is, ∃ v, operand a = .ok v := run_ok_iff is [] 1
  rw [← h, eval]
  cases hr : run alg underflow operand is [] with
  | error e => simp [bind, Except.bind]
  | ok s =>
    obtain - | ⟨v, - | ⟨w, s⟩⟩ := s
    · simp [bind, Except.bind]
    · simp [bind, Except.bind, pure, Except.pure]
    · simp [bind, Except.bind]

variable {operand' : α → Except ε V}

/-- Only the operands of the row matter. -/
theorem run_congr (is : List (Item α)) (stack : List V)
    (h : ∀ a ∈ names is, operand a = operand' a) :
    run alg underflow operand is stack = run alg underflow operand' is stack := by
  induction is generalizing stack with
  | nil => rfl
  | cons i is ih =>
    have hstep : step alg underflow operand i stack = step alg underflow operand' i stack := by
      cases i with
      | name a => rw [step, step, h a (by simp [names])]
      | op o =>
        -- connectives do not look at the operands
        cases o <;> obtain - | ⟨v, - | ⟨w, stack⟩⟩ := stack <;> rfl
    have htail : ∀ a ∈ names is, operand a = operand' a := by
      intro a ha
      cases i with
      | name b => exact h a (by simp [names, ha])
      | op o => exact h a (by simpa [names] using ha)
    rw [run, run, hstep]
    cases step alg underflow operand' i stack with
    | error e => rfl
    | ok stack' => exact ih stack' htail

theorem eval_congr {is : List (Item α)} (h : ∀ a ∈ names is, operand a = operand' a) :
    eval alg underflow leftover operand is = eval alg underflow leftover operand' is := by
  rw [eval, eval, run_congr is [] h]

/-- A map of values that respects the connectives. -/
structure Hom {W : Type} (alg : Algebra V) (alg' : Algebra W) (f : V → W) : Prop where
  neg : ∀ v, f (alg.neg v) = alg'.neg (f v)
  conj : ∀ v w, f (alg.conj v w) = alg'.conj (f v) (f w)
  disj : ∀ v w, f (alg.disj v w) = alg'.disj (f v) (f w)

section Map

variable {W : Type} {alg' : Algebra W} {f : V → W}

theorem run_map (hf : Hom alg alg' f) (is : List (Item α)) (stack : List V) :
    run alg' underflow (fun a => (operand a).map f) is (stack.map f) =
      (run alg underflow operand is stack).map (List.map f) := by
  induction is generalizing stack with
  | nil => rfl
  | cons i is ih =>
    have hstep : step alg' underflow (fun a => (operand a).map f) i (stack.map f) =
        (step alg underflow operand i stack).map (List.map f) := by
      cases i with
      | name a =>
        simp only [step]
        cases operand a with
        | error e => rfl
        | ok v => rfl
      | op o =>
        cases o with
        | not =>
          obtain - | ⟨v, stack⟩ := stack
          · rfl
          · simp [step, Except.map, hf.neg]
        | and =>
          obtain - | ⟨v, - | ⟨w, stack⟩⟩ := stack
          · rfl
          · rfl
          · simp [step, Except.map, hf.conj]
        | or =>
          obtain - | ⟨v, - | ⟨w, stack⟩⟩ := stack
          · rfl
          · rfl
          · simp [step, Except.map, hf.disj]
    rw [run, run, hstep]
    cases step alg underflow operand i stack with
    | error e => rfl
    | ok stack' => exact ih stack'

theorem eval_map (hf : Hom alg alg' f) (is : List (Item α)) :
    eval alg' underflow leftover (fun a => (operand a).map f) is =
      (eval alg underflow leftover operand is).map f := by
  have h : run alg' underflow (fun a => (operand a).map f) is [] =
      (run alg underflow operand is []).map (List.map f) := run_map hf is []
  rw [eval, eval, h]
  cases run alg underflow operand is [] with
  | error e => rfl
  | ok s =>
    obtain - | ⟨v, - | ⟨w, s⟩⟩ := s
    · rfl
    · rfl
    · rfl

end Map

/-! ### Rows without negation -/

end Machine

end Kairon.Rpn

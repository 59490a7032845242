/-
Kairon/Lib/Prog.lean

Programs over atomic operations.

A request handler touches shared state only through a handful of atomic
operations (read the row, commit the row, take a lock, rename a file).
`Prog` is the tree of those operations: a node performs one operation and
continues with its response, a leaf returns or raises.  Writing the handler
once as a `Prog` gives both readings of it:

* run alone, `Prog.wp` is the weakest precondition over every choice the
  environment can make (clock, failures);
* run beside others, one operation at a time is executed, and
  `Kairon.Lib.Interleave` gives the rule for invariants.

Both are instances of one predicate transformer, `Prog.walk`, that is told
what a single operation asks for; its rules for `bind`, `followedBy`
(Python's `try: .. finally: ..`) and `handle` (`except`) are proved once.
-/
import Mathlib.Logic.Relation
import Mathlib.Tactic.Common

namespace Concur

universe u v w

/-- A program over the operations `Op`, answered in `Resp`, that returns an
`α` or raises an `ε`. -/
inductive Prog (Op : Type u) (Resp : Op → Type v) (ε : Type w) (α : Type v)
  | ret (a : α)
  | raise (e : ε)
  | op (o : Op) (k : Resp o → Prog Op Resp ε α)

namespace Prog

variable {Op : Type u} {Resp : Op → Type v} {ε : Type w} {α β : Type v}

/-- Sequencing: a raised error skips the rest. -/
def bind : Prog Op Resp ε α → (α → Prog Op Resp ε β) → Prog Op Resp ε β
  | ret a, f => f a
  | raise e, _ => raise e
  | op o k, f => op o fun r => (k r).bind f

instance : Monad (Prog Op Resp ε) where
  pure := ret
  bind := bind

/-- A single operation. -/
def perform (o : Op) : Prog Op Resp ε (Resp o) := op o ret

/-- `try: p finally: fin` with a `fin` that does not raise by itself. -/
def followedBy {γ : Type v} : Prog Op Resp ε α → Prog Op Resp ε γ → Prog Op Resp ε α
  | ret a, fin => fin.bind fun _ => ret a
  | raise e, fin => fin.bind fun _ => raise e
  | op o k, fin => op o fun r => (k r).followedBy fin

/-- `try: p except e: h e`. -/
def handle {δ : Type w} : Prog Op Resp ε α → (ε → Prog Op Resp δ α) → Prog Op Resp δ α
  | ret a, _ => ret a
  | raise e, h => h e
  | op o k, h => op o fun r => (k r).handle h

end Prog

/-! ### Walking a program -/

section Walk

variable {Op : Type u} {Resp : Op → Type v} {ε δ : Type w} {α β γ : Type v}
variable {State : Type*}

namespace Prog

/-- Walk over a program from state `s`: `T o K s` says what executing `o` in
`s` asks for when its continuation is known to satisfy `K`, and `Q` is asked
of the outcome. -/
def walk (T : (o : Op) → (Resp o → State → Prop) → State → Prop)
    (Q : Except ε α → State → Prop) : Prog Op Resp ε α → State → Prop
  | ret a, s => Q (.ok a) s
  | raise e, s => Q (.error e) s
  | op o k, s => T o (fun r s' => (k r).walk T Q s') s

variable {T : (o : Op) → (Resp o → State → Prop) → State → Prop}

@[simp] theorem walk_ret (Q : Except ε α → State → Prop) (a : α) (s : State) :
    (ret a : Prog Op Resp ε α).walk T Q s ↔ Q (.ok a) s := Iff.rfl

@[simp] theorem walk_raise (Q : Except ε α → State → Prop) (e : ε) (s : State) :
    (raise e : Prog Op Resp ε α).walk T Q s ↔ Q (.error e) s := Iff.rfl

/-- The postcondition of a bind: continue after a return, pass an error on. -/
def bindPost (T : (o : Op) → (Resp o → State → Prop) → State → Prop)
    (f : α → Prog Op Resp ε β) (Q : Except ε β → State → Prop) :
    Except ε α → State → Prop
  | .ok a, s => (f a).walk T Q s
  | .error e, s => Q (.error e) s

theorem walk_bind (p : Prog Op Resp ε α) (f : α → Prog Op Resp ε β)
    (Q : Except ε β → State → Prop) (s : State) :
    (p >>= f).walk T Q s ↔ p.walk T (bindPost T f Q) s := by
  change (p.bind f).walk T Q s ↔ _
  induction p generalizing s with
  | ret a => rfl
  | raise e => rfl
  | op o k ih =>
    have hk : (fun r s' => ((k r).bind f).walk T Q s')
        = fun r s' => (k r).walk T (bindPost T f Q) s' := by
      funext r s'
      exact propext (ih r s')
    change T o _ s ↔ T o _ s
    rw [hk]

/-- The postcondition of a `finally` block: the outcome survives it, unless
the block itself raises. -/
def finallyPost (T : (o : Op) → (Resp o → State → Prop) → State → Prop)
    (fin : Prog Op Resp ε γ) (Q : Except ε α → State → Prop) :
    Except ε α → State → Prop := fun r s =>
  fin.walk T (fun r' s' => match r' with
    | .ok _ => Q r s'
    | .error e => Q (.error e) s') s

theorem walk_followedBy (p : Prog Op Resp ε α) (fin : Prog Op Resp ε γ)
    (Q : Except ε α → State → Prop) (s : State) :
    (p.followedBy fin).walk T Q s ↔ p.walk T (finallyPost T fin Q) s := by
  induction p generalizing s with
  | ret a =>
    change (fin >>= fun _ => ret a).walk T Q s ↔ _
    rw [walk_bind]
    simp only [walk_ret, finallyPost]
    exact iff_of_eq (congrArg (fun R => fin.walk T R s)
      (by funext r' s'; cases r' <;> rfl))
  | raise e =>
    change (fin >>= fun _ => (raise e : Prog Op Resp ε α)).walk T Q s ↔ _
    rw [walk_bind]
    simp only [walk_raise, finallyPost]
    exact iff_of_eq (congrArg (fun R => fin.walk T R s)
      (by funext r' s'; cases r' <;> rfl))
  | op o k ih =>
    have hk : (fun r s' => ((k r).followedBy fin).walk T Q s')
        = fun r s' => (k r).walk T (finallyPost T fin Q) s' := by
      funext r s'
      exact propext (ih r s')
    change T o _ s ↔ T o _ s
    rw [hk]

/-- The postcondition under an `except`: errors go to the handler. -/
def handlePost (T : (o : Op) → (Resp o → State → Prop) → State → Prop)
    (h : ε → Prog Op Resp δ α) (Q : Except δ α → State → Prop) :
    Except ε α → State → Prop
  | .ok a, s => Q (.ok a) s
  | .error e, s => (h e).walk T Q s

theorem walk_handle (p : Prog Op Resp ε α) (h : ε → Prog Op Resp δ α)
    (Q : Except δ α → State → Prop) (s : State) :
    (p.handle h).walk T Q s ↔ p.walk T (handlePost T h Q) s := by
  induction p generalizing s with
  | ret a => rfl
  | raise e => rfl
  | op o k ih =>
    have hk : (fun r s' => ((k r).handle h).walk T Q s')
        = fun r s' => (k r).walk T (handlePost T h Q) s' := by
      funext r s'
      exact propext (ih r s')
    change T o _ s ↔ T o _ s
    rw [hk]

theorem walk_mono (hT : ∀ o (K K' : Resp o → State → Prop) s,
      (∀ r s', K r s' → K' r s') → T o K s → T o K' s)
    {Q Q' : Except ε α → State → Prop} (hQ : ∀ r s, Q r s → Q' r s)
    (p : Prog Op Resp ε α) (s : State) (h : p.walk T Q s) : p.walk T Q' s := by
  induction p generalizing s with
  | ret a | raise e => exact hQ _ _ h
  | op o k ih => exact hT o _ _ s (fun r s' => ih r s') h

end Prog

end Walk

/-! ### Running alone -/

/-- What the operations do: the effect of an operation of process `t` under
the environment's choice, and what is cleaned up after a dead process. -/
structure Machine (Op : Type u) (Resp : Op → Type v) (Env State : Type*) where
  exec : ℕ → (o : Op) → Env → State → State × Resp o
  reap : ℕ → State → State

section Alone

variable {Op : Type u} {Resp : Op → Type v} {ε : Type w} {α : Type v}
variable {Env State : Type*}
variable (M : Machine Op Resp Env State) (t : ℕ) (A : Env → Prop)

/-- Executing `o` alone: the continuation must hold for every choice of the
environment that `A` admits. -/
def Machine.alone (o : Op) (K : Resp o → State → Prop) (s : State) : Prop :=
  ∀ e, A e → K (M.exec t o e s).2 (M.exec t o e s).1

/-- Weakest precondition of a program run alone as process `t`. -/
def Prog.wp (Q : Except ε α → State → Prop) (p : Prog Op Resp ε α) (s : State) : Prop :=
  p.walk (M.alone t A) Q s

variable {Q Q' : Except ε α → State → Prop}

variable {p : Prog Op Resp ε α}

theorem Prog.wp_mono (hQ : ∀ r s, Q r s → Q' r s) {s : State} (h : p.wp M t A Q s) : p.wp M t A Q' s
    :=
  Prog.walk_mono (fun _ _ _ _ hK ho e he => hK _ _ (ho e he)) hQ p s h

theorem Prog.wp_perform {β : Type v} {Q : Except ε β → State → Prop} {o : Op}
    {f : Resp o → Prog Op Resp ε β} {s : State}
    (h : ∀ e, A e → (f (M.exec t o e s).2).wp M t A Q (M.exec t o e s).1) :
    ((Prog.perform o : Prog Op Resp ε (Resp o)) >>= f).wp M t A Q s := h

variable {Q : Except ε α → State → Prop}

theorem Prog.wp_ite {c : Prop} [Decidable c]
    {p q : Prog Op Resp ε α} {s : State} (hp : c → p.wp M t A Q s)
    (hq : ¬c → q.wp M t A Q s) : (if c then p else q).wp M t A Q s := by
  split
  · next h => exact hp h
  · next h => exact hq h

theorem Prog.wp_bind {β : Type v} {Q : Except ε β → State → Prop}
    {f : α → Prog Op Resp ε β} {s : State}
    (h : p.wp M t A (Prog.bindPost (M.alone t A) f Q) s) : (p >>= f).wp M t A Q s :=
  (Prog.walk_bind p f Q s).mpr h

theorem Prog.wp_and {s : State} (h : p.wp M t A Q s) (h' : p.wp M t A Q' s) :
    p.wp M t A (fun r s' => Q r s' ∧ Q' r s') s := by
  induction p generalizing s with
  | ret a => exact ⟨h, h'⟩
  | raise e => exact ⟨h, h'⟩
  | op o k ih => exact fun e he => ih _ (h e he) (h' e he)

/-- Fewer choices of the environment ask for less. -/
theorem Prog.wp_weaken {A A' : Env → Prop} (hA : ∀ e, A' e → A e) (p : Prog Op Resp ε α) {s : State}
    (h : p.wp M t A Q s) : p.wp M t A' Q s := by
  induction p generalizing s with
  | ret a => exact h
  | raise e => exact h
  | op o k ih => exact fun e he => ih _ (h e (hA e he))

/-- A program always has some run, so two postconditions of it are met
together by some outcome. -/
theorem Prog.exists_of_wp {e₀ : Env} (h₀ : A e₀)
    (p : Prog Op Resp ε α) (s : State) (h : p.wp M t A Q s) (h' : p.wp M t A Q' s) :
    ∃ r s', Q r s' ∧ Q' r s' := by
  induction p generalizing s with
  | ret a | raise e => exact ⟨_, _, h, h'⟩
  | op o k ih => exact ih _ _ (h e₀ h₀) (h' e₀ h₀)

end Alone

end Concur

/-
Kairon/Lib/Txn.lean

Work on a database that may raise, and transactions around it.

A piece of work leaves a state whether it returns or raises; `atomically` is the
transaction that keeps the state of work that returned and restores the old one
when it raised.  `forEach` is the loop over a list of jobs that stops at the
first one that raises.  With the transaction around the loop, such a stop loses
everything.
-/
import Mathlib

namespace Kairon.Txn

variable {σ ε α β : Type}

/-- Work on a database with state `σ`: it returns or raises. -/
abbrev Work (σ ε α : Type) := σ → Except ε α × σ

/-- One piece of work after another; a raised error skips the rest. -/
def andThen (first : Work σ ε α) (next : α → Work σ ε β) : Work σ ε β := fun s =>
  match first s with
  | (.ok a, t) => next a t
  | (.error e, t) => (.error e, t)

/-- A transaction: what is done is kept if the work returns, and undone if it
raises. -/
def atomically (work : Work σ ε α) : Work σ ε α := fun s =>
  match work s with
  | (.ok a, t) => (.ok a, t)
  | (.error e, _) => (.error e, s)

/-- The loop over a list of jobs, with the list of what they return. -/
def forEach (job : α → Work σ ε β) : List α → Work σ ε (List β)
  | [] => fun s => (.ok [], s)
  | a :: rest => andThen (job a) fun b => andThen (forEach job rest) fun bs s => (.ok (b :: bs), s)

variable {next : α → Work σ ε β}

theorem andThen_ok {first : Work σ ε α} {s t : σ} {a : α}
    (h : first s = (.ok a, t)) : andThen first next s = next a t := by
  rw [andThen, h]

theorem andThen_error {first : Work σ ε α} {s t : σ} {e : ε}
    (h : first s = (.error e, t)) : andThen first next s = (.error e, t) := by
  rw [andThen, h]

theorem atomically_ok {work : Work σ ε α} {s t : σ} {a : α} (h : work s = (.ok a, t)) :
    atomically work s = (.ok a, t) := by
  rw [atomically, h]

theorem atomically_error {work : Work σ ε α} {s t : σ} {e : ε} (h : work s = (.error e, t)) :
    atomically work s = (.error e, s) := by
  rw [atomically, h]

/-! ### Loops -/

variable {job : α → Work σ ε β} {bs : List β}

theorem forEach_cons_ok {a : α} {rest : List α} {s t u : σ} {b : β} (ha : job a s = (.ok b, t))
    (hrest : forEach job rest t = (.ok bs, u)) :
    forEach job (a :: rest) s = (.ok (b :: bs), u) := by
  rw [forEach, andThen_ok ha, andThen_ok hrest]

/-- A loop that returned went through its first job and then through the rest. -/
theorem forEach_cons_inv {a : α} {rest : List α} {s u : σ}
    (h : forEach job (a :: rest) s = (.ok bs, u)) :
    ∃ b bs' t, job a s = (.ok b, t) ∧ forEach job rest t = (.ok bs', u) ∧ bs = b :: bs' := by
  rw [forEach] at h
  rcases ha : job a s with ⟨e | b, t⟩
  · rw [andThen_error ha] at h
    cases h
  rw [andThen_ok ha] at h
  rcases hrest : forEach job rest t with ⟨e | bs', u'⟩
  · rw [andThen_error hrest] at h
    cases h
  rw [andThen_ok hrest] at h
  obtain ⟨hbs, rfl⟩ := Prod.mk.inj h
  exact ⟨b, bs', t, rfl, hrest, (Except.ok.inj hbs).symm⟩

/-- The first job that raises ends the loop, in the state it leaves. -/
theorem forEach_error {done rest : List α} {a : α} {s t u : σ} {e : ε}
    (hdone : forEach job done s = (.ok bs, t)) (ha : job a t = (.error e, u)) :
    forEach job (done ++ a :: rest) s = (.error e, u) := by
  induction done generalizing s bs with
  | nil =>
    obtain ⟨-, rfl⟩ := Prod.mk.inj hdone
    exact andThen_error ha
  | cons first done ih =>
    obtain ⟨b, bs', s', hfirst, hrest, -⟩ := forEach_cons_inv hdone
    rw [List.cons_append, forEach, andThen_ok hfirst, andThen_error (ih hrest)]

end Kairon.Txn

/-
Kairon/Lib/Interleave.lean

Any number of programs over one shared state, interleaved at their atomic
operations.  A configuration is the shared state and the processes; an
action starts a process, lets one process execute its next operation, kills
a process where it stands, or cleans up after a dead one.

The rule for invariants is rely/guarantee, with the rely indexed by the
operation a process is about to execute:

* `Prog.Ok` walks over a program.  At each operation it assumes that the
  others have changed the state only as `Rely` allows while this operation
  was pending, and asks for the shared invariant and `Guar` across it, and
  for `Q` where the program ends.
* `Sound` says every running process of a configuration is `Ok`.  `Sound.act` shows
  that it survives an action, provided one process's guarantee implies the
  rely of every other *under the schedule condition* `P` on actions.  With
  `P` trivial this is the usual rule; a claim that holds only on schedules
  without some overlap puts the overlap into `P`.
-/
import Kairon.Lib.Prog

namespace Concur

universe u v w

variable {Op : Type u} {Resp : Op → Type v} {ε : Type w} {α : Type v}
variable {Env State : Type*}

/-! ### Configurations and actions -/

/-- Shared state and processes; `next` is the first identifier not yet used. -/
structure Config (Op : Type u) (Resp : Op → Type v) (ε : Type w) (α : Type v)
    (State : Type*) where
  state : State
  next : ℕ
  threads : ℕ → Option (Prog Op Resp ε α)

/-- One scheduling decision. -/
inductive Action (Op : Type u) (Resp : Op → Type v) (ε : Type w) (α : Type v) (Env : Type*)
  | spawn (p : Prog Op Resp ε α)
  | step (t : ℕ) (e : Env)
  | kill (t : ℕ)
  | reap (t : ℕ)

namespace Config

variable (M : Machine Op Resp Env State)

/-- The configuration before any process has started. -/
def init (s : State) : Config Op Resp ε α State := ⟨s, 0, fun _ => none⟩

/-- The effect of an action, `none` where it is not enabled. -/
def act (c : Config Op Resp ε α State) :
    Action Op Resp ε α Env → Option (Config Op Resp ε α State)
  | .spawn p => some { c with
      next := c.next + 1
      threads := Function.update c.threads c.next (some p) }
  | .step t e =>
    match c.threads t with
    | some (.op o k) => some { c with
        state := (M.exec t o e c.state).1
        threads := Function.update c.threads t (some (k (M.exec t o e c.state).2)) }
    | _ => none
  | .kill t =>
    if (c.threads t).isSome then
      some { c with threads := Function.update c.threads t none }
    else none
  | .reap t =>
    if t < c.next ∧ (c.threads t).isNone then some { c with state := M.reap t c.state }
    else none

/-- A whole schedule. -/
def run (c : Config Op Resp ε α State) :
    List (Action Op Resp ε α Env) → Option (Config Op Resp ε α State)
  | [] => some c
  | a :: as => (c.act M a).bind fun c' => c'.run as

/-- Reachability by actions that meet the schedule condition `P`. -/
def Reach (P : Config Op Resp ε α State → Action Op Resp ε α Env → Prop) :
    Config Op Resp ε α State → Config Op Resp ε α State → Prop :=
  Relation.ReflTransGen fun c c' => ∃ a, P c a ∧ c.act M a = some c'

theorem Reach.of_run {P : Config Op Resp ε α State → Action Op Resp ε α Env → Prop} :
    ∀ (as : List (Action Op Resp ε α Env)) {c c' : Config Op Resp ε α State},
      (∀ a ∈ as, ∀ d, P d a) → c.run M as = some c' → Reach M P c c'
  | [], c, c', _, h => by
      obtain rfl := Option.some.inj h
      exact .refl
  | a :: as, c, c', hP, h => by
      obtain ⟨d, hd, hrest⟩ := Option.bind_eq_some_iff.mp h
      refine .head ⟨a, hP a (.head _) c, hd⟩ (Reach.of_run as ?_ hrest)
      exact fun b hb => hP b (List.mem_cons_of_mem a hb)

/-- What an enabled step did. -/
theorem act_step {c c' : Config Op Resp ε α State} {t : ℕ} {e : Env}
    (h : c.act M (.step t e) = some c') :
    ∃ o k, c.threads t = some (.op o k) ∧ c' = { c with
      state := (M.exec t o e c.state).1
      threads := Function.update c.threads t (some (k (M.exec t o e c.state).2)) } := by
  simp only [act] at h
  split at h
  · next o k ht => exact ⟨o, k, ht, (Option.some.inj h).symm⟩
  · cases h

end Config

/-! ### The rely/guarantee rule -/

section RelyGuarantee

variable (M : Machine Op Resp Env State) (Inv : State → Prop)
variable (Rely Guar : ℕ → Op → State → State → Prop)

/-- Executing `o` beside others: they may have changed the state within the
rely while `o` was pending; the step keeps the invariant and the guarantee. -/
def Machine.beside (t : ℕ) (o : Op) (K : Resp o → State → Prop) (s : State) : Prop :=
  ∀ s', Inv s' → Rely t o s s' → ∀ e, Inv (M.exec t o e s').1 ∧ Guar t o s' (M.exec t o e s').1 ∧
      K (M.exec t o e s').2 (M.exec t o e s').1

/-- From state `s` on, process `t` keeps the invariant and its guarantee at
every operation, as long as the others act within its rely, and ends in `Q`. -/
def Prog.Ok (Q : Except ε α → State → Prop) (t : ℕ) (p : Prog Op Resp ε α) (s : State) :
    Prop :=
  p.walk (M.beside Inv Rely Guar t) Q s

variable (Q : ℕ → Except ε α → State → Prop)

/-- Every running process of the configuration is `Ok` in its present state. -/
structure Sound (c : Config Op Resp ε α State) : Prop where
  inv : Inv c.state
  ok : ∀ t o k, c.threads t = some (.op o k) → (Prog.op o k).Ok M Inv Rely Guar (Q t) t c.state
  fresh : ∀ t, c.next ≤ t → c.threads t = none

/-- What the rule asks of the relies, the guarantees and the schedule. -/
structure Compatible
    (P : Config Op Resp ε α State → Action Op Resp ε α Env → Prop) : Prop where
  refl : ∀ t o s, Rely t o s s
  trans : ∀ t o s s' s'', Rely t o s s' → Rely t o s' s'' → Rely t o s s''
  step : ∀ (c : Config Op Resp ε α State) t o k u o' k' e, t ≠ u →
    c.threads t = some (.op o k) → c.threads u = some (.op o' k') →
    P c (.step t e) → Guar t o c.state (M.exec t o e c.state).1 →
    Rely u o' c.state (M.exec t o e c.state).1
  reap_inv : ∀ t s, Inv s → Inv (M.reap t s)
  reap : ∀ (c : Config Op Resp ε α State) t u o, t ≠ u → Inv c.state →
    Rely u o c.state (M.reap t c.state)
  spawn : ∀ (c : Config Op Resp ε α State) p, P c (.spawn p) → Inv c.state →
    p.Ok M Inv Rely Guar (Q c.next) c.next c.state

variable {M Inv Rely Guar Q}
variable {P : Config Op Resp ε α State → Action Op Resp ε α Env → Prop}

theorem Prog.Ok.weaken (hc : Compatible M Inv Rely Guar Q P) {t : ℕ} {o : Op}
    {k : Resp o → Prog Op Resp ε α} {s s' : State}
    (h : (Prog.op o k).Ok M Inv Rely Guar (Q t) t s) (hrely : Rely t o s s') :
    (Prog.op o k).Ok M Inv Rely Guar (Q t) t s' := by
  intro s'' hinv hr
  exact h s'' hinv (hc.trans t o s s' s'' hrely hr)

/-- An enabled step of a sound configuration keeps its guarantee. -/
theorem Sound.guar (hc : Compatible M Inv Rely Guar Q P)
    {c : Config Op Resp ε α State} (h : Sound M Inv Rely Guar Q c) {t : ℕ} {o : Op}
    {k : Resp o → Prog Op Resp ε α} (ht : c.threads t = some (.op o k)) (e : Env) :
    Inv (M.exec t o e c.state).1 ∧ Guar t o c.state (M.exec t o e c.state).1 ∧
      (k (M.exec t o e c.state).2).Ok M Inv Rely Guar (Q t) t (M.exec t o e c.state).1 :=
  h.ok t o k ht c.state h.inv (hc.refl t o c.state) e

variable {c c' : Config Op Resp ε α State}

variable {a : Action Op Resp ε α Env}

theorem Sound.act (hc : Compatible M Inv Rely Guar Q P) (h : Sound M Inv Rely Guar Q c) (hP : P c a)
    (hact : c.act M a = some c') : Sound M Inv Rely Guar Q c' := by
  cases a with
  | spawn p =>
    obtain rfl := Option.some.inj hact
    refine ⟨h.inv, ?_, ?_⟩
    · intro t o k ht
      by_cases htn : t = c.next
      · subst htn
        simp only [Function.update_self, Option.some.injEq] at ht
        subst ht
        exact hc.spawn c _ hP h.inv
      · simp only [Function.update_of_ne htn] at ht
        exact h.ok t o k ht
    · intro t ht
      have htn : t ≠ c.next := by
        have : c.next + 1 ≤ t := ht
        omega
      simp only [Function.update_of_ne htn]
      exact h.fresh t (Nat.le_of_succ_le ht)
  | step t e =>
    obtain ⟨o, k, ht, rfl⟩ := Config.act_step M hact
    obtain ⟨hinv, hguar, hok⟩ := h.guar hc ht e
    refine ⟨hinv, ?_, ?_⟩
    · intro u o' k' hu
      by_cases hut : u = t
      · subst hut
        simp only [Function.update_self, Option.some.injEq] at hu
        rw [hu] at hok
        exact hok
      · simp only [Function.update_of_ne hut] at hu
        refine (h.ok u o' k' hu).weaken hc ?_
        exact hc.step c t o k u o' k' e (Ne.symm hut) ht hu hP hguar
    · intro u hu
      have hut : u ≠ t := by
        rintro rfl
        rw [h.fresh u hu] at ht
        cases ht
      simp only [Function.update_of_ne hut]
      exact h.fresh u hu
  | kill t =>
    simp only [Config.act] at hact
    split at hact
    · obtain rfl := Option.some.inj hact
      refine ⟨h.inv, ?_, ?_⟩
      · intro u o k hu
        by_cases hut : u = t
        · subst hut
          simp at hu
        · simp only [Function.update_of_ne hut] at hu
          exact h.ok u o k hu
      · intro u hu
        by_cases hut : u = t
        · subst hut
          simp
        · simp only [Function.update_of_ne hut]
          exact h.fresh u hu
    · cases hact
  | reap t =>
    simp only [Config.act] at hact
    split at hact
    · next hdead =>
        obtain rfl := Option.some.inj hact
        refine ⟨hc.reap_inv t _ h.inv, ?_, h.fresh⟩
        intro u o k hu
        have hut : t ≠ u := by
          rintro rfl
          rw [hu] at hdead
          simp at hdead
        exact (h.ok u o k hu).weaken hc (hc.reap c t u o hut h.inv)
    · cases hact

/-- A relation between the shared states before and after an action: it need
only be checked for the guarantees of steps and for cleaning up. -/
theorem Sound.act_state (hc : Compatible M Inv Rely Guar Q P) (h : Sound M Inv Rely Guar Q c)
    (hact : c.act M a = some c') (R : State → State → Prop)
    (hrefl : ∀ s, R s s) (hreap : ∀ t, R c.state (M.reap t c.state))
    (hguar : ∀ t o e, Guar t o c.state (M.exec t o e c.state).1 →
      R c.state (M.exec t o e c.state).1) : R c.state c'.state := by
  cases a with
  | spawn p =>
    obtain rfl := Option.some.inj hact
    exact hrefl _
  | step t e =>
    obtain ⟨o, k, ht, rfl⟩ := Config.act_step M hact
    exact hguar t o e (h.guar hc ht e).2.1
  | kill t =>
    simp only [Config.act] at hact
    split at hact
    · obtain rfl := Option.some.inj hact
      exact hrefl _
    · cases hact
  | reap t =>
    simp only [Config.act] at hact
    split at hact
    · obtain rfl := Option.some.inj hact
      exact hreap t
    · cases hact

/-- A program that is sound beside others is so alone. -/
theorem Prog.Ok.wp (hrefl : ∀ t o s, Rely t o s s) {R : Except ε α → State → Prop} {t : ℕ}
    (A : Env → Prop) (p : Prog Op Resp ε α) {s : State} (hinv : Inv s)
    (h : p.Ok M Inv Rely Guar R t s) : p.wp M t A (fun r s' => R r s' ∧ Inv s') s := by
  induction p generalizing s with
  | ret a | raise e => exact ⟨h, hinv⟩
  | op o k ih =>
    intro e _
    obtain ⟨hinv', -, hrest⟩ := h s hinv (hrefl t o s) e
    exact ih _ hinv' hrest

/-- **Rely/guarantee.** Soundness holds in every configuration reached by
actions that meet the schedule condition. -/
theorem Sound.reach (hc : Compatible M Inv Rely Guar Q P) (h : Sound M Inv Rely Guar Q c)
    (hr : Config.Reach M P c c') : Sound M Inv Rely Guar Q c' := by
  induction hr with
  | refl => exact h
  | tail _ hstep ih =>
    obtain ⟨a, hP, hact⟩ := hstep
    exact ih.act hc hP hact

theorem Sound.init {s : State} (h : Inv s) :
    Sound M Inv Rely Guar Q (Config.init s : Config Op Resp ε α State) :=
  ⟨h, fun _ _ _ ht => (nomatch ht), fun _ _ => rfl⟩

end RelyGuarantee

/-! ### Programs that are safe wherever they start -/

section Safe

variable (M : Machine Op Resp Env State) (Inv : State → Prop)
variable (Rely Guar : ℕ → Op → State → State → Prop)

/-- An operation that keeps the invariant and the guarantee in every state. -/
def Harmless (t : ℕ) (o : Op) : Prop :=
  ∀ s e, Inv s → Inv (M.exec t o e s).1 ∧ Guar t o s (M.exec t o e s).1

/-- A program that keeps the invariant and its guarantee from every state. -/
def Prog.Safe (t : ℕ) (p : Prog Op Resp ε α) : Prop :=
  ∀ s, p.Ok M Inv Rely Guar (fun _ _ => True) t s

variable {M Inv Rely Guar} {β : Type v} {t : ℕ}

variable {p : Prog Op Resp ε α}

theorem Prog.Ok.mono {Q Q' : Except ε α → State → Prop} (hQ : ∀ r s, Q r s → Q' r s) {s : State}
    (h : p.Ok M Inv Rely Guar Q t s) : p.Ok M Inv Rely Guar Q' t s :=
  Prog.walk_mono (fun _ _ _ _ hK ho s' hi hr e =>
    ⟨(ho s' hi hr e).1, (ho s' hi hr e).2.1, hK _ _ (ho s' hi hr e).2.2⟩) hQ p s h

variable {Q : Except ε β → State → Prop}

theorem Prog.Ok.perform {o : Op} {f : Resp o → Prog Op Resp ε β} {s : State}
    (h : ∀ s', Inv s' → Rely t o s s' → ∀ e,
      Inv (M.exec t o e s').1 ∧ Guar t o s' (M.exec t o e s').1 ∧
        (f (M.exec t o e s').2).Ok M Inv Rely Guar Q t (M.exec t o e s').1) :
    ((Prog.perform o : Prog Op Resp ε (Resp o)) >>= f).Ok M Inv Rely Guar Q t s := h

/-- A harmless operation whose effect the rest of the program needs. -/
theorem Prog.Ok.harmless {o : Op}
    {f : Resp o → Prog Op Resp ε β} {s : State} (ho : Harmless M Inv Guar t o)
    (h : ∀ s' e, Inv s' → Rely t o s s' →
      (f (M.exec t o e s').2).Ok M Inv Rely Guar Q t (M.exec t o e s').1) :
    ((Prog.perform o : Prog Op Resp ε (Resp o)) >>= f).Ok M Inv Rely Guar Q t s :=
  fun s' hinv hr e => ⟨(ho s' e hinv).1, (ho s' e hinv).2, h s' e hinv hr⟩

theorem Prog.Ok.ite {Q : Except ε α → State → Prop} {c : Prop} [Decidable c]
    {p q : Prog Op Resp ε α} {s : State} (hp : c → p.Ok M Inv Rely Guar Q t s)
    (hq : ¬c → q.Ok M Inv Rely Guar Q t s) :
    (if c then p else q).Ok M Inv Rely Guar Q t s := by
  split
  · next h => exact hp h
  · next h => exact hq h

theorem Prog.Safe.ite {c : Prop} [Decidable c] {p q : Prog Op Resp ε α}
    (hp : c → p.Safe M Inv Rely Guar t) (hq : ¬c → q.Safe M Inv Rely Guar t) :
    (if c then p else q).Safe M Inv Rely Guar t :=
  fun s => .ite (fun h => hp h s) (fun h => hq h s)

theorem Prog.Safe.pure (a : α) :
    (Pure.pure a : Prog Op Resp ε α).Safe M Inv Rely Guar t := fun _ => trivial

theorem Prog.Safe.raise (e : ε) :
    (Prog.raise e : Prog Op Resp ε α).Safe M Inv Rely Guar t := fun _ => trivial

/-- A harmless operation, followed by what is safe for each of its answers. -/
theorem Prog.Safe.perform {o : Op} {f : Resp o → Prog Op Resp ε β}
    (ho : Harmless M Inv Guar t o)
    (hf : ∀ s e, Inv s → (f (M.exec t o e s).2).Safe M Inv Rely Guar t) :
    ((Prog.perform o : Prog Op Resp ε (Resp o)) >>= f).Safe M Inv Rely Guar t := by
  intro s s' hinv _ e
  exact ⟨(ho s' e hinv).1, (ho s' e hinv).2, hf s' e hinv _⟩

theorem Prog.Safe.last {o : Op} (ho : Harmless M Inv Guar t o) :
    (Prog.perform o : Prog Op Resp ε (Resp o)).Safe M Inv Rely Guar t := by
  intro s s' hinv _ e
  exact ⟨(ho s' e hinv).1, (ho s' e hinv).2, trivial⟩

theorem Prog.Safe.bind {f : α → Prog Op Resp ε β}
    (hp : p.Safe M Inv Rely Guar t) (hf : ∀ a, (f a).Safe M Inv Rely Guar t) :
    (p >>= f).Safe M Inv Rely Guar t := by
  intro s
  refine (Prog.walk_bind p f _ s).mpr ((hp s).mono ?_)
  intro r s' _
  cases r with
  | ok a => exact hf a s'
  | error e => trivial

theorem Prog.Safe.followedBy {fin : Prog Op Resp ε β}
    (hp : p.Safe M Inv Rely Guar t) (hfin : fin.Safe M Inv Rely Guar t) :
    (p.followedBy fin).Safe M Inv Rely Guar t := by
  intro s
  refine (Prog.walk_followedBy p fin _ s).mpr ((hp s).mono ?_)
  intro r s' _
  exact (hfin s').mono fun r' s'' _ => by cases r' <;> trivial

end Safe

end Concur

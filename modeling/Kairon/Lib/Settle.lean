/-
Kairon/Lib/Settle.lean

Loops that stop early and can fail.

A loop over tests returns at the first one that decides it; a test behind that
point is never run, so its failure does not show.  `Settles r fails b` says
what such a computation does in one statement: it fails exactly when `fails`
holds, and otherwise gives the answer `b`.  `FailsUntil` is what failure means
for a loop: some test fails before any test has given the deciding answer.
-/
import Mathlib.Data.List.Nodup

namespace Kairon.Settle

variable {ε α : Type}

section Except

variable {β : Type} {x : Except ε α} {f : α → Except ε β}

theorem bind_eq_ok {b : β} : (x >>= f) = .ok b ↔ ∃ a, x = .ok a ∧ f a = .ok b := by
  cases x with
  | error e | ok a => simp [bind, Except.bind]

theorem bind_eq_error {e : ε} :
    (x >>= f) = .error e ↔ x = .error e ∨ ∃ a, x = .ok a ∧ f a = .error e := by
  cases x with
  | error e' | ok a => simp [bind, Except.bind]

theorem mapM_eq_ok {g : α → β} {as : List α} (h : ∀ a ∈ as, f a = .ok (g a)) :
    as.mapM f = .ok (as.map g) := by
  induction as with
  | nil => rfl
  | cons a as ih =>
    rw [List.mapM_cons, h a (by simp), ih fun b hb => h b (by simp [hb])]
    rfl

theorem mem_of_mapM_eq_ok {as : List α} {bs : List β} (h : as.mapM f = .ok bs) {b : β}
    (hb : b ∈ bs) : ∃ a ∈ as, f a = .ok b := by
  induction as generalizing bs with
  | nil =>
    cases h
    cases hb
  | cons a as ih =>
    rw [List.mapM_cons] at h
    obtain ⟨b', hb', h⟩ := bind_eq_ok.1 h
    obtain ⟨bs', hbs', h⟩ := bind_eq_ok.1 h
    cases h
    obtain rfl | hb := List.mem_cons.1 hb
    · exact ⟨a, by simp, hb'⟩
    · obtain ⟨a', ha', hfa'⟩ := ih hbs' hb
      exact ⟨a', by simp [ha'], hfa'⟩

/-- The lists that a step gives for the elements, behind each other. -/
def concatM (g : α → Except ε (List β)) : List α → Except ε (List β)
  | [] => .ok []
  | a :: as => do
      let bs ← g a
      let rest ← concatM g as
      pure (bs ++ rest)

section ConcatM

variable {g : α → Except ε (List β)}

variable {as : List α}

theorem concatM_cons_eq_ok {a : α} {ys : List β} : concatM g (a :: as) = .ok ys ↔
      ∃ bs rest, g a = .ok bs ∧ concatM g as = .ok rest ∧ ys = bs ++ rest := by
  constructor
  · intro h
    obtain ⟨bs, hbs, h⟩ := bind_eq_ok.1 h
    obtain ⟨rest, hrest, h⟩ := bind_eq_ok.1 h
    cases h
    exact ⟨bs, rest, hbs, hrest, rfl⟩
  · rintro ⟨bs, rest, hbs, hrest, rfl⟩
    exact bind_eq_ok.2 ⟨bs, hbs, bind_eq_ok.2 ⟨rest, hrest, rfl⟩⟩

theorem exists_concatM_eq_ok (h : ∀ a ∈ as, ∃ bs, g a = .ok bs) : ∃ ys, concatM g as = .ok ys := by
  induction as with
  | nil => exact ⟨[], rfl⟩
  | cons a as ih =>
    obtain ⟨bs, hbs⟩ := h a (by simp)
    obtain ⟨rest, hrest⟩ := ih fun a' ha' => h a' (by simp [ha'])
    exact ⟨bs ++ rest, concatM_cons_eq_ok.2 ⟨bs, rest, hbs, hrest, rfl⟩⟩

theorem mem_concatM {ys : List β} (h : concatM g as = .ok ys) {y : β} :
    y ∈ ys ↔ ∃ a ∈ as, ∃ bs, g a = .ok bs ∧ y ∈ bs := by
  induction as generalizing ys with
  | nil =>
    cases h
    simp
  | cons a as ih =>
    obtain ⟨bs, rest, hbs, hrest, rfl⟩ := concatM_cons_eq_ok.1 h
    simp [ih hrest, hbs]

theorem ok_of_concatM {ys : List β} (h : concatM g as = .ok ys) {a : α}
    (ha : a ∈ as) : ∃ bs, g a = .ok bs ∧ ∀ b ∈ bs, b ∈ ys := by
  induction as generalizing ys with
  | nil => cases ha
  | cons a' as ih =>
    obtain ⟨bs, rest, hbs, hrest, rfl⟩ := concatM_cons_eq_ok.1 h
    obtain rfl | ha := List.mem_cons.1 ha
    · exact ⟨bs, hbs, fun b hb => List.mem_append_left _ hb⟩
    · obtain ⟨bs', hbs', hmem⟩ := ih hrest ha
      exact ⟨bs', hbs', fun b hb => List.mem_append_right _ (hmem b hb)⟩

/-- Values are different if they are within each list and between any two. -/
theorem nodup_concatM {γ : Type} {key : β → γ} {ys : List β}
    (h : concatM g as = .ok ys) (heach : ∀ a ∈ as, ∀ bs, g a = .ok bs → (bs.map key).Nodup)
    (hbetween : as.Pairwise fun a a' => ∀ bs bs', g a = .ok bs → g a' = .ok bs' →
      ∀ b ∈ bs, ∀ b' ∈ bs', key b ≠ key b') : (ys.map key).Nodup := by
  induction as generalizing ys with
  | nil =>
    cases h
    simp
  | cons a as ih =>
    obtain ⟨bs, rest, hbs, hrest, rfl⟩ := concatM_cons_eq_ok.1 h
    obtain ⟨hfirst, hpairs⟩ := List.pairwise_cons.1 hbetween
    rw [List.map_append]
    refine List.Nodup.append (heach a (by simp) bs hbs)
      (ih hrest (fun a' ha' => heach a' (by simp [ha'])) hpairs) ?_
    intro k hk hk'
    obtain ⟨b, hb, rfl⟩ := List.mem_map.1 hk
    obtain ⟨b', hb', hkey⟩ := List.mem_map.1 hk'
    obtain ⟨a', ha', bs', hbs', hmem⟩ := (mem_concatM hrest).1 hb'
    exact hfirst a' ha' bs bs' hbs hbs' b hb b' hmem hkey.symm

end ConcatM

end Except

/-- A loop that returns at the first success. -/
def anyOk (f : α → Except ε Bool) : List α → Except ε Bool
  | [] => .ok false
  | a :: as => do
      if ← f a then pure true else anyOk f as

/-- A loop that returns at the first failure of a test. -/
def allOk (f : α → Except ε Bool) : List α → Except ε Bool
  | [] => .ok true
  | a :: as => do
      if ← f a then allOk f as else pure false

/-- A loop that runs every test and says whether one of them held. -/
def someOk (f : α → Except ε Bool) : List α → Except ε Bool
  | [] => .ok false
  | a :: as => do
      let b ← f a
      let c ← someOk f as
      pure (b || c)

/-- Fails with an error, or gives this answer. -/
def Settles (r : Except ε Bool) (fails : Prop) (b : Bool) : Prop :=
  (fails ∧ ∃ e, r = .error e) ∨ (¬ fails ∧ r = .ok b)

/-- Some element fails, and nothing before it has the answer `stop`. -/
def FailsUntil (stop : Bool) (fails : α → Prop) (b : α → Bool) : List α → Prop
  | [] => False
  | a :: as => fails a ∨ (b a = !stop ∧ FailsUntil stop fails b as)

section

variable {r r' : Except ε Bool} {fails fails' : Prop} {b b' : Bool}

theorem Settles.ok_iff (h : Settles r fails b) : (∃ b', r = .ok b') ↔ ¬ fails := by
  obtain ⟨hf, e, rfl⟩ | ⟨hf, rfl⟩ := h
  · exact iff_of_false (by simp) (fun hn => hn hf)
  · exact iff_of_true ⟨b, rfl⟩ hf

theorem Settles.eq_ok (h : Settles r fails b) (hf : ¬ fails) : r = .ok b := by
  obtain ⟨hf', -⟩ | ⟨-, hr⟩ := h
  · exact absurd hf' hf
  · exact hr

theorem Settles.congr (h : Settles r fails b) (hf : fails ↔ fails') (hb : b = b') :
    Settles r fails' b' := by
  subst hb
  obtain ⟨hfails, hr⟩ | ⟨hfails, hr⟩ := h
  · exact .inl ⟨hf.1 hfails, hr⟩
  · exact .inr ⟨fun h' => hfails (hf.2 h'), hr⟩

theorem settles_ok (b : Bool) : Settles (.ok b : Except ε Bool) False b := .inr ⟨id, rfl⟩

/-- The second computation is run when the first one answers no. -/
theorem Settles.or (h : Settles r fails b) (h' : Settles r' fails' b') :
    Settles (r >>= fun c => if c = true then pure true else r')
      (fails ∨ (b = false ∧ fails')) (b || b') := by
  obtain ⟨hf, e, rfl⟩ | ⟨hf, rfl⟩ := h
  · exact .inl ⟨.inl hf, e, rfl⟩
  cases b with
  | true => exact .inr ⟨by simp [hf], rfl⟩
  | false =>
    obtain ⟨hf', e, rfl⟩ | ⟨hf', rfl⟩ := h'
    · exact .inl ⟨.inr ⟨rfl, hf'⟩, e, rfl⟩
    · exact .inr ⟨by simp [hf, hf'], rfl⟩

/-- The second computation is run when the first one answers yes. -/
theorem Settles.and (h : Settles r fails b) (h' : Settles r' fails' b') :
    Settles (r >>= fun c => if c = true then r' else pure false)
      (fails ∨ (b = true ∧ fails')) (b && b') := by
  obtain ⟨hf, e, rfl⟩ | ⟨hf, rfl⟩ := h
  · exact .inl ⟨.inl hf, e, rfl⟩
  cases b with
  | false => exact .inr ⟨by simp [hf], rfl⟩
  | true =>
    obtain ⟨hf', e, rfl⟩ | ⟨hf', rfl⟩ := h'
    · exact .inl ⟨.inr ⟨rfl, hf'⟩, e, rfl⟩
    · exact .inr ⟨by simp [hf, hf'], rfl⟩

theorem Settles.not (h : Settles r fails b) : Settles (r >>= fun c => pure !c) fails (!b) := by
  obtain ⟨hf, e, rfl⟩ | ⟨hf, rfl⟩ := h
  · exact .inl ⟨hf, e, rfl⟩
  · exact .inr ⟨hf, rfl⟩

end

section

variable {f : α → Except ε Bool} {fails : α → Prop} {b : α → Bool} {as : List α}

theorem settles_anyOk (h : ∀ a ∈ as, Settles (f a) (fails a) (b a)) :
    Settles (anyOk f as) (FailsUntil true fails b as) (as.any b) := by
  induction as with
  | nil => exact settles_ok false
  | cons a as ih =>
    rw [anyOk, FailsUntil, List.any_cons]
    exact (h a (by simp)).or (ih fun x hx => h x (by simp [hx]))

theorem settles_allOk (h : ∀ a ∈ as, Settles (f a) (fails a) (b a)) :
    Settles (allOk f as) (FailsUntil false fails b as) (as.all b) := by
  induction as with
  | nil => exact settles_ok true
  | cons a as ih =>
    rw [allOk, FailsUntil, List.all_cons]
    exact (h a (by simp)).and (ih fun x hx => h x (by simp [hx]))

theorem settles_someOk (h : ∀ a ∈ as, Settles (f a) (fails a) (b a)) :
    Settles (someOk f as) (∃ a ∈ as, fails a) (as.any b) := by
  induction as with
  | nil => exact .inr ⟨by simp, rfl⟩
  | cons a as ih =>
    rw [someOk, List.any_cons]
    obtain ⟨hf, e, he⟩ | ⟨hf, ha⟩ := h a (by simp)
    · exact .inl ⟨⟨a, by simp, hf⟩, e, by rw [he]; rfl⟩
    obtain ⟨⟨x, hx, hfx⟩, e, he⟩ | ⟨hno, has⟩ := ih fun x hx => h x (by simp [hx])
    · exact .inl ⟨⟨x, by simp [hx], hfx⟩, e, by rw [ha, he]; rfl⟩
    · refine .inr ⟨?_, by rw [ha, has]; rfl⟩
      rintro ⟨x, hx, hfx⟩
      obtain rfl | hx := List.mem_cons.1 hx
      · exact hf hfx
      · exact hno ⟨x, hx, hfx⟩

/-- Only the tests of the row matter. -/
theorem someOk_congr {g : α → Except ε Bool} (h : ∀ a ∈ as, f a = g a) :
    someOk f as = someOk g as := by
  induction as with
  | nil => rfl
  | cons a as ih => rw [someOk, someOk, h a (by simp), ih fun x hx => h x (by simp [hx])]

theorem someOk_map {β : Type} {g : β → α} {bs : List β} :
    someOk f (bs.map g) = someOk (fun b => f (g b)) bs := by
  induction bs with
  | nil => rfl
  | cons b bs ih => rw [List.map_cons, someOk, someOk, ih]

/-- Tests that do not hold can be left out. -/
theorem someOk_filter {p : α → Bool} (h : ∀ a ∈ as, p a = false → f a = .ok false) :
    someOk f (as.filter p) = someOk f as := by
  induction as with
  | nil => rfl
  | cons a as ih =>
    have htail := ih fun x hx => h x (by simp [hx])
    cases hp : p a with
    | true => rw [List.filter_cons_of_pos hp, someOk, someOk, htail]
    | false =>
      rw [List.filter_cons_of_neg (by simp [hp]), someOk, h a (by simp) hp, htail]
      cases someOk f as with
      | error e => rfl
      | ok b => rfl

/-- Where all elements fail, the first one does. -/
theorem failsUntil_const {stop : Bool} {fails : Prop} :
    FailsUntil stop (fun _ => fails) b as ↔ as ≠ [] ∧ fails := by
  induction as with
  | nil => simp [FailsUntil]
  | cons a as ih =>
    rw [FailsUntil, ih]
    constructor
    · rintro (hf | ⟨-, -, hf⟩)
      · exact ⟨by simp, hf⟩
      · exact ⟨by simp, hf⟩
    · rintro ⟨-, hf⟩
      exact .inl hf

theorem not_failsUntil {stop : Bool} (h : ∀ a ∈ as, ¬ fails a) : ¬ FailsUntil stop fails b as := by
  induction as with
  | nil => exact id
  | cons a as ih =>
    rintro (ha | ⟨-, has⟩)
    · exact h a (by simp) ha
    · exact ih (fun x hx => h x (by simp [hx])) has

end

end Kairon.Settle

/-
Kairon/Lib/Layering.lean

Depths by longest paths.

Each start has depth 0, and a visit of an element with depth `d` raises whatever is
next to it and less deep to `d + 1`.  `Layered` is what holds at any moment: a depth is
the length of a path (`Steps`), and where nothing is to be visited any more the depths
grow along `next` (`Layered.lt_of_next`).

If no cycle can be reached, paths are shorter than there are elements
(`Steps.lt_card`), and every raising uses up some of what is left (`room_raise`); if one
can, there are no depths that grow along it (`Layered.no_cycle`).
-/
import Mathlib

namespace Kairon.Layering

variable {α : Type} (next : α → α → Prop) (start : α → Prop)

/-- Paths from a start. -/
inductive Steps : ℕ → α → Prop
  | start {x : α} : start x → Steps 0 x
  | next {n : ℕ} {x y : α} : Steps n x → next x y → Steps (n + 1) y

/-- What can be reached from a start. -/
def Below (x : α) : Prop := ∃ r, start r ∧ Relation.ReflTransGen next r x

/-- No cycle can be reached from a start. -/
def CycleFree : Prop := ∀ x, Below next start x → ¬ Relation.TransGen next x x

/-- An element is less deep than a level. -/
def Above (depth : α → Option ℕ) (level : ℕ) (x : α) : Prop := ∀ d, depth x = some d → d < level

/-- What holds at any moment of the visits. -/
structure Layered (depth : α → Option ℕ) (waiting : α → Prop) : Prop where
  started : ∀ x, start x → ∃ d, depth x = some d
  waits : ∀ x, waiting x → ∃ d, depth x = some d
  steps : ∀ x d, depth x = some d → Steps next start d x
  closed : ∀ x d, depth x = some d → waiting x ∨ ∀ y, next x y → ∃ e, depth y = some e ∧ d < e

variable {next start} {depth depth' : α → Option ℕ} {waiting waiting' : α → Prop} {x y : α}
  {n d : ℕ}

/-! ### Paths -/

theorem Steps.reaches (h : Steps next start n x) : Below next start x := by
  induction h with
  | start h => exact ⟨_, h, Relation.ReflTransGen.refl⟩
  | next _ hnext ih =>
    obtain ⟨r, hr, hpath⟩ := ih
    exact ⟨r, hr, hpath.tail hnext⟩

/-- The elements of a path, the last first. -/
theorem Steps.path (h : Steps next start n x) : ∃ path : List α, path.length = n ∧
    (x :: path).Pairwise (fun b a => Relation.TransGen next a b) ∧
      ∀ a ∈ x :: path, Below next start a := by
  induction h with
  | start h =>
    refine ⟨[], rfl, List.pairwise_singleton _ _, fun a ha => ?_⟩
    rw [List.mem_singleton.1 ha]
    exact (Steps.start h).reaches
  | @next n x y hsteps hnext ih =>
    obtain ⟨path, hlength, hpairwise, hbelow⟩ := ih
    refine ⟨x :: path, by rw [List.length_cons, hlength], ?_, ?_⟩
    · refine List.pairwise_cons.2 ⟨fun a ha => ?_, hpairwise⟩
      rcases List.mem_cons.1 ha with rfl | ha
      · exact Relation.TransGen.single hnext
      · exact ((List.pairwise_cons.1 hpairwise).1 a ha).tail hnext
    · intro a ha
      rcases List.mem_cons.1 ha with rfl | ha
      · exact (hsteps.next hnext).reaches
      · exact hbelow a ha

/-- Without cycles, a path is shorter than there are elements. -/
theorem Steps.lt_card {elements : Finset α} (h : Steps next start n x)
    (hfree : CycleFree next start) (hin : ∀ y, Below next start y → y ∈ elements) :
    n < elements.card := by
  classical
  obtain ⟨path, rfl, hpairwise, hbelow⟩ := h.path
  have hnodup : (x :: path).Nodup := by
    refine hpairwise.imp_of_mem fun {b a} hb _ hpath heq => ?_
    subst heq
    exact hfree b (hbelow b hb) hpath
  have hsub : (x :: path).toFinset ⊆ elements := fun a ha =>
    hin a (hbelow a (List.mem_toFinset.1 ha))
  have hle := Finset.card_le_card hsub
  rw [List.toFinset_card_of_nodup hnodup, List.length_cons] at hle
  exact hle

/-! ### Visits -/

/-- A visit: what is next to an element is raised, and waits if it was. -/
structure Visit (next : α → α → Prop) (depth depth' : α → Option ℕ) (waiting waiting' : α → Prop)
    (cur : α) (d : ℕ) : Prop where
  depth_eq : depth cur = some d
  raised : ∀ y, next cur y → Above depth (d + 1) y → depth' y = some (d + 1) ∧ waiting' y
  same : ∀ y, ¬ (next cur y ∧ Above depth (d + 1) y) → depth' y = depth y
  kept : ∀ y, waiting y → y = cur ∨ waiting' y
  origin : ∀ y, waiting' y → waiting y ∨ next cur y

theorem Visit.grows {cur : α} (h : Visit next depth depth' waiting waiting' cur d) {e : ℕ}
    (hdepth : depth y = some e) : ∃ e', depth' y = some e' ∧ e ≤ e' := by
  by_cases hraised : next cur y ∧ Above depth (d + 1) y
  · exact ⟨d + 1, (h.raised y hraised.1 hraised.2).1, (hraised.2 e hdepth).le⟩
  · exact ⟨e, (h.same y hraised).trans hdepth, le_rfl⟩

/-- What is next to the visited element is deeper. -/
theorem Visit.deeper {cur : α} (h : Visit next depth depth' waiting waiting' cur d)
    (hnext : next cur y) : ∃ e, depth' y = some e ∧ d < e := by
  by_cases hraised : Above depth (d + 1) y
  · exact ⟨d + 1, (h.raised y hnext hraised).1, d.lt_succ_self⟩
  · have hdeep : ∃ e, depth y = some e ∧ d + 1 ≤ e := by
      by_contra hnone
      exact hraised fun e he => not_le.1 fun hle => hnone ⟨e, he, hle⟩
    obtain ⟨e, he, hle⟩ := hdeep
    exact ⟨e, (h.same y fun hboth => hraised hboth.2).trans he, hle⟩

theorem Layered.visit {cur : α} (h : Layered next start depth waiting)
    (hvisit : Visit next depth depth' waiting waiting' cur d) :
    Layered next start depth' waiting' := by
  refine ⟨?_, ?_, ?_, ?_⟩
  · intro x hx
    obtain ⟨e, he⟩ := h.started x hx
    obtain ⟨e', he', -⟩ := hvisit.grows he
    exact ⟨e', he'⟩
  · intro x hx
    rcases hvisit.origin x hx with hold | hnext
    · obtain ⟨e, he⟩ := h.waits x hold
      obtain ⟨e', he', -⟩ := hvisit.grows he
      exact ⟨e', he'⟩
    · obtain ⟨e, he, -⟩ := hvisit.deeper hnext
      exact ⟨e, he⟩
  · intro x e he
    by_cases hraised : next cur x ∧ Above depth (d + 1) x
    · obtain rfl : d + 1 = e :=
        Option.some.inj ((hvisit.raised x hraised.1 hraised.2).1.symm.trans he)
      exact (h.steps cur d hvisit.depth_eq).next hraised.1
    · exact h.steps x e ((hvisit.same x hraised).symm.trans he)
  · intro x e he
    by_cases hraised : next cur x ∧ Above depth (d + 1) x
    · exact .inl (hvisit.raised x hraised.1 hraised.2).2
    have hold := (hvisit.same x hraised).symm.trans he
    -- the visited element is done, unless it is next to itself
    rcases h.closed x e hold with hwaits | hdone
    · rcases hvisit.kept x hwaits with rfl | hwaits
      · obtain rfl := Option.some.inj (hvisit.depth_eq.symm.trans hold)
        exact .inr fun y hnext => hvisit.deeper hnext
      · exact .inl hwaits
    · refine .inr fun y hnext => ?_
      obtain ⟨f, hf, hlt⟩ := hdone y hnext
      obtain ⟨f', hf', hle⟩ := hvisit.grows hf
      exact ⟨f', hf', hlt.trans_le hle⟩

/-! ### The end -/

theorem Layered.lt_of_next (h : Layered next start depth fun _ => False) (hnext : next x y)
    (hdepth : depth x = some d) : ∃ e, depth y = some e ∧ d < e :=
  (h.closed x d hdepth).elim False.elim fun hdone => hdone y hnext

/-- At the end there is a depth for what can be reached. -/
theorem Layered.depth_isSome (h : Layered next start depth fun _ => False) :
    (∃ d, depth x = some d) ↔ Below next start x := by
  constructor
  · rintro ⟨d, hd⟩
    exact (h.steps x d hd).reaches
  · rintro ⟨r, hr, hpath⟩
    induction hpath with
    | refl => exact h.started r hr
    | tail _ hnext ih =>
      obtain ⟨d, hd⟩ := ih
      obtain ⟨e, he, -⟩ := h.lt_of_next hnext hd
      exact ⟨e, he⟩

/-- Visits that end have not met a cycle. -/
theorem Layered.no_cycle (h : Layered next start depth fun _ => False) : CycleFree next start := by
  intro x hbelow hcycle
  have hgrows : ∀ {y}, Relation.TransGen next x y → ∀ d, depth x = some d →
      ∃ e, depth y = some e ∧ d < e := by
    intro y hpath d hd
    induction hpath with
    | single hnext => exact h.lt_of_next hnext hd
    | tail _ hnext ih =>
      obtain ⟨e, he, hlt⟩ := ih
      obtain ⟨f, hf, hlt'⟩ := h.lt_of_next hnext he
      exact ⟨f, hf, hlt.trans hlt'⟩
  obtain ⟨d, hd⟩ := h.depth_isSome.2 hbelow
  obtain ⟨e, he, hlt⟩ := hgrows hcycle d hd
  obtain rfl := Option.some.inj (hd.symm.trans he)
  exact lt_irrefl _ hlt

/-! ### What is left -/

/-- How much the depths can still grow below a bound. -/
def room (elements : Finset α) (bound : ℕ) (depth : α → Option ℕ) : ℕ :=
  ∑ x ∈ elements, (bound + 1 - (depth x).elim 0 (· + 1))

/-- Raising an element uses up some of it. -/
theorem room_raise {elements : Finset α} {bound : ℕ} (hy : y ∈ elements)
    (habove : Above depth d y) (hd : d ≤ bound) (hraised : depth' y = some d)
    (hsame : ∀ x, x ≠ y → depth' x = depth x) :
    room elements bound depth' < room elements bound depth := by
  refine Finset.sum_lt_sum (fun x _ => ?_) ⟨y, hy, ?_⟩
  · by_cases hx : x = y
    · subst hx
      rw [hraised, Option.elim_some]
      rcases hdepth : depth x with - | e
      · rw [Option.elim_none]
        omega
      · have hlt := habove e hdepth
        rw [Option.elim_some]
        omega
    · rw [hsame x hx]
  · rw [hraised, Option.elim_some]
    rcases hdepth : depth y with - | e
    · rw [Option.elim_none]
      omega
    · have hlt := habove e hdepth
      rw [Option.elim_some]
      omega

end Kairon.Layering

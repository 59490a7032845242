/-
Kairon/Lib/Orbit.lean

Partial functions iterated: parents of parents.

`climb parent n x` is the element `n` steps above `x`.  An element is cyclic if it
is above itself.  Cutting a parent function at one element of each cycle leaves it
acyclic (`acyclic_cutAt`), and an acyclic one on a finite set has a root above every
element (`exists_root`).
-/
import Mathlib

namespace Kairon

variable {α : Type} {parent : α → Option α}

def climb (parent : α → Option α) : ℕ → α → Option α
  | 0, x => some x
  | n + 1, x => (climb parent n x).bind parent

theorem climb_succ (parent : α → Option α) (n : ℕ) (x : α) :
    climb parent (n + 1) x = (parent x).bind (climb parent n) := by
  induction n with
  | zero =>
    show (some x).bind parent = (parent x).bind some
    rw [Option.bind_some, Option.bind_fun_some]
  | succ n ih =>
    rw [climb, ih, Option.bind_assoc]
    rfl

theorem climb_add (parent : α → Option α) (m n : ℕ) (x : α) :
    climb parent (m + n) x = (climb parent m x).bind (climb parent n) := by
  induction n with
  | zero => exact (Option.bind_fun_some _).symm
  | succ n ih =>
    show (climb parent (m + n) x).bind parent = _
    rw [ih, Option.bind_assoc]
    rfl

/-- What is above something on the way is above it. -/
theorem climb_trans {m n : ℕ} {x y z : α} (hy : climb parent m x = some y)
    (hz : climb parent n y = some z) : climb parent (m + n) x = some z := by
  rw [climb_add, hy]
  exact hz

theorem climb_le {m n : ℕ} {x z : α} (h : climb parent n x = some z) (hle : m ≤ n) :
    ∃ y, climb parent m x = some y ∧ climb parent (n - m) y = some z := by
  rw [← Nat.add_sub_cancel' hle, climb_add] at h
  exact Option.bind_eq_some_iff.1 h

def Cyclic (parent : α → Option α) (x : α) : Prop := ∃ n, climb parent (n + 1) x = some x

def Acyclic (parent : α → Option α) : Prop := ∀ x, ¬ Cyclic parent x

/-- A cyclic element is above everything above it. -/
theorem Cyclic.returns {x y : α} {n : ℕ} (h : Cyclic parent x)
    (hy : climb parent n x = some y) : ∃ m, climb parent m y = some x := by
  obtain ⟨k, hk⟩ := h
  induction n generalizing y with
  | zero => exact ⟨0, congrArg some (Option.some.inj hy).symm⟩
  | succ n ih =>
    obtain ⟨z, hz, hzy⟩ := Option.bind_eq_some_iff.1 hy
    obtain ⟨m, hm⟩ := ih hz
    rcases m with - | m
    · -- `z` is `x` itself, so the way round goes through `y`
      obtain rfl := Option.some.inj hm
      rw [climb_succ, hzy] at hk
      exact ⟨k, hk⟩
    · rw [climb_succ, hzy] at hm
      exact ⟨m, hm⟩

theorem Cyclic.of_climb {x y : α} {n : ℕ} (h : Cyclic parent x)
    (hy : climb parent n x = some y) : Cyclic parent y := by
  obtain ⟨m, hm⟩ := h.returns hy
  obtain ⟨k, hk⟩ := h
  refine ⟨m + k + n, ?_⟩
  have hround : climb parent (m + (k + 1) + n) y = some y :=
    climb_trans (climb_trans hm hk) hy
  rw [← hround]
  congr 1
  omega

theorem Cyclic.isSome {x : α} (h : Cyclic parent x) : ∃ y, parent x = some y := by
  obtain ⟨k, hk⟩ := h
  rw [climb_succ] at hk
  obtain ⟨y, hy, -⟩ := Option.bind_eq_some_iff.1 hk
  exact ⟨y, hy⟩

/-- From a cyclic element one climbs for ever. -/
theorem Cyclic.climbs {x : α} (h : Cyclic parent x) (n : ℕ) : ∃ y, climb parent n x = some y := by
  induction n with
  | zero => exact ⟨x, rfl⟩
  | succ n ih =>
    obtain ⟨y, hy⟩ := ih
    obtain ⟨z, hz⟩ := (h.of_climb hy).isSome
    exact ⟨z, by rw [climb, hy]; exact hz⟩

/-! ### Loops -/

/-- A row of elements, each the parent of the one before, and the first that of the
last. -/
structure Loop (parent : α → Option α) (loop : List α) : Prop where
  chain : loop.IsChain fun a b => parent a = some b
  closes : ∃ first ∈ loop.head?, ∃ last ∈ loop.getLast?, parent last = some first

theorem chain_climbs {x y : α} {row : List α}
    (h : (x :: row).IsChain fun a b => parent a = some b) (hy : y ∈ x :: row) :
    ∃ n, climb parent n x = some y := by
  induction row generalizing x with
  | nil => exact ⟨0, congrArg some (List.mem_singleton.1 hy).symm⟩
  | cons z row ih =>
    rw [List.isChain_cons_cons] at h
    rcases List.mem_cons.1 hy with rfl | hy
    · exact ⟨0, rfl⟩
    · obtain ⟨n, hn⟩ := ih h.2 hy
      refine ⟨n + 1, ?_⟩
      rw [climb_succ, h.1]
      exact hn

/-- Every element of a row but the last has its parent in the row. -/
theorem chain_parent {y : α} {row : List α} (h : row.IsChain fun a b => parent a = some b)
    (hy : y ∈ row) : y ∈ row.getLast? ∨ ∃ z ∈ row, parent y = some z := by
  induction row with
  | nil => cases hy
  | cons x row ih =>
    rcases row with - | ⟨z, row⟩
    · left
      rw [List.mem_singleton.1 hy]
      rfl
    · rw [List.isChain_cons_cons] at h
      rcases List.mem_cons.1 hy with rfl | hy
      · exact .inr ⟨z, by simp, h.1⟩
      · rcases ih h.2 hy with hlast | ⟨w, hw, hparent⟩
        · exact .inl hlast
        · exact .inr ⟨w, .tail _ hw, hparent⟩

theorem chain_climbs_last {y last : α} {row : List α}
    (h : row.IsChain fun a b => parent a = some b) (hy : y ∈ row) (hlast : last ∈ row.getLast?) :
    ∃ n, climb parent n y = some last := by
  induction row with
  | nil => cases hy
  | cons x row ih =>
    rcases List.mem_cons.1 hy with rfl | hy
    · exact chain_climbs h (List.mem_of_mem_getLast? hlast)
    · rcases row with - | ⟨z, row⟩
      · cases hy
      · rw [List.isChain_cons_cons] at h
        exact ih h.2 hy hlast

variable {loop : List α}

theorem Loop.parent_mem {x y : α} (h : Loop parent loop) (hx : x ∈ loop)
    (hy : parent x = some y) : y ∈ loop := by
  obtain ⟨first, hfirst, last, hlast, hclose⟩ := h.closes
  rcases chain_parent h.chain hx with hx | ⟨z, hz, hparent⟩
  · obtain rfl : x = last := Option.some.inj (hx.symm.trans hlast)
    obtain rfl := Option.some.inj (hy.symm.trans hclose)
    exact List.mem_of_mem_head? hfirst
  · obtain rfl := Option.some.inj (hy.symm.trans hparent)
    exact hz

theorem Loop.climb_mem {x y : α} {n : ℕ} (h : Loop parent loop) (hx : x ∈ loop)
    (hy : climb parent n x = some y) : y ∈ loop := by
  induction n generalizing y with
  | zero => exact Option.some.inj hy ▸ hx
  | succ n ih =>
    obtain ⟨z, hz, hzy⟩ := Option.bind_eq_some_iff.1 hy
    exact h.parent_mem (ih hz) hzy

/-- From any element of a loop one comes to any other. -/
theorem Loop.climbs {x y : α} (h : Loop parent loop) (hx : x ∈ loop)
    (hy : y ∈ loop) : ∃ n, climb parent (n + 1) x = some y := by
  obtain ⟨first, hfirst, last, hlast, hclose⟩ := h.closes
  obtain ⟨m, hm⟩ := chain_climbs_last h.chain hx hlast
  rcases loop with - | ⟨z, loop⟩
  · cases hx
  · obtain rfl := Option.some.inj hfirst
    obtain ⟨n, hn⟩ := chain_climbs h.chain hy
    refine ⟨m + n, ?_⟩
    have hstep : climb parent (m + 1) x = some z := by
      rw [climb, hm]
      exact hclose
    have hall := climb_trans hstep hn
    rw [← hall]
    congr 1
    omega

/-- What does not rise from an element of a loop to its parent is the same all around. -/
theorem Loop.level {β : Type} [PartialOrder β] {f : α → β} (h : Loop parent loop)
    (hfalls : ∀ x ∈ loop, ∀ y, parent x = some y → f y ≤ f x) {x y : α} (hx : x ∈ loop)
    (hy : y ∈ loop) : f x = f y := by
  have hle : ∀ n, ∀ x ∈ loop, ∀ y, climb parent n x = some y → f y ≤ f x := by
    intro n
    induction n with
    | zero =>
      intro x _ y hclimb
      exact le_of_eq (congrArg f (Option.some.inj hclimb).symm)
    | succ n ih =>
      intro x hx y hclimb
      obtain ⟨z, hz, hstep⟩ := Option.bind_eq_some_iff.1 hclimb
      exact (hfalls z (h.climb_mem hx hz) y hstep).trans (ih x hx z hz)
  obtain ⟨n, hn⟩ := h.climbs hx hy
  obtain ⟨m, hm⟩ := h.climbs hy hx
  exact le_antisymm (hle _ y hy x hm) (hle _ x hx y hn)

theorem Loop.cyclic {x : α} (h : Loop parent loop) (hx : x ∈ loop) : Cyclic parent x :=
  h.climbs hx hx

/-! ### Cutting -/

section

variable [DecidableEq α]

/-- The parent function without the parents of some elements. -/
def cutAt (parent : α → Option α) (cut : List α) (x : α) : Option α :=
  if x ∈ cut then none else parent x

theorem climb_of_cutAt {cut : List α} {n : ℕ} {x y : α}
    (h : climb (cutAt parent cut) n x = some y) : climb parent n x = some y := by
  induction n generalizing y with
  | zero => exact h
  | succ n ih =>
    obtain ⟨z, hz, hzy⟩ := Option.bind_eq_some_iff.1 h
    rw [cutAt] at hzy
    split at hzy
    · cases hzy
    · rw [climb, ih hz]
      exact hzy

theorem Cyclic.of_cutAt {cut : List α} {x : α} (h : Cyclic (cutAt parent cut) x) :
    Cyclic parent x := by
  obtain ⟨n, hn⟩ := h
  exact ⟨n, climb_of_cutAt hn⟩

/-- Cut somewhere above every cyclic element, a parent function is acyclic. -/
theorem acyclic_cutAt {cut : List α}
    (h : ∀ x, Cyclic parent x → ∃ n, ∃ y ∈ cut, climb parent n x = some y) :
    Acyclic (cutAt parent cut) := by
  intro x hcyclic
  obtain ⟨n, y, hy, hclimb⟩ := h x hcyclic.of_cutAt
  obtain ⟨z, hz⟩ := hcyclic.climbs n
  obtain rfl := Option.some.inj ((climb_of_cutAt hz).symm.trans hclimb)
  obtain ⟨w, hw⟩ := (hcyclic.of_climb hz).isSome
  rw [cutAt, if_pos hy] at hw
  cases hw

end

/-! ### Finitely many elements -/

theorem Acyclic.climb_injective (h : Acyclic parent) {m n : ℕ} {x y : α}
    (hm : climb parent m x = some y) (hn : climb parent n x = some y) : m = n := by
  by_contra hne
  wlog hlt : m < n generalizing m n
  · exact this hn hm (fun heq => hne heq.symm) (by omega)
  obtain ⟨z, hz, hround⟩ := climb_le hn hlt.le
  obtain rfl := Option.some.inj (hz.symm.trans hm)
  refine h z ⟨n - m - 1, ?_⟩
  rw [← hround]
  congr 1
  omega

section

variable {elements : List α} (hclosed : ∀ x y, parent x = some y → y ∈ elements)

include hclosed

theorem climb_mem {n : ℕ} {x y : α} (hx : x ∈ elements) (h : climb parent n x = some y) :
    y ∈ elements := by
  rcases n with - | n
  · exact Option.some.inj h ▸ hx
  · obtain ⟨z, -, hz⟩ := Option.bind_eq_some_iff.1 h
    exact hclosed z y hz

/-- One does not climb more often than there are elements. -/
theorem Acyclic.climb_lt (hacyclic : Acyclic parent) {n : ℕ} {x y : α} (hx : x ∈ elements)
    (h : climb parent n x = some y) : n < elements.length := by
  classical
  have hmaps : ∀ i ∈ Finset.range (n + 1), climb parent i x ∈ (elements.map some).toFinset := by
    intro i hi
    obtain ⟨z, hz, -⟩ := climb_le h (Nat.lt_succ_iff.1 (Finset.mem_range.1 hi))
    rw [hz, List.mem_toFinset]
    exact List.mem_map_of_mem (climb_mem hclosed hx hz)
  have hinjective : Set.InjOn (fun i => climb parent i x) (Finset.range (n + 1)) := by
    intro i hi j hj heq
    obtain ⟨z, hz, -⟩ := climb_le h (Nat.lt_succ_iff.1 (Finset.mem_range.1 hi))
    exact hacyclic.climb_injective hz (heq.symm.trans hz)
  have hcard := Finset.card_le_card_of_injOn _ hmaps hinjective
  rw [Finset.card_range] at hcard
  calc n < n + 1 := n.lt_succ_self
    _ ≤ (elements.map some).toFinset.card := hcard
    _ ≤ (elements.map some).length := List.toFinset_card_le _
    _ = elements.length := List.length_map ..

/-- Above every element there is one without a parent. -/
theorem Acyclic.exists_root (hacyclic : Acyclic parent) {x : α} (hx : x ∈ elements) :
    ∃ n root, climb parent n x = some root ∧ parent root = none := by
  by_contra hnone
  push Not at hnone
  have hclimbs : ∀ n, ∃ y, climb parent n x = some y := by
    intro n
    induction n with
    | zero => exact ⟨x, rfl⟩
    | succ n ih =>
      obtain ⟨y, hy⟩ := ih
      obtain ⟨z, hz⟩ := Option.ne_none_iff_exists'.1 (hnone n y hy)
      exact ⟨z, by rw [climb, hy]; exact hz⟩
  obtain ⟨y, hy⟩ := hclimbs elements.length
  exact lt_irrefl _ (hacyclic.climb_lt hclosed hx hy)

end

end Kairon

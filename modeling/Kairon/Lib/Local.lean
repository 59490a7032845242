/-
Kairon/Lib/Local.lean

Functions of a list whose elements fall into classes, and that look only at the
elements of one class at a time.

A rule makes results of an element `a` of the list, its trigger, and of whatever
else it finds in the list.  It is local where it finds nothing outside the class
of `a`.  The results that belong to a class `H` then depend on the elements of
`H` alone (`filter_flatMap_local`), so that two lists with the same elements of
`H` have the same results there, whatever else they hold.

The last section compares rules one trigger at a time.
-/
import Mathlib

namespace Kairon.Local

variable {α β κ : Type*}

section Classes

variable [DecidableEq κ] (key : α → κ)

/-- The elements of a class, in their order. -/
def ofClass (H : κ) (l : List α) : List α := l.filter fun a => key a = H

variable {key}

variable {l : List α}

theorem mem_ofClass {H : κ} {a : α} : a ∈ ofClass key H l ↔ a ∈ l ∧ key a = H := by
  simp [ofClass]

/-- Classes and tests do not meet. -/
theorem ofClass_filter (H : κ) (p : α → Bool) (l : List α) :
    ofClass key H (l.filter p) = (ofClass key H l).filter p :=
  List.filter_comm _ _ l

theorem ofClass_cons_of_eq {H : κ} {a : α} (h : key a = H) (l : List α) :
    ofClass key H (a :: l) = a :: ofClass key H l :=
  List.filter_cons_of_pos (decide_eq_true h)

theorem ofClass_cons_of_ne {H : κ} {a : α} (h : key a ≠ H) (l : List α) :
    ofClass key H (a :: l) = ofClass key H l :=
  List.filter_cons_of_neg (by simpa using h)

theorem ofClass_append (H : κ) (l₁ l₂ : List α) :
    ofClass key H (l₁ ++ l₂) = ofClass key H l₁ ++ ofClass key H l₂ :=
  List.filter_append ..

/-- A search that finds nothing outside a class finds the same in the class. -/
theorem filterMap_ofClass {f : α → Option β} {H : κ}
    (h : ∀ a ∈ l, ∀ b, f a = some b → key a = H) : (ofClass key H l).filterMap f = l.filterMap f := by
  rw [ofClass, List.filterMap_filter]
  refine List.filterMap_congr fun a ha => ?_
  by_cases hkey : key a = H
  · rw [if_pos (decide_eq_true hkey)]
  · rw [if_neg (by simpa using hkey)]
    rcases hf : f a with - | b
    · rfl
    · exact absurd (h a ha b hf) hkey

theorem filter_ofClass {p : α → Bool} {H : κ}
    (h : ∀ a ∈ l, p a = true → key a = H) : (ofClass key H l).filter p = l.filter p := by
  rw [ofClass, List.filter_filter]
  refine List.filter_congr fun a ha => ?_
  by_cases hp : p a = true
  · simp [hp, h a ha hp]
  · simp [hp]

/-- **The results of a class come from the class.** -/
theorem filter_flatMap_local (trigger : List α → List α) (rule : List α → α → List β)
    {on : κ → β → Bool} (H : κ) (htrigger : ofClass key H (trigger l) = trigger (ofClass key H l))
    (hlocal : ∀ a ∈ trigger l, rule (ofClass key (key a) l) a = rule l a)
    (hon : ∀ a ∈ trigger l, ∀ b ∈ rule l a, on H b = decide (key a = H)) :
    ((trigger l).flatMap (rule l)).filter (on H)
      = (trigger (ofClass key H l)).flatMap (rule (ofClass key H l)) := by
  rw [← htrigger]
  generalize trigger l = triggers at hlocal hon
  induction triggers with
  | nil => rfl
  | cons a triggers ih =>
    have ih := ih (fun b hb => hlocal b (.tail _ hb))
      (fun b hb => hon b (.tail _ hb))
    have hon := hon a (.head _)
    rw [List.flatMap_cons, List.filter_append, ih]
    by_cases hkey : key a = H
    · have hall : (rule l a).filter (on H) = rule l a :=
        List.filter_eq_self.2 fun b hb => (hon b hb).trans (decide_eq_true hkey)
      have hrule := hlocal a (.head _)
      rw [ofClass_cons_of_eq hkey, List.flatMap_cons, hall, ← hrule, hkey]
    · have hnone : (rule l a).filter (on H) = [] :=
        List.filter_eq_nil_iff.2 fun b hb => by rw [hon b hb]; simpa using hkey
      rw [ofClass_cons_of_ne hkey, hnone, List.nil_append]

/-- The same for a rule that makes at most one result. -/
theorem filter_filterMap_local (trigger : List α → List α) (rule : List α → α → Option β)
    {on : κ → β → Bool} (H : κ) (htrigger : ofClass key H (trigger l) = trigger (ofClass key H l))
    (hlocal : ∀ a ∈ trigger l, rule (ofClass key (key a) l) a = rule l a)
    (hon : ∀ a ∈ trigger l, ∀ b, rule l a = some b → on H b = decide (key a = H)) :
    ((trigger l).filterMap (rule l)).filter (on H)
      = (trigger (ofClass key H l)).filterMap (rule (ofClass key H l)) := by
  rw [List.filterMap_eq_flatMap_toList, List.filterMap_eq_flatMap_toList]
  refine filter_flatMap_local trigger (fun l a => (rule l a).toList) H htrigger ?_ ?_
  · exact fun a ha => congrArg Option.toList (hlocal a ha)
  · exact fun a ha b hb => hon a ha b (Option.mem_toList.1 hb)

/-- Where the longer of two lists begins with elements of a class, the shorter one, which lacks
none of that class, begins with them too. -/
theorem take_eq_take {H : κ} {l l' : List α} (h : l.Sublist l')
    (hclass : ofClass key H l = ofClass key H l') (n : ℕ) (hfront : ∀ a ∈ l'.take n, key a = H) :
    l.take n = l'.take n := by
  induction h generalizing n with
  | slnil => rfl
  | @cons l l' a h ih =>
    rcases n with - | n
    · rfl
    · -- an element of the class cannot be missing
      have ha := hfront a (by simp)
      have hlength := congrArg List.length hclass
      rw [ofClass_cons_of_eq ha, List.length_cons] at hlength
      have hle : (ofClass key H l).length ≤ (ofClass key H l').length :=
        (h.filter _).length_le
      omega
  | @cons_cons l l' a h ih =>
    rcases n with - | n
    · rfl
    · have ha := hfront a (by simp)
      rw [ofClass_cons_of_eq ha, ofClass_cons_of_eq ha] at hclass
      rw [List.take_succ_cons, List.take_succ_cons, ih (List.cons.inj hclass).2 n
        fun b hb => hfront b (by rw [List.take_succ_cons]; exact .tail _ hb)]

end Classes

/-! ### Trigger by trigger -/

variable {f g : α → Option β}

/-- Two rules that make a result of the same triggers agree on the list if they agree everywhere. -/
theorem filterMap_eq_iff_of_isSome {l : List α} (h : ∀ a ∈ l, (f a).isSome = (g a).isSome) :
    l.filterMap f = l.filterMap g ↔ ∀ a ∈ l, f a = g a := by
  refine ⟨fun heq => ?_, List.filterMap_congr⟩
  induction l with
  | nil => exact fun a ha => absurd ha List.not_mem_nil
  | cons a l ih =>
    have hrest : ∀ b ∈ l, (f b).isSome = (g b).isSome :=
      fun b hb => h b (.tail _ hb)
    have ha := h a (.head _)
    rcases hf : f a with - | b
    · have hg : g a = none := by simpa [hf] using ha.symm
      rw [List.filterMap_cons_none hf, List.filterMap_cons_none hg] at heq
      exact List.forall_mem_cons.2 ⟨hf.trans hg.symm, ih hrest heq⟩
    · obtain ⟨c, hg⟩ := Option.isSome_iff_exists.1 (ha.symm.trans (by rw [hf]; rfl))
      rw [List.filterMap_cons_some hf, List.filterMap_cons_some hg] at heq
      obtain ⟨hbc, htail⟩ := List.cons.inj heq
      exact List.forall_mem_cons.2 ⟨hf.trans (hbc ▸ hg.symm), ih hrest htail⟩

/-- Two such rules agree on a class if they agree on its elements. -/
theorem filterMap_ofClass_eq_iff [DecidableEq κ] {key : α → κ} {H : κ}
    {l : List α} {P : α → Prop} (hsome : ∀ a, (f a).isSome = (g a).isSome)
    (hiff : ∀ a, key a = H → (f a = g a ↔ P a)) :
    (ofClass key H l).filterMap f = (ofClass key H l).filterMap g ↔ ∀ a ∈ l, key a = H → P a := by
  rw [filterMap_eq_iff_of_isSome fun a _ => hsome a]
  refine ⟨fun h a ha hkey => (hiff a hkey).1 (h a (mem_ofClass.2 ⟨ha, hkey⟩)), fun h a ha => ?_⟩
  obtain ⟨ha, hkey⟩ := mem_ofClass.1 ha
  exact (hiff a hkey).2 (h a ha hkey)

theorem length_filterMap_le {l : List α}
    (h : ∀ a ∈ l, g a = f a ∨ g a = none) : (l.filterMap g).length ≤ (l.filterMap f).length := by
  induction l with
  | nil => exact le_rfl
  | cons a l ih =>
    have ih := ih fun b hb => h b (.tail _ hb)
    rcases h a (.head _) with hg | hg
    · rcases hf : f a with - | b
      · rw [List.filterMap_cons_none hf, List.filterMap_cons_none (hg.trans hf)]
        exact ih
      · rw [List.filterMap_cons_some hf, List.filterMap_cons_some (hg.trans hf)]
        exact Nat.succ_le_succ ih
    · rw [List.filterMap_cons_none hg]
      refine ih.trans ?_
      rcases hf : f a with - | b
      · rw [List.filterMap_cons_none hf]
      · rw [List.filterMap_cons_some hf]
        exact Nat.le_succ _

/-- A rule that only loses results agrees on the list if it loses none. -/
theorem filterMap_eq_iff_of_le {l : List α} (h : ∀ a ∈ l, g a = f a ∨ g a = none) :
    l.filterMap g = l.filterMap f ↔ ∀ a ∈ l, g a = f a := by
  refine ⟨fun heq => ?_, List.filterMap_congr⟩
  induction l with
  | nil => exact fun a ha => absurd ha List.not_mem_nil
  | cons a l ih =>
    have hrest : ∀ b ∈ l, g b = f b ∨ g b = none := fun b hb => h b (.tail _ hb)
    rcases hf : f a with - | b
    · have hg : g a = none := by simpa [hf] using h a (.head _)
      rw [List.filterMap_cons_none hf, List.filterMap_cons_none hg] at heq
      exact List.forall_mem_cons.2 ⟨hg.trans hf.symm, ih hrest heq⟩
    · rcases h a (.head _) with hg | hg
      · rw [List.filterMap_cons_some hf, List.filterMap_cons_some (hg.trans hf)] at heq
        exact List.forall_mem_cons.2 ⟨hg, ih hrest (List.cons.inj heq).2⟩
      · -- a lost result leaves fewer than there were
        rw [List.filterMap_cons_some hf, List.filterMap_cons_none hg] at heq
        have hle := length_filterMap_le hrest
        rw [heq, List.length_cons] at hle
        exact absurd hle (Nat.not_succ_le_self _)

/-! ### Group by group -/

variable {groups : List (List β × List β)}

theorem length_flatten_le (h : ∀ g ∈ groups, g.2.length ≤ g.1.length) :
    (groups.map Prod.snd).flatten.length ≤ (groups.map Prod.fst).flatten.length := by
  induction groups with
  | nil => exact le_rfl
  | cons g groups ih =>
    have ih := ih fun g' hg' => h g' (.tail _ hg')
    have hg := h g (.head _)
    rw [List.map_cons, List.map_cons, List.flatten_cons, List.flatten_cons, List.length_append,
      List.length_append]
    omega

/-- Groups that can only shrink are the same once the whole is. -/
theorem flatten_eq_iff (h : ∀ g ∈ groups, g.2.length ≤ g.1.length) :
    (groups.map Prod.fst).flatten = (groups.map Prod.snd).flatten ↔ ∀ g ∈ groups, g.1 = g.2 := by
  constructor
  · intro heq
    induction groups with
    | nil => exact fun g hg => absurd hg List.not_mem_nil
    | cons g groups ih =>
      have hrest : ∀ g' ∈ groups, g'.2.length ≤ g'.1.length :=
        fun g' hg' => h g' (.tail _ hg')
      have hg := h g (.head _)
      have hle := length_flatten_le hrest
      rw [List.map_cons, List.map_cons, List.flatten_cons, List.flatten_cons] at heq
      have hlength := congrArg List.length heq
      rw [List.length_append, List.length_append] at hlength
      obtain ⟨hfirst, hothers⟩ := List.append_inj heq (by omega)
      exact List.forall_mem_cons.2 ⟨hfirst, ih hrest hothers⟩
  · intro heq
    rw [List.map_congr_left heq]

end Kairon.Local

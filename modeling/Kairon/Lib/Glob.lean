/-
Kairon/Lib/Glob.lean

Patterns of literals, "any one symbol" and "any run of symbols", and a
matcher for them.

The matcher is the one of a backtracking regular expression: which symbols a
wildcard may stand for (`dot`) and what may be left over at the end (`stop`)
are parameters.  On texts whose symbols a wildcard may all stand for, and
where nothing but the empty text may be left over, it decides the declarative
relation `Matches` (`run_eq_true_iff`).
-/
import Mathlib.Data.List.Basic

namespace Kairon.Glob

/-- One piece of a pattern. -/
inductive Piece (α : Type*)
  | star
  | any
  | lit (a : α)

section

variable {α : Type*} (same : α → α → Bool)

/-- The text is made of runs, symbols and letters as the pattern asks. -/
inductive Matches : List (Piece α) → List α → Prop
  | nil : Matches [] []
  | star {ps : List (Piece α)} {t : List α} (s : List α) :
      Matches ps t → Matches (.star :: ps) (s ++ t)
  | any {ps : List (Piece α)} {t : List α} (c : α) :
      Matches ps t → Matches (.any :: ps) (c :: t)
  | lit {ps : List (Piece α)} {t : List α} {a c : α} :
      same a c = true → Matches ps t → Matches (.lit a :: ps) (c :: t)

/-- What can be left of a text after a run of symbols that satisfy `dot`. -/
def leftovers (dot : α → Bool) : List α → List (List α)
  | [] => [[]]
  | c :: t => (c :: t) :: if dot c then leftovers dot t else []

/-- The backtracking matcher. -/
def run (dot : α → Bool) (stop : List α → Bool) : List (Piece α) → List α → Bool
  | [], t => stop t
  | .star :: ps, t => (leftovers dot t).any (run dot stop ps)
  | .any :: ps, c :: t => dot c && run dot stop ps t
  | .lit a :: ps, c :: t => same a c && run dot stop ps t
  | .any :: _, [] => false
  | .lit _ :: _, [] => false

variable {dot : α → Bool}

theorem mem_leftovers {s r : List α} :
    r ∈ leftovers dot s ↔ ∃ q, s = q ++ r ∧ ∀ c ∈ q, dot c = true := by
  induction s with
  | nil =>
    simp only [leftovers, List.mem_singleton, List.nil_eq_append_iff]
    constructor
    · rintro rfl
      exact ⟨[], ⟨rfl, rfl⟩, by simp⟩
    · rintro ⟨q, ⟨-, h⟩, -⟩
      exact h
  | cons c t ih =>
    simp only [leftovers, List.mem_cons]
    constructor
    · rintro (rfl | h)
      · exact ⟨[], rfl, by simp⟩
      · split at h
        case isTrue hc =>
          obtain ⟨q, rfl, hq⟩ := ih.1 h
          exact ⟨c :: q, rfl, by simpa [hc] using hq⟩
        case isFalse => simp at h
    · rintro ⟨q, hs, hq⟩
      obtain - | ⟨d, q⟩ := q
      · exact .inl hs.symm
      · obtain ⟨rfl, rfl⟩ : c = d ∧ t = q ++ r := by simpa using hs
        right
        rw [if_pos (hq c (by simp))]
        exact ih.2 ⟨q, rfl, fun e he => hq e (by simp [he])⟩

/-- The matcher decides the relation on texts that wildcards can range over. -/
theorem run_eq_true_iff {stop : List α → Bool} {ps : List (Piece α)}
    {t : List α} (hdot : ∀ c ∈ t, dot c = true)
    (hstop : ∀ r, r <:+ t → (stop r = true ↔ r = [])) :
    run same dot stop ps t = true ↔ Matches same ps t := by
  induction ps generalizing t with
  | nil =>
    rw [run, hstop t (List.suffix_refl t)]
    constructor
    · rintro rfl
      exact .nil
    · rintro ⟨⟩
      rfl
  | cons piece ps ih =>
    cases piece with
    | star =>
      simp only [run, List.any_eq_true, mem_leftovers]
      constructor
      · rintro ⟨r, ⟨q, rfl, -⟩, hr⟩
        have hr' := (ih (fun c hc => hdot c (by simp [hc]))
          (fun s hs => hstop s (hs.trans (List.suffix_append q r)))).1 hr
        exact .star q hr'
      · intro h
        cases h with
        | @star _ r q h =>
          refine ⟨r, ⟨q, rfl, fun c hc => hdot c (by simp [hc])⟩, ?_⟩
          exact (ih (fun c hc => hdot c (by simp [hc]))
            (fun s hs => hstop s (hs.trans (List.suffix_append q r)))).2 h
    | any =>
      obtain - | ⟨c, t⟩ := t
      · rw [run]
        exact ⟨by simp, fun h => by cases h⟩
      · have ht := ih (t := t) (fun d hd => hdot d (by simp [hd]))
          (fun s hs => hstop s (hs.trans (List.suffix_cons c t)))
        rw [run, hdot c (by simp), Bool.true_and, ht]
        constructor
        · exact fun h => .any c h
        · intro h
          cases h with
          | any _ h => exact h
    | lit a =>
      obtain - | ⟨c, t⟩ := t
      · rw [run]
        exact ⟨by simp, fun h => by cases h⟩
      · have ht := ih (t := t) (fun d hd => hdot d (by simp [hd]))
          (fun s hs => hstop s (hs.trans (List.suffix_cons c t)))
        rw [run, Bool.and_eq_true, ht]
        constructor
        · exact fun h => .lit h.1 h.2
        · intro h
          cases h with
          | lit hac h => exact ⟨hac, h⟩

/-- Letters that the pattern cannot tell apart can be exchanged. -/
theorem Matches.congr_head {ps : List (Piece α)} {c d : α} {t : List α}
    (hcd : ∀ a, same a c = same a d) (h : Matches same ps (c :: t)) :
    Matches same ps (d :: t) := by
  induction ps with
  | nil => cases h
  | cons piece ps ih =>
    generalize hs : c :: t = s at h
    cases h with
    | @star _ r q h =>
      obtain - | ⟨e, q⟩ := q
      · obtain rfl : c :: t = r := by simpa using hs
        exact .star [] (ih h)
      · obtain ⟨rfl, rfl⟩ : c = e ∧ t = q ++ r := by simpa using hs
        exact .star (d :: q) h
    | any e h =>
      obtain ⟨rfl, rfl⟩ := by simpa using hs
      exact .any d h
    | lit hac h =>
      obtain ⟨rfl, rfl⟩ := by simpa using hs
      exact .lit (by rw [← hcd]; exact hac) h

/-- Letters alone are met by themselves. -/
theorem matches_letters_iff [DecidableEq α] {letters t : List α} :
    Matches (fun a c => a = c) (letters.map .lit) t ↔ t = letters := by
  induction letters generalizing t with
  | nil =>
    constructor
    · rintro ⟨⟩
      rfl
    · rintro rfl
      exact .nil
  | cons a letters ih =>
    constructor
    · intro h
      cases h with
      | lit hac h => rw [of_decide_eq_true hac, ih.mp h]
    · rintro rfl
      exact .lit (decide_eq_true rfl) (ih.mpr rfl)

/-- Letters between two runs of any symbols: an infix of the text. -/
theorem matches_around_iff {letters t : List α} :
    Matches same (.star :: (letters.map .lit ++ [.star])) t ↔
      ∃ s, s <:+: t ∧ List.Forall₂ (fun a c => same a c = true) letters s := by
  have htail : ∀ (letters t : List α), Matches same (letters.map .lit ++ [.star]) t ↔
      ∃ s, s <+: t ∧ List.Forall₂ (fun a c => same a c = true) letters s := by
    intro letters
    induction letters with
    | nil =>
      intro t
      refine ⟨fun _ => ⟨[], List.nil_prefix, .nil⟩, fun _ => ?_⟩
      have hall : Matches same [.star] (t ++ []) := .star t .nil
      rwa [List.append_nil] at hall
    | cons a letters ih =>
      intro t
      constructor
      · intro h
        cases h with
        | lit hac h =>
          obtain ⟨s, hs, hletters⟩ := (ih _).mp h
          exact ⟨_ :: s, List.cons_prefix_cons.mpr ⟨rfl, hs⟩, .cons hac hletters⟩
      · rintro ⟨s, ⟨rest, rfl⟩, hletters⟩
        cases hletters with
        | cons hac hletters =>
          exact .lit hac ((ih _).mpr ⟨_, List.prefix_append _ rest, hletters⟩)
  constructor
  · intro h
    cases h with
    | star front h =>
      obtain ⟨s, hs, hletters⟩ := (htail letters _).mp h
      exact ⟨s, hs.isInfix.trans (List.suffix_append front _).isInfix, hletters⟩
  · rintro ⟨s, ⟨front, back, rfl⟩, hletters⟩
    rw [List.append_assoc]
    exact .star front ((htail letters _).mpr ⟨s, List.prefix_append s back, hletters⟩)

end

end Kairon.Glob

/-
Kairon/Lib/Latest.lean

What was written last under a key, in a log of entries some of which carry a value.

The log may be made of parts that are moved to its end, taken out or replaced.
The last value survives as long as every part that moves carries, for each key,
either no value or the last one (`latest_flatMap_append`), and a part may go if what
is left still ends in the last value (`latest_flatMap_filter`).
-/
import Mathlib

namespace Kairon.Latest

variable {α β δ κ : Type} [DecidableEq κ] {key : α → κ} {val : α → Option β}

/-- The last value under a key. -/
def latest (key : α → κ) (val : α → Option β) (log : List α) (k : κ) : Option β :=
  ((log.filter fun a => key a = k).filterMap val).getLast?

theorem latest_append (xs ys : List α) (k : κ) :
    latest key val (xs ++ ys) k = (latest key val ys k).or (latest key val xs k) := by
  rw [latest, List.filter_append, List.filterMap_append, List.getLast?_append]
  rfl

theorem latest_concat_self {a : α} (log : List α) :
    latest key val (log ++ [a]) (key a) = (val a).or (latest key val log (key a)) := by
  have hself : latest key val [a] (key a) = val a := by
    rw [latest, List.filter_cons_of_pos (by simp), List.filter_nil]
    rcases ha : val a with - | b
    · rw [List.filterMap_cons_none ha]
      rfl
    · rw [List.filterMap_cons_some ha]
      rfl
  rw [latest_append, hself]

theorem latest_concat_ne {a : α} {k : κ} (hk : key a ≠ k) (log : List α) :
    latest key val (log ++ [a]) k = latest key val log k := by
  rw [latest_append, latest, List.filter_cons_of_neg (by simpa using hk)]
  rfl

theorem latest_eq_none_iff {log : List α} {k : κ} :
    latest key val log k = none ↔ ∀ a ∈ log, key a = k → val a = none := by
  rw [latest, List.getLast?_eq_none_iff, List.filterMap_eq_nil_iff]
  simp only [List.mem_filter, decide_eq_true_eq, and_imp]

/-- The last value was written by an entry. -/
theorem latest_eq_some {log : List α} {k : κ} {b : β} (h : latest key val log k = some b) :
    ∃ a ∈ log, key a = k ∧ val a = some b := by
  obtain ⟨a, ha, hval⟩ := List.mem_filterMap.1 (List.mem_of_getLast? h)
  obtain ⟨ha, hk⟩ := List.mem_filter.1 ha
  exact ⟨a, ha, of_decide_eq_true hk, hval⟩

theorem latest_isSome {log : List α} {a : α} (ha : a ∈ log) (hval : val a ≠ none) :
    latest key val log (key a) ≠ none := fun h =>
  hval (latest_eq_none_iff.1 h a ha rfl)

/-- All entries of a key carry the same value. -/
theorem latest_eq_of_forall {log : List α} {k : κ} {b : Option β}
    (h : ∀ a ∈ log, key a = k → val a = b) :
    latest key val log k = none ∨ latest key val log k = b := by
  rcases hlast : latest key val log k with - | c
  · exact .inl rfl
  · obtain ⟨a, ha, hk, hval⟩ := latest_eq_some hlast
    exact .inr (hval.symm.trans (h a ha hk))

/-! ### Logs in parts -/

variable {content : δ → List α}

/-- Parts without the key may go. -/
theorem latest_flatMap_filter {parts : List δ} {p : δ → Bool} {k : κ}
    (h : ∀ d ∈ parts, p d = false → latest key val (content d) k = none) :
    latest key val ((parts.filter p).flatMap content) k =
      latest key val (parts.flatMap content) k := by
  induction parts with
  | nil => rfl
  | cons d parts ih =>
    obtain ⟨hd, hparts⟩ := List.forall_mem_cons.1 h
    rw [List.flatMap_cons, latest_append]
    cases hp : p d with
    | true =>
      rw [List.filter_cons_of_pos hp, List.flatMap_cons, latest_append, ih hparts]
    | false =>
      rw [List.filter_cons_of_neg (by simp [hp]), ih hparts, hd hp, Option.or_none]

/-- Parts that agree on a value: the log of them has it, unless none of them has the
key. -/
theorem latest_flatMap_of_agree {parts : List δ} {k : κ} {b : Option β}
    (h : ∀ d ∈ parts, latest key val (content d) k = none ∨ latest key val (content d) k = b) :
    (∀ d ∈ parts, latest key val (content d) k = none) ∨
      latest key val (parts.flatMap content) k = b := by
  induction parts with
  | nil => exact .inl fun d hd => absurd hd List.not_mem_nil
  | cons d parts ih =>
    obtain ⟨hd, hparts⟩ := List.forall_mem_cons.1 h
    rw [List.flatMap_cons, latest_append]
    rcases ih hparts with hnone | hsome
    · have hrest : latest key val (parts.flatMap content) k = none := by
        rw [latest_eq_none_iff]
        intro a ha hk
        obtain ⟨d', hd', ha⟩ := List.mem_flatMap.1 ha
        exact latest_eq_none_iff.1 (hnone d' hd') a ha hk
      rw [hrest, Option.none_or]
      rcases hd with hd | hd
      · exact .inl (List.forall_mem_cons.2 ⟨hd, hnone⟩)
      · exact .inr hd
    · rw [hsome]
      rcases b with - | b
      · rw [Option.none_or]
        exact .inr (hd.elim id id)
      · exact .inr rfl

/-- Parts are put at the end of what is left of the log.  If they agree with the last
value `b`, it stays the last one, provided what is left ends in it or one of them has
it. -/
theorem latest_flatMap_append {rest moved : List δ} {k : κ} {b : Option β}
    (hmoved : ∀ d ∈ moved, latest key val (content d) k = none ∨ latest key val (content d) k = b)
    (hrest : (∀ d ∈ moved, latest key val (content d) k = none) →
      latest key val (rest.flatMap content) k = b) :
    latest key val ((rest ++ moved).flatMap content) k = b := by
  rw [List.flatMap_append, latest_append]
  by_cases hnone : ∀ d ∈ moved, latest key val (content d) k = none
  · have hmoved' : latest key val (moved.flatMap content) k = none := by
      rw [latest_eq_none_iff]
      intro a ha hk
      obtain ⟨d, hd, ha⟩ := List.mem_flatMap.1 ha
      exact latest_eq_none_iff.1 (hnone d hd) a ha hk
    rw [hmoved', Option.none_or, hrest hnone]
  · rw [(latest_flatMap_of_agree hmoved).resolve_left hnone]
    rcases b with - | b
    · exact absurd (fun d hd => (hmoved d hd).elim id id) hnone
    · rfl

end Kairon.Latest

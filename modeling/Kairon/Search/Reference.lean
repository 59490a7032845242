/-
Kairon/Search/Reference.lean

What a query means to the index.

A field holds the values found under its path, with lists opened at any depth
and nulls left out.  Numbers are compared as numbers, timestamps as instants,
keywords after lower-casing; a wildcard pattern is matched without regard to
case, `*` standing for any text and `?` for any one character.  How free text
and phrases are matched is left open.
-/
import Kairon.Search.Safety

namespace Kairon.Search

open Glob

/-! ### Indexed values -/

section Values

variable {F : Type}

mutual

/-- The values a JSON value stands for. -/
def flat : Json F → List (Json F)
  | .null => []
  | .arr items => flatAll items
  | .bool b => [.bool b]
  | .int n => [.int n]
  | .float x => [.float x]
  | .str s => [.str s]
  | .obj fields => [.obj fields]

def flatAll : List (Json F) → List (Json F)
  | [] => []
  | v :: vs => flat v ++ flatAll vs

end

/-- What an object holds under a name. -/
def fieldOf (part : Text) : Json F → Option (Json F)
  | .obj fields => getField fields part
  | _ => none

/-- The values under a path. -/
def indexedAt : List Text → Json F → List (Json F)
  | [], v => flat v
  | part :: parts, v => (flat v).flatMap fun item => ((fieldOf part item).map (indexedAt parts)).getD []

def indexedValues (payload : List (Text × Json F)) (path : Text) : List (Json F) :=
  indexedAt (splitPath path) (.obj payload)

end Values

/-! ### Matching -/

section Matching

variable {F : Type} (p : Platform F)

/-- The text of a value in a keyword field. -/
def Platform.keywordText : Json F → Option Text
  | .str s => some s
  | .int n => some (intStr n)
  | .float x => some (p.floatStr x)
  | .bool true => some "true".toList
  | .bool false => some "false".toList
  | .null => none
  | .arr _ => none
  | .obj _ => none

/-- The number in a numeric field; a text stands for the number it spells. -/
def Platform.number : Json F → Option Num
  | .int n => some (.ofInt n)
  | .float x => p.floatNum x
  | .str s => ((p.parseInt s).map Num.ofInt).or (p.parseFloat s)
  | .null => none
  | .bool _ => none
  | .arr _ => none
  | .obj _ => none

/-- 1970-01-01 in microseconds. -/
def epochStamp : ℤ := 719163 * dayMicros

/-- The instant in a date field; a number counts milliseconds from 1970 on. -/
def Platform.instantOf : Json F → Option ℤ
  | .str s => p.instant s
  | .int n => some (epochStamp + 1000 * n)
  | .null => none
  | .bool _ => none
  | .float _ => none
  | .arr _ => none
  | .obj _ => none

/-- A term against a value. -/
def termMatches : Operand → Json F → Prop
  | .number y, v => p.number v = some y
  | .date d, v => p.instantOf v = some (d.stamp : ℤ)
  | .text s, v => ∃ t, p.keywordText v = some t ∧ p.lower t = p.lower s

/-- A range against a value. -/
def rangeMatches (bound : Bound) : Operand → Json F → Prop
  | .number y, v => ∃ x, p.number v = some x ∧ bound.holds x y = true
  | .date d, v => ∃ x, p.instantOf v = some x ∧ bound.holds x (d.stamp : ℤ) = true
  | .text s, v => ∃ t, p.keywordText v = some t ∧ bound.holds (p.lower t) (p.lower s) = true

/-- A wildcard pattern against a value. -/
def wildcardMatches (pattern : Text) (v : Json F) : Prop :=
  ∃ t, p.keywordText v = some t ∧ Glob.Matches p.sameLetter (pieces pattern) t

/-- What the index makes of free text and of phrases. -/
structure Analyzer (F Q : Type) where
  matchesText : Q → List (Text × Json F) → Prop
  matchesPhrase : Text → Json F → Prop

variable {Q : Type} (analyzer : Analyzer F Q) (payload : List (Text × Json F))

mutual

/-- The query matches the document. -/
def Clause.Matches : Clause Q → Prop
  | .textQuery q => analyzer.matchesText q payload
  | .exists path => indexedValues payload path ≠ []
  | .range path bound operand =>
    ∃ v ∈ indexedValues payload path, rangeMatches p bound operand v
  | .term path operand => ∃ v ∈ indexedValues payload path, termMatches p operand v
  | .wildcard path value => ∃ v ∈ indexedValues payload path, wildcardMatches p value v
  | .matchPhrase path value =>
    ∃ v ∈ indexedValues payload path, analyzer.matchesPhrase value v
  | .should clauses => AnyMatches clauses
  | .must clauses => AllMatch clauses
  | .mustNot clauses => ¬ AnyMatches clauses

def AnyMatches : List (Clause Q) → Prop
  | [] => False
  | c :: cs => c.Matches ∨ AnyMatches cs

def AllMatch : List (Clause Q) → Prop
  | [] => True
  | c :: cs => c.Matches ∧ AllMatch cs

end

theorem matches_shouldOf (cs : List (Clause Q)) :
    (shouldOf cs).Matches p analyzer payload ↔ AnyMatches p analyzer payload cs := by
  obtain - | ⟨c, - | ⟨c', cs⟩⟩ := cs
  · rfl
  · simp [shouldOf, AnyMatches]
  · rfl

theorem anyMatches_map {α : Type} (f : α → Clause Q) (as : List α) :
    AnyMatches p analyzer payload (as.map f) ↔ ∃ a ∈ as, (f a).Matches p analyzer payload := by
  induction as with
  | nil => simp [AnyMatches]
  | cons a as ih => simp [AnyMatches, ih]

end Matching

/-! ### Lists in documents -/

section Lists

variable {F : Type}

/-- Not a list. -/
def Json.Single : Json F → Prop
  | .arr _ => False
  | _ => True

/-- Not null. -/
def Json.present : Json F → Bool
  | .null => false
  | _ => true

/-- No list under the path is an element of a list. -/
def NoNestedLists : List Text → Json F → Prop
  | [], _ => True
  | part :: parts, v => ∀ w, fieldOf part v = some w →
      ∀ x ∈ flattenItem w, x.Single ∧ NoNestedLists parts x

theorem flatAll_eq (items : List (Json F)) : flatAll items = items.flatMap flat := by
  induction items with
  | nil => rfl
  | cons v vs ih => rw [flatAll, ih, List.flatMap_cons]

theorem flat_single {v : Json F} (h : v.Single) : flat v = [v].filter Json.present := by
  cases v with
  | arr items => exact absurd h id
  | null => rfl
  | bool b => rfl
  | int n => rfl
  | float x => rfl
  | str s => rfl
  | obj fields => rfl

/-- A list under a path is the row of its elements. -/
theorem indexedAt_arr (parts : List Text) (items : List (Json F)) :
    indexedAt parts (.arr items) = items.flatMap (indexedAt parts) := by
  cases parts with
  | nil => exact flatAll_eq items
  | cons part parts =>
    show (flatAll items).flatMap _ = _
    rw [flatAll_eq, List.flatMap_assoc]
    rfl

theorem indexedAt_null (parts : List Text) : indexedAt parts (.null : Json F) = [] := by
  cases parts with
  | nil => rfl
  | cons part parts => rfl

/-- One step of `_iter_values` on an item that is not a list. -/
theorem itemValues_flatMap (part : Text) (parts : List Text) {v : Json F} (h : v.Single) :
    (itemValues part v).flatMap (indexedAt parts) = indexedAt (part :: parts) v := by
  cases v with
  | arr items => exact absurd h id
  | null => rfl
  | bool b => rfl
  | int n => rfl
  | float x => rfl
  | str s => rfl
  | obj fields =>
    simp only [itemValues, indexedAt, flat, fieldOf, List.flatMap_cons, List.flatMap_nil,
      List.append_nil]
    cases getField fields part with
    | none => rfl
    | some w =>
      cases w with
      | arr items => exact (indexedAt_arr parts items).symm
      | null => exact (indexedAt_null parts).symm
      | bool b => simp
      | int n => simp
      | float x => simp
      | str s => simp
      | obj fields => simp

/-- The items after one step, where no list is an element of a list. -/
theorem itemValues_single {part : Text} {parts : List Text} {v : Json F} (hv : v.Single)
    (h : NoNestedLists (part :: parts) v) :
    ∀ x ∈ itemValues part v, x.Single ∧ NoNestedLists parts x := by
  cases v with
  | arr items => exact absurd hv id
  | null | bool b | int n | float x | str s => simp [itemValues]
  | obj fields =>
    intro x hx
    simp only [itemValues] at hx
    cases hw : getField fields part with
    | none => simp [hw] at hx
    | some w =>
      refine h w hw x ?_
      rw [hw] at hx
      cases w with
      | arr items => exact hx
      | null => simp at hx
      | bool b => exact hx
      | int n => exact hx
      | float x => exact hx
      | str s => exact hx
      | obj fields => exact hx

theorem stepValues_filter (parts : List Text) {items : List (Json F)}
    (h : ∀ v ∈ items, v.Single ∧ NoNestedLists parts v) :
    ((stepValues parts items).flatMap flattenItem).filter Json.present =
      items.flatMap (indexedAt parts) := by
  induction parts generalizing items with
  | nil =>
    rw [stepValues]
    induction items with
    | nil => rfl
    | cons v vs ih =>
      have hv : v.Single := (h v (by simp)).1
      have hitem : flattenItem v = [v] := by
        cases v with
        | arr items => exact absurd hv id
        | null => rfl
        | bool b => rfl
        | int n => rfl
        | float x => rfl
        | str s => rfl
        | obj fields => rfl
      rw [List.flatMap_cons, List.flatMap_cons, List.filter_append, hitem,
        ih fun w hw => h w (by simp [hw])]
      show _ = flat v ++ _
      rw [flat_single hv]
  | cons part parts ih =>
    rw [stepValues, ih, List.flatMap_assoc]
    · -- the steps of the two readings agree item by item
      refine List.flatMap_congr fun v hv => ?_
      exact itemValues_flatMap part parts (h v hv).1
    · intro x hx
      obtain ⟨v, hv, hx⟩ := List.mem_flatMap.1 hx
      exact itemValues_single (h v hv).1 (h v hv).2 x hx

/-- Without lists in lists, the values in memory are the indexed values and
nulls. -/
theorem iterValues_filter {payload : List (Text × Json F)} {path : Text}
    (h : NoNestedLists (splitPath path) (.obj payload)) :
    (iterValues payload path).filter Json.present = indexedValues payload path := by
  rw [iterValues, stepValues_filter]
  · simp [indexedValues]
  · intro v hv
    obtain rfl : v = .obj payload := by simpa using hv
    exact ⟨trivial, h⟩

end Lists

end Kairon.Search

/-
Kairon/Sigma/Windash.lean

What `windash` does to the condition on a field.

`swaps` are the texts in which the option prefixes of a value stand with other dashes; an
option prefix is a dash or a slash at the beginning of a word.  The modifier replaces one
dash at a time (`Redashed`), anywhere in the value, and adds the results to the values.  So
a value with two options is not found with both of them swapped, and under `all` the event
has to hold every variant at once.

`onlyWidens_iff_covered` says for which values the modifier does its work: the comparisons
are transitive, so that it is enough to look at the events that hold the swapped values
themselves.  Lower case is a parameter, and the bare names that stand for a path need that
it keeps slashes where they are (`LowerKeepsSlash`).
-/
import Kairon.Lib.Url
import Kairon.Sigma.Agreement
import Kairon.Sigma.Safety

namespace Kairon.Sigma

open Search (Text Json isSpace strip splitPath getField)
open Settle

/-- The comparisons that do not compile a pattern. -/
inductive PlainComparison
  | equals | contains | startswith | endswith

def PlainComparison.compare : PlainComparison → Option Comparison
  | .equals => none
  | .contains => some .contains
  | .startswith => some .startswith
  | .endswith => some .endswith

/-- A field of a rule with one of these comparisons, and the same field with `windash`. -/
structure AddsWindash (field field' : Text) (compare : PlainComparison) (all : Bool) : Prop where
  plain : (parseFieldModifiers field).2 = (⟨compare.compare, all⟩, [])
  dashed : (parseFieldModifiers field').2 = (⟨compare.compare, all⟩, ["windash".toList])
  base : baseField field' = baseField field

/-- The values with their option prefixes swapped; `start` says that a word begins. -/
def swaps : Bool → Text → List Text
  | _, [] => [[]]
  | start, c :: t =>
    (if start ∧ c ∈ windashVariants then windashVariants else [c]).flatMap fun d =>
      (swaps (isSpace c) t).map (d :: ·)

/-- The number of option prefixes. -/
def options : Bool → Text → ℕ
  | _, [] => 0
  | start, c :: t => (if start ∧ c ∈ windashVariants then 1 else 0) + options (isSpace c) t

/-- The text with at most one of its dashes replaced. -/
def Redashed (value other : Text) : Prop :=
  other = value ∨ ∃ front c d back, c ∈ windashVariants ∧ d ∈ windashVariants ∧
    value = front ++ c :: back ∧ other = front ++ d :: back

/-- The texts as a value of a rule. -/
def texts {O : Type} (values : List Text) : Yaml O :=
  .list (values.map fun value => .scalar (.str value))

section

variable {F O : Type} (lib : Library F O)

/-- Lower case keeps slashes where they are, and has a text for every text. -/
structure Library.LowerKeepsSlash : Prop where
  nil : ∀ text, lib.lower text = [] ↔ text = []
  cons : ∀ text, lib.lower ('/' :: text) = '/' :: lib.lower text
  head : ∀ text rest, lib.lower text = '/' :: rest → text.head? = some '/'
  mem : ∀ text, '/' ∈ lib.lower text ↔ '/' ∈ text

/-- The condition on a field holds on the document. -/
def Library.Matches (document : Document F) (field : Text) (expected : Yaml O) : Prop :=
  lib.clauseHolds document (lib.clauseOf none (.str field, expected)) = .ok true

/-- The values with their options swapped. -/
def Library.Swapped (expected : Yaml O) (values : List Text) : Prop :=
  List.Forall₂ (fun value value' => value' ∈ swaps true value)
    ((flattenValues expected).map lib.str) values

/-- With `windash` a condition still matches what it matches without it, also when option
prefixes of its values are swapped. -/
structure Library.OnlyWidens (field field' : Text) (expected : Yaml O) : Prop where
  wider : ∀ document, lib.Matches document field expected → lib.Matches document field' expected
  swapped : ∀ values, lib.Swapped expected values →
    ∀ document, lib.Matches document field (texts values) → lib.Matches document field' expected

/-- Every swapped text matches one of the values with at most one dash replaced; with `all`,
each of these is matched by one of the swapped texts. -/
def Library.Covered (compare : PlainComparison) (all : Bool) (expected : Yaml O) : Prop :=
  ∀ values, lib.Swapped expected values →
    if all then ∀ value ∈ (flattenValues expected).map lib.str, ∀ other, Redashed value other →
      ∃ value' ∈ values, lib.textMatches compare.compare other value' = true
    else ∀ value' ∈ values, ∃ value ∈ (flattenValues expected).map lib.str, ∃ other,
      Redashed value other ∧ lib.textMatches compare.compare other value' = true

end

section

variable {F O : Type} {lib : Library F O} {compare : PlainComparison} {all : Bool}

/-! ### Comparisons -/

theorem textMatches_self (value : Text) : lib.textMatches compare.compare value value = true := by
  rcases compare with - | - | - | -
  · exact decide_eq_true rfl
  · exact decide_eq_true (List.infix_refl _)
  · exact decide_eq_true (List.prefix_refl _)
  · exact decide_eq_true (List.suffix_refl _)

theorem textMatches_trans {value other actual : Text}
    (h : lib.textMatches compare.compare value other = true)
    (hother : lib.textMatches compare.compare other actual = true) :
    lib.textMatches compare.compare value actual = true := by
  rcases compare with - | - | - | -
  · exact decide_eq_true ((of_decide_eq_true hother).trans (of_decide_eq_true h))
  · exact decide_eq_true ((of_decide_eq_true h).trans (of_decide_eq_true hother))
  · exact decide_eq_true ((of_decide_eq_true h).trans (of_decide_eq_true hother))
  · exact decide_eq_true ((of_decide_eq_true h).trans (of_decide_eq_true hother))

variable {actual expected : List Text}

theorem scalarMatches_any : lib.scalarMatches ⟨compare.compare, false⟩ actual expected = true ↔
      ∃ value ∈ expected, ∃ text ∈ actual, lib.textMatches compare.compare value text = true := by
  rw [Library.scalarMatches, if_neg Bool.false_ne_true, List.any_eq_true]
  simp only [Library.expectedMatches, List.any_eq_true]

theorem scalarMatches_all : lib.scalarMatches ⟨compare.compare, true⟩ actual expected = true ↔
      ∀ value ∈ expected, ∃ text ∈ actual, lib.textMatches compare.compare value text = true := by
  rw [Library.scalarMatches, if_pos rfl, List.all_eq_true]
  simp only [Library.expectedMatches, List.any_eq_true]

/-! ### Values -/

variable {value other : Text}

theorem mem_windashCandidates : other ∈ windashCandidates value ↔ Redashed value other := by
  rw [windashCandidates, List.mem_cons, Redashed]
  refine or_congr_right ?_
  rw [List.mem_flatMap]
  constructor
  · rintro ⟨i, hi, hother⟩
    have hlt : i < value.length := List.mem_range.1 hi
    rw [List.getElem?_eq_getElem hlt, Option.any_some] at hother
    split at hother
    · next hc =>
      obtain ⟨d, hd, rfl⟩ := List.mem_map.1 hother
      refine ⟨value.take i, value[i], d, value.drop (i + 1), of_decide_eq_true hc, hd, ?_, rfl⟩
      rw [List.getElem_cons_drop, List.take_append_drop]
    · exact absurd hother List.not_mem_nil
  · rintro ⟨front, c, d, back, hc, hd, rfl, rfl⟩
    have hget : (front ++ c :: back)[front.length]? = some c := by
      rw [List.getElem?_append_right (Nat.le_refl _), Nat.sub_self, List.getElem?_cons_zero]
    refine ⟨front.length, List.mem_range.2 (by simp), ?_⟩
    rw [hget, Option.any_some, if_pos (decide_eq_true hc)]
    refine List.mem_map.2 ⟨d, hd, ?_⟩
    rw [List.take_left, List.drop_append, List.drop_eq_nil_of_le (Nat.le_succ _)]
    simp

variable {values : List Text}

theorem mem_expandWindashValues {other : Text} :
    other ∈ expandWindashValues values ↔ ∃ value ∈ values, Redashed value other := by
  have hfold : ∀ (candidates expanded : List Text), other ∈ candidates.foldl
      (fun expanded v => if v ∈ expanded then expanded else expanded ++ [v]) expanded ↔
      other ∈ expanded ∨ other ∈ candidates := by
    intro candidates
    induction candidates with
    | nil => simp
    | cons v candidates ih =>
      intro expanded
      rw [List.foldl_cons, ih, List.mem_cons]
      split
      · next hv =>
        refine ⟨fun h => h.imp_right .inr, ?_⟩
        rintro (h | rfl | h)
        exacts [.inl h, .inl hv, .inr h]
      · rw [List.mem_append, List.mem_singleton, or_assoc]
  rw [expandWindashValues, hfold, List.mem_flatMap]
  simp only [List.not_mem_nil, false_or, mem_windashCandidates]

theorem self_mem_swaps (start : Bool) (value : Text) : value ∈ swaps start value := by
  induction value generalizing start with
  | nil => exact List.mem_singleton.2 rfl
  | cons c value ih =>
    rw [swaps, List.mem_flatMap]
    refine ⟨c, ?_, List.mem_map.2 ⟨value, ih _, rfl⟩⟩
    split
    · next h => exact h.2
    · exact List.mem_singleton.2 rfl

theorem swapped_self (expected : Yaml O) :
    lib.Swapped expected ((flattenValues expected).map lib.str) :=
  List.forall₂_same.2 fun value _ => self_mem_swaps true value

theorem flattenValues_texts (values : List Text) :
    (flattenValues (texts values)).map lib.str = values := by
  rw [texts, flattenValues, List.map_map]
  exact List.map_id values

/-! ### Clauses -/

/-- A text such as `/wget`, in place of which the name alone is accepted. -/
def Bare (text : Text) : Prop := 1 < text.length ∧ text.head? = some '/' ∧ '/' ∉ text.tail

/-- The field with the names, for one of the fields of `_BASENAME_ALTERNATE_FIELDS`. -/
def nameField (base : Text) : Option Text :=
  (basenameAlternateFields.find? fun entry => entry.1.toList = base).map fun entry =>
    entry.2.toList

variable {document : Document F}

theorem matchBasenameAlternate_iff {base : Text} {expected : List Text} :
    (lib.matchBasenameAlternate document base ⟨compare.compare, all⟩ expected).isSome = true ↔
      compare = .endswith ∧ all = false ∧ ∃ field, nameField base = some field ∧
        ∃ value ∈ expected, Bare value ∧
          ∃ actual ∈ lib.actualValues document field, lib.lower actual = lib.lower value.tail := by
  have hmodifier : (⟨compare.compare, all⟩ : Modifier) = ⟨some .endswith, false⟩ ↔
      compare = .endswith ∧ all = false := by
    rw [Modifier.mk.injEq]
    rcases compare with - | - | - | - <;> simp [PlainComparison.compare]
  rw [← and_assoc, ← hmodifier]
  by_cases hm : (⟨compare.compare, all⟩ : Modifier) = ⟨some .endswith, false⟩
  swap
  · rw [matchBasenameAlternate_eq_none hm]
    exact iff_of_false Bool.false_ne_true fun h => hm h.1
  rw [Library.matchBasenameAlternate, basenameAlternates, nameField, hm]
  cases basenameAlternateFields.find? fun entry => entry.1.toList = base with
  | none => simp
  | some entry =>
    dsimp only
    rw [if_neg (not_not_intro rfl)]
    simp only [true_and, Option.map_some, Option.some.injEq, exists_eq_left']
    generalize hnames : (expected.filter fun t => decide
      (1 < t.length ∧ t.head? = some '/' ∧ '/' ∉ t.tail)).map List.tail = names
    have hmem : ∀ name, name ∈ names ↔ ∃ value ∈ expected, Bare value ∧ value.tail = name := by
      intro name
      rw [← hnames, List.mem_map]
      simp only [List.mem_filter, decide_eq_true_eq, and_assoc, Bare]
    have hany : (∃ value ∈ expected, Bare value ∧
        ∃ actual ∈ lib.actualValues document entry.2.toList,
          lib.lower actual = lib.lower value.tail) ↔
        ((lib.actualValues document entry.2.toList).any fun actual =>
          names.any fun name => lib.lower actual = lib.lower name) = true := by
      simp only [List.any_eq_true, hmem, decide_eq_true_eq]
      constructor
      · rintro ⟨value, hvalue, hbare, actual, hactual, heq⟩
        exact ⟨actual, hactual, _, ⟨value, hvalue, hbare, rfl⟩, heq⟩
      · rintro ⟨actual, hactual, _, ⟨value, hvalue, hbare, rfl⟩, heq⟩
        exact ⟨value, hvalue, hbare, actual, hactual, heq⟩
    rw [hany]
    by_cases hnil : names = []
    · rw [if_pos hnil, hnil]
      simp
    · rw [if_neg hnil]
      dsimp only
      split
      · next h => exact iff_of_true rfl h
      · next h => exact iff_of_false Bool.false_ne_true h

theorem clauseHolds_plain {clause : Clause} (hmodifier : clause.modifier = ⟨compare.compare, all⟩) :
    lib.clauseHolds document clause = .ok (lib.clauseMatches document clause) := by
  refine (settles_clauseHolds clause).eq_ok (not_failsUntil fun field _ => ?_)
  refine not_failsUntil fun value _ hbad => ?_
  have hre := hbad.2.1
  rw [hmodifier] at hre
  rcases compare with - | - | - | - <;> cases hre

/-- One of the mapped fields has the values, or the name field has one of the names. -/
theorem matches_iff {field : Text} {expected : Yaml O}
    (hmodifier : (parseFieldModifiers field).2.1 = ⟨compare.compare, all⟩) :
    lib.Matches document field expected ↔
      (∃ mapped ∈ (mappedSigmaFields field).1, lib.scalarMatches ⟨compare.compare, all⟩
        (lib.actualValues document mapped) (lib.expectedValues field expected) = true) ∨
      (lib.matchBasenameAlternate document (baseField field) ⟨compare.compare, all⟩
        (lib.expectedValues field expected)).isSome = true := by
  have hclause : (lib.clauseOf none (.str field, expected)).modifier = ⟨compare.compare, all⟩ :=
    hmodifier
  rw [Library.Matches, clauseHolds_plain hclause, Except.ok.injEq, Library.clauseMatches,
    Bool.or_eq_true, List.any_eq_true]
  show (∃ mapped ∈ (mappedSigmaFields field).1, lib.scalarMatches (parseFieldModifiers field).2.1
      (lib.actualValues document mapped) (lib.expectedValues field expected) = true) ∨
    (lib.matchBasenameAlternate document (baseField field) (parseFieldModifiers field).2.1
      (lib.expectedValues field expected)).isSome = true ↔ _
  rw [hmodifier]

/-! ### Documents -/

/-- The value under a path. -/
def nest (value : Json F) : List Text → Json F
  | [] => value
  | part :: parts => .obj [(part, nest value parts)]

/-- The document that holds the texts under a field, and nothing else. -/
def holding (values : List Text) (field : Text) : Document F :=
  match splitPath field with
  | [] => []
  | part :: parts => [(part, nest (.arr (values.map .str)) parts)]

theorem walk_null : ∀ path : List Text, walk path (.null : Json F) = .null
  | [] => rfl
  | _ :: _ => rfl

theorem walk_nest_self (value : Json F) (path : List Text) : walk path (nest value path) = value := by
  induction path with
  | nil => rfl
  | cons part path ih =>
    rw [nest, walk, getField, List.find?_cons_of_pos (by simp)]
    exact ih

/-- Off the path there is nothing; only the nodes above the texts are objects. -/
theorem walk_nest_other {items : List (Json F)} {path other : List Text} (h : ¬ other <+: path) :
    walk other (nest (.arr items) path) = .null := by
  induction path generalizing other with
  | nil =>
    cases other with
    | nil => exact absurd (List.nil_prefix) h
    | cons part other => rfl
  | cons part path ih =>
    cases other with
    | nil => exact absurd (List.nil_prefix) h
    | cons part' other =>
      rw [nest, walk, getField]
      by_cases hpart : part = part'
      · rw [List.find?_cons_of_pos (by simpa using hpart)]
        exact ih fun hprefix => h (hpart ▸ List.cons_prefix_cons.2 ⟨rfl, hprefix⟩)
      · rw [List.find?_cons_of_neg (by simpa using hpart)]
        exact walk_null other

theorem stringifyAll_texts (values : List Text) : lib.stringifyAll (values.map .str) = values := by
  induction values with
  | nil => rfl
  | cons value values ih =>
    rw [List.map_cons, Library.stringifyAll, ih]
    rfl

theorem obj_holding (values : List Text) (field : Text) :
    (.obj (holding values field) : Json F) = nest (.arr (values.map .str)) (splitPath field) := by
  have hne : splitPath field ≠ [] := List.splitOn_ne_nil _ _
  rw [holding]
  cases hpath : splitPath field with
  | nil => exact absurd hpath hne
  | cons part parts => rfl

variable {field other : Text}

theorem actualValues_holding_self (h : splitPath other = splitPath field) :
    lib.actualValues (holding values field) other = values := by
  rw [Library.actualValues, getNestedValue, obj_holding, h, walk_nest_self]
  exact stringifyAll_texts values

theorem actualValues_holding_other (h : ¬ splitPath other <+: splitPath field) :
    lib.actualValues (holding values field) other = [] := by
  rw [Library.actualValues, getNestedValue, obj_holding, walk_nest_other h]
  rfl

/-! ### The mapped fields -/

/-- The fields that hold nothing when another mapped field does: none is above it. -/
structure Separate (base : Text) (mapped : List Text) (field : Text) : Prop where
  mem : field ∈ mapped
  apart : ∀ other ∈ mapped,
    splitPath other = splitPath field ∨ ¬ splitPath other <+: splitPath field
  name : ∀ other, nameField base = some other → ¬ splitPath other <+: splitPath field

theorem exists_separate_entry : ∀ entry ∈ sigmaFieldMap, ∃ field ∈ entry.2,
    (∀ other ∈ entry.2, splitPath other.toList = splitPath field.toList ∨
      ¬ splitPath other.toList <+: splitPath field.toList) ∧
    ∀ alternate ∈ basenameAlternateFields, alternate.1.toList = entry.1.toList →
      ¬ splitPath alternate.2.toList <+: splitPath field.toList := by
  decide +kernel

theorem nameField_entry : ∀ alternate ∈ basenameAlternateFields, ∃ mapped,
    sigmaFieldMap.get alternate.1.toList = some mapped ∧ alternate.2 ∈ mapped := by
  have h : basenameAlternateFields.all (fun alternate =>
      (sigmaFieldMap.get alternate.1.toList).any (alternate.2 ∈ ·)) = true := by
    decide +kernel
  intro alternate halternate
  obtain ⟨mapped, hmapped, hmem⟩ := Option.any_eq_true _ _ |>.1 (List.all_eq_true.1 h _ halternate)
  exact ⟨mapped, hmapped, of_decide_eq_true hmem⟩

theorem exists_of_nameField {base other : Text} (h : nameField base = some other) :
    ∃ alternate ∈ basenameAlternateFields, alternate.1.toList = base ∧
      alternate.2.toList = other := by
  obtain ⟨alternate, hfind, hother⟩ := Option.map_eq_some_iff.1 h
  exact ⟨alternate, List.mem_of_find?_eq_some hfind, by simpa using List.find?_some hfind, hother⟩

/-- The names are also looked for in the field itself. -/
theorem nameField_mem (h : nameField (baseField field) = some other) :
    other ∈ (mappedSigmaFields field).1 := by
  obtain ⟨alternate, hmem, hbase, rfl⟩ := exists_of_nameField h
  obtain ⟨mapped, hget, hmapped⟩ := nameField_entry alternate hmem
  rw [mappedSigmaFields, ← hbase, hget]
  exact List.mem_map_of_mem hmapped

theorem exists_separate (field : Text) :
    ∃ mapped, Separate (baseField field) (mappedSigmaFields field).1 mapped := by
  cases hget : sigmaFieldMap.get (baseField field) with
  | some fields =>
    have hmapped : (mappedSigmaFields field).1 = fields.map String.toList := by
      rw [mappedSigmaFields, hget]
    obtain ⟨entry, hfind, rfl⟩ := Option.map_eq_some_iff.1 hget
    have hbase : entry.1.toList = baseField field := by simpa using List.find?_some hfind
    obtain ⟨mapped, hmem, hapart, hname⟩ :=
      exists_separate_entry entry (List.mem_of_find?_eq_some hfind)
    rw [hmapped]
    refine ⟨mapped.toList, List.mem_map_of_mem hmem, fun other hother => ?_, fun other hother => ?_⟩
    · obtain ⟨name, hname, rfl⟩ := List.mem_map.1 hother
      exact hapart name hname
    · obtain ⟨alternate, halternate, hbase', rfl⟩ := exists_of_nameField hother
      exact hname alternate halternate (hbase'.trans hbase.symm)
  | none =>
    -- a field without an entry is one field, and has no name field
    have hone : ∃ mapped, (mappedSigmaFields field).1 = [mapped] := by
      rw [mappedSigmaFields, hget]
      dsimp only
      split
      · exact ⟨_, rfl⟩
      · exact ⟨_, rfl⟩
    obtain ⟨mapped, hone⟩ := hone
    rw [hone]
    refine ⟨mapped, List.mem_singleton.2 rfl, fun other hother => ?_, fun other hother => ?_⟩
    · rw [List.mem_singleton.1 hother]
      exact .inl rfl
    · obtain ⟨alternate, halternate, hbase, -⟩ := exists_of_nameField hother
      obtain ⟨fields, hfields, -⟩ := nameField_entry alternate halternate
      rw [hbase, hget] at hfields
      cases hfields

/-! ### What the modifier does -/

section

variable {field field' : Text} {expected : Yaml O}

theorem expectedValues_plain (h : AddsWindash field field' compare all) (expected : Yaml O) :
    lib.expectedValues field expected = (flattenValues expected).map lib.str := by
  rw [Library.expectedValues, h.plain]
  exact if_neg List.not_mem_nil

theorem expectedValues_dashed (h : AddsWindash field field' compare all) :
    lib.expectedValues field' expected =
      expandWindashValues ((flattenValues expected).map lib.str) := by
  rw [Library.expectedValues, h.dashed]
  exact if_pos (List.mem_singleton.2 rfl)

theorem mappedSigmaFields_dashed (h : AddsWindash field field' compare all) :
    mappedSigmaFields field' = mappedSigmaFields field := by
  rw [mappedSigmaFields, mappedSigmaFields, h.base]

variable {document : Document F}

theorem matches_plain (h : AddsWindash field field' compare all) :
    lib.Matches document field expected ↔
      (∃ mapped ∈ (mappedSigmaFields field).1, lib.scalarMatches ⟨compare.compare, all⟩
        (lib.actualValues document mapped) ((flattenValues expected).map lib.str) = true) ∨
      (lib.matchBasenameAlternate document (baseField field) ⟨compare.compare, all⟩
        ((flattenValues expected).map lib.str)).isSome = true := by
  rw [matches_iff (congrArg Prod.fst h.plain), expectedValues_plain h]

theorem matches_dashed (h : AddsWindash field field' compare all) :
    lib.Matches document field' expected ↔
      (∃ mapped ∈ (mappedSigmaFields field).1, lib.scalarMatches ⟨compare.compare, all⟩
        (lib.actualValues document mapped)
          (expandWindashValues ((flattenValues expected).map lib.str)) = true) ∨
      (lib.matchBasenameAlternate document (baseField field) ⟨compare.compare, all⟩
        (expandWindashValues ((flattenValues expected).map lib.str))).isSome = true := by
  rw [matches_iff (congrArg Prod.fst h.dashed), expectedValues_dashed h,
    mappedSigmaFields_dashed h, h.base]

theorem exists_slash_cons {text : Text} (h : text.head? = some '/') : ∃ rest, text = '/' :: rest := by
  obtain ⟨rest, hrest⟩ := List.head?_eq_some_iff.1 h
  exact ⟨rest, hrest⟩

/-- On an event with the swapped values, the expanded ones are found as well. -/
theorem matches_dashed_of_covered (hlower : lib.LowerKeepsSlash)
    (h : AddsWindash field field' compare all) (hcovered : lib.Covered compare all expected)
    {values : List Text} (hswapped : lib.Swapped expected values)
    (hmatches : lib.Matches document field (texts values)) :
    lib.Matches document field' expected := by
  have hcover := hcovered values hswapped
  rw [matches_plain h, flattenValues_texts] at hmatches
  rw [matches_dashed h]
  rcases hmatches with ⟨mapped, hmapped, hscalar⟩ | halternate
  · refine .inl ⟨mapped, hmapped, ?_⟩
    cases all with
    | false =>
      rw [if_neg Bool.false_ne_true] at hcover
      obtain ⟨value', hvalue', text, htext, hmatch⟩ := scalarMatches_any.1 hscalar
      obtain ⟨value, hvalue, other, hother, hother'⟩ := hcover value' hvalue'
      exact scalarMatches_any.2 ⟨other, mem_expandWindashValues.2 ⟨value, hvalue, hother⟩,
        text, htext, textMatches_trans hother' hmatch⟩
    | true =>
      rw [if_pos rfl] at hcover
      refine scalarMatches_all.2 fun other hother => ?_
      obtain ⟨value, hvalue, hother⟩ := mem_expandWindashValues.1 hother
      obtain ⟨value', hvalue', hother'⟩ := hcover value hvalue other hother
      obtain ⟨text, htext, hmatch⟩ := scalarMatches_all.1 hscalar value' hvalue'
      exact ⟨text, htext, textMatches_trans hother' hmatch⟩
  · obtain ⟨rfl, rfl, name, hname, value', hvalue', hbare, actual, hactual, heq⟩ :=
      matchBasenameAlternate_iff.1 halternate
    rw [if_neg Bool.false_ne_true] at hcover
    obtain ⟨value, hvalue, other, hother, hsuffix⟩ := hcover value' hvalue'
    have hmem := mem_expandWindashValues.2 ⟨value, hvalue, hother⟩
    obtain ⟨tail, rfl⟩ := exists_slash_cons hbare.2.1
    have hsuffix : lib.lower other <:+ '/' :: lib.lower tail := by
      rw [← hlower.cons]
      exact of_decide_eq_true hsuffix
    rcases List.suffix_cons_iff.1 hsuffix with hall | htail
    · -- the whole of the text: its name is accepted in place of the path
      refine .inr (matchBasenameAlternate_iff.2 ⟨rfl, rfl, name, hname, other, hmem, ?_⟩)
      obtain ⟨rest, rfl⟩ := exists_slash_cons (hlower.head _ _ hall)
      rw [hlower.cons, List.cons.injEq] at hall
      refine ⟨⟨?_, rfl, ?_⟩, actual, hactual, heq.trans hall.2.symm⟩
      · have hrest : rest ≠ [] := by
          rw [Ne, ← hlower.nil, hall.2, hlower.nil]
          exact List.ne_nil_of_length_pos (Nat.lt_of_succ_lt_succ hbare.1)
        exact Nat.succ_lt_succ (List.length_pos_of_ne_nil hrest)
      · show '/' ∉ rest
        rw [← hlower.mem, hall.2, hlower.mem]
        exact hbare.2.2
    · -- a part of the name: it is in the name field itself
      refine .inl ⟨name, nameField_mem hname, scalarMatches_any.2 ⟨other, hmem, actual, hactual, ?_⟩⟩
      refine decide_eq_true ?_
      rw [heq]
      exact htail

/-- **`windash` widens the condition exactly where the values are covered**: where the
comparison finds, in each text with swapped options, a value with one dash replaced, and
under `all` each of these in one of the swapped texts. -/
theorem onlyWidens_iff_covered (hlower : lib.LowerKeepsSlash)
    (h : AddsWindash field field' compare all) (expected : Yaml O) :
    lib.OnlyWidens field field' expected ↔ lib.Covered compare all expected := by
  constructor
  swap
  · intro hcovered
    refine ⟨fun document hmatches => ?_, fun values hswapped document hmatches =>
      matches_dashed_of_covered hlower h hcovered hswapped hmatches⟩
    refine matches_dashed_of_covered hlower h hcovered (swapped_self expected) ?_
    rwa [matches_plain h, flattenValues_texts, ← matches_plain h]
  · intro hwidens values hswapped
    obtain ⟨mapped, hseparate⟩ := exists_separate field
    have hactual : ∀ (texts : List Text) (other : Text), other ∈ (mappedSigmaFields field).1 →
        lib.actualValues (holding texts mapped) other = texts ∨
          lib.actualValues (holding texts mapped) other = [] := by
      intro texts other hother
      rcases hseparate.apart other hother with hsame | hother
      · exact .inl (actualValues_holding_self hsame)
      · exact .inr (actualValues_holding_other hother)
    have hself : ∀ texts : List Text, lib.actualValues (holding texts mapped) mapped = texts :=
      fun texts => actualValues_holding_self rfl
    cases all with
    | false =>
      rw [if_neg Bool.false_ne_true]
      intro value' hvalue'
      have hmatches := hwidens.swapped values hswapped (holding [value'] mapped)
        ((matches_plain h).2 (.inl ⟨mapped, hseparate.mem, by
          rw [hself, flattenValues_texts]
          exact scalarMatches_any.2 ⟨value', hvalue', value', List.mem_singleton.2 rfl,
            textMatches_self value'⟩⟩))
      rcases (matches_dashed h).1 hmatches with ⟨other, hother, hscalar⟩ | halternate
      · obtain ⟨text, htext, actual, hmem, hmatch⟩ := scalarMatches_any.1 hscalar
        obtain ⟨value, hvalue, hredashed⟩ := mem_expandWindashValues.1 htext
        rcases hactual [value'] other hother with heq | heq
        · rw [heq, List.mem_singleton] at hmem
          exact ⟨value, hvalue, text, hredashed, hmem ▸ hmatch⟩
        · rw [heq] at hmem
          cases hmem
      · obtain ⟨-, -, name, hname, -, -, -, actual, hmem, -⟩ :=
          matchBasenameAlternate_iff.1 halternate
        rw [actualValues_holding_other (hseparate.name name hname)] at hmem
        cases hmem
    | true =>
      rw [if_pos rfl]
      intro value hvalue other hredashed
      have hmatches := hwidens.swapped values hswapped (holding values mapped)
        ((matches_plain h).2 (.inl ⟨mapped, hseparate.mem, by
          rw [hself, flattenValues_texts]
          exact scalarMatches_all.2 fun value' hvalue' => ⟨value', hvalue',
            textMatches_self value'⟩⟩))
      rcases (matches_dashed h).1 hmatches with ⟨mapped', hmapped', hscalar⟩ | halternate
      · obtain ⟨actual, hmem, hmatch⟩ := scalarMatches_all.1 hscalar other
          (mem_expandWindashValues.2 ⟨value, hvalue, hredashed⟩)
        rcases hactual values mapped' hmapped' with heq | heq
        · exact ⟨actual, heq ▸ hmem, hmatch⟩
        · rw [heq] at hmem
          cases hmem
      · cases (matchBasenameAlternate_iff.1 halternate).2.1

end

/-! ### Values that are covered -/

theorem swaps_of_options_eq_zero {start : Bool}
    (h : options start value = 0) (hother : other ∈ swaps start value) : other = value := by
  induction value generalizing start other with
  | nil => exact List.mem_singleton.1 hother
  | cons c value ih =>
    rw [options, Nat.add_eq_zero_iff] at h
    have hc : ¬ (start = true ∧ c ∈ windashVariants) := fun hc => by
      rw [if_pos hc] at h
      exact absurd h.1 Nat.one_ne_zero
    rw [swaps, if_neg hc, List.mem_flatMap] at hother
    obtain ⟨d, hd, hother⟩ := hother
    obtain ⟨rest, hrest, rfl⟩ := List.mem_map.1 hother
    rw [List.mem_singleton.1 hd, ih h.2 hrest]

theorem Redashed.cons (h : Redashed value other) (c : Char) :
    Redashed (c :: value) (c :: other) := by
  rcases h with rfl | ⟨front, a, d, back, ha, hd, rfl, rfl⟩
  · exact .inl rfl
  · exact .inr ⟨c :: front, a, d, back, ha, hd, rfl, rfl⟩

/-- One option is swapped by replacing one dash. -/
theorem redashed_of_options_le_one {start : Bool}
    (h : options start value ≤ 1) (hother : other ∈ swaps start value) : Redashed value other := by
  induction value generalizing start other with
  | nil => exact .inl (List.mem_singleton.1 hother)
  | cons c value ih =>
    rw [options] at h
    rw [swaps, List.mem_flatMap] at hother
    obtain ⟨d, hd, hother⟩ := hother
    obtain ⟨rest, hrest, rfl⟩ := List.mem_map.1 hother
    by_cases hc : start = true ∧ c ∈ windashVariants
    · rw [if_pos hc] at h hd
      have hzero : options (isSpace c) value = 0 := by omega
      rw [swaps_of_options_eq_zero hzero hrest]
      exact .inr ⟨[], c, d, value, hc.2, hd, rfl, rfl⟩
    · rw [if_neg hc] at h hd
      rw [List.mem_singleton.1 hd]
      exact (ih (by omega) hrest).cons c

theorem exists_mem_of_forall₂ {α β : Type} {r : α → β → Prop} {as : List α} {bs : List β}
    (h : List.Forall₂ r as bs) {a : α} (ha : a ∈ as) : ∃ b ∈ bs, r a b := by
  induction h with
  | nil => cases ha
  | @cons a' b as bs hr _ ih =>
    rcases List.mem_cons.1 ha with rfl | ha
    · exact ⟨b, .head _, hr⟩
    · obtain ⟨b', hb', hr⟩ := ih ha
      exact ⟨b', List.mem_cons_of_mem b hb', hr⟩

/-- Without `all`, one option prefix in each value is enough. -/
theorem covered_of_oneOption {expected : Yaml O}
    (h : ∀ value ∈ (flattenValues expected).map lib.str, options true value ≤ 1) :
    lib.Covered compare false expected := by
  intro values hswapped
  rw [if_neg Bool.false_ne_true]
  intro value' hvalue'
  obtain ⟨value, hvalue, hswap⟩ := exists_mem_of_forall₂ hswapped.flip hvalue'
  exact ⟨value, hvalue, value', redashed_of_options_le_one (h value hvalue) hswap,
    textMatches_self value'⟩

end

/-! ### On ASCII text -/

theorem lowerKeepsSlash_ascii : asciiLibrary.LowerKeepsSlash where
  nil _ := List.map_eq_nil_iff
  cons _ := rfl
  head text rest h := by
    obtain ⟨c, text, rfl, hc, -⟩ := List.map_eq_cons_iff.1 h
    rw [List.head?_cons, Url.toLower_eq_plain hc (by decide)]
  mem text := by
    refine List.mem_map.trans ⟨?_, fun h => ⟨'/', h, rfl⟩⟩
    rintro ⟨c, hmem, hc⟩
    rwa [← Url.toLower_eq_plain hc (by decide)]

/-- An event with one command line. -/
def commandEvent (command : Text) : Document Empty :=
  [("process".toList, .obj [("command_line".toList, .str command)])]

theorem addsWindash_contains : AddsWindash "CommandLine|contains".toList
    "CommandLine|contains|windash".toList .contains false where
  plain := by decide +kernel
  dashed := by decide +kernel
  base := by decide +kernel

/-- A rule that looks for one option is widened. -/
theorem encodedCommand_onlyWidens : asciiLibrary.OnlyWidens "CommandLine|contains".toList
    "CommandLine|contains|windash".toList (texts [" -enc ".toList]) :=
  (onlyWidens_iff_covered lowerKeepsSlash_ascii addsWindash_contains _).2
    (covered_of_oneOption (by decide +kernel))

/-- Not widened: with `all` the event must hold every variant of the dash, and of two options only one is
swapped. -/
theorem windash_not_onlyWidens : ¬ asciiLibrary.OnlyWidens "CommandLine|contains|all".toList
      "CommandLine|contains|all|windash".toList (texts ["-enc".toList]) ∧
    ¬ asciiLibrary.OnlyWidens "CommandLine|contains".toList
      "CommandLine|contains|windash".toList (texts ["-w -enc".toList]) := by
  constructor
  · intro h
    have hmatches := h.wider (commandEvent "powershell -enc".toList) rfl
    have hfalse : asciiLibrary.clauseHolds (commandEvent "powershell -enc".toList)
        (asciiLibrary.clauseOf none (.str "CommandLine|contains|all|windash".toList,
          texts ["-enc".toList])) = .ok false := rfl
    cases hfalse.symm.trans hmatches
  · intro h
    have hmatches := h.swapped ["/w /enc".toList] (List.Forall₂.cons (by decide +kernel) .nil)
      (commandEvent "powershell /w /enc".toList) rfl
    have hfalse : asciiLibrary.clauseHolds (commandEvent "powershell /w /enc".toList)
        (asciiLibrary.clauseOf none (.str "CommandLine|contains|windash".toList,
          texts ["-w -enc".toList])) = .ok false := rfl
    cases hfalse.symm.trans hmatches

end Kairon.Sigma

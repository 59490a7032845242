/-
Kairon/Sigma/Safety.lean

When the evaluation of a compiled rule returns.

Compilation tokenises the condition and balances its parentheses.  It does not
run the stack machine, does not ask whether a pattern of the condition stands
for a selection, and does not compile the regular expressions of the rule.
`compiled_evaluates_iff` says what is left to go wrong on a document: the text
of its event id, the depth of the stack, a token without names, and a regular
expression the evaluation comes across.
-/
import Kairon.Sigma.Evaluate

namespace Kairon.Sigma

open Search (Text Json strip)
open Rpn Settle

section

variable {F O : Type} (lib : Library F O) (document : Document F)

/-! ### Regular expressions -/

/-- A pattern that `re` does not compile. -/
def Library.BadPattern (compare : Option Comparison) (expected : Text) : Prop :=
  compare = some .re ∧ lib.searchRegex expected = none

/-- Whether two texts match, where the pattern is valid. -/
def Library.textMatches (compare : Option Comparison) (expected actual : Text) : Bool :=
  match compare with
  | some .keyword => lib.keywordSearch expected actual
  | some .contains => lib.lower expected <:+: lib.lower actual
  | some .startswith => lib.lower expected <+: lib.lower actual
  | some .endswith => lib.lower expected <:+ lib.lower actual
  | some .re => (lib.searchRegex expected).any fun search => search actual
  | none => lib.lower actual = lib.lower expected

/-- One of the texts of a field matches. -/
def Library.expectedMatches (modifier : Modifier) (actual : List Text) (expected : Text) : Bool :=
  actual.any (lib.textMatches modifier.compare expected)

def Library.scalarMatches (modifier : Modifier) (actual expected : List Text) : Bool :=
  if modifier.all then expected.all (lib.expectedMatches modifier actual)
  else expected.any (lib.expectedMatches modifier actual)

/-- A bad pattern is compared with a text.  With `all` the values behind the
first one that does not match are not looked at, otherwise those behind the
first one that does. -/
def Library.ScalarFails (modifier : Modifier) (actual expected : List Text) : Prop :=
  FailsUntil (!modifier.all) (fun exp => actual ≠ [] ∧ lib.BadPattern modifier.compare exp)
    (lib.expectedMatches modifier actual) expected

def Library.fieldMatches (clause : Clause) (field : Text) : Bool :=
  lib.scalarMatches clause.modifier (lib.actualValues document field) clause.expected

def Library.clauseMatches (clause : Clause) : Bool :=
  clause.mappedFields.any (lib.fieldMatches document clause) ||
    (lib.matchBasenameAlternate document clause.baseField clause.modifier clause.expected).isSome

/-- A bad pattern is met on the fields of a clause, up to the first that
matches. -/
def Library.ClauseFails (clause : Clause) : Prop :=
  FailsUntil true
    (fun field => lib.ScalarFails clause.modifier (lib.actualValues document field) clause.expected)
    (lib.fieldMatches document clause) clause.mappedFields

/-- A bad pattern is met in the maps of a selection, up to the first map that
matches, and in each of them up to the first clause that does not. -/
def Library.SelectionFails (clauses : List Clause) : Prop :=
  FailsUntil true
    (FailsUntil false (lib.ClauseFails document) (lib.clauseMatches document))
    (fun group => group.all (lib.clauseMatches document)) (groupClauses clauses)

/-- A token of the condition stands for selections, and none of them fails. -/
def Library.TokenRuns (compiled : Compiled O) (token : Text) : Prop :=
  expandCompiledToken compiled token ≠ [] ∧ ∀ name ∈ expandCompiledToken compiled token,
      ¬ lib.SelectionFails document (compiledClauses compiled name)

/-! ### Event ids -/

/-- The value under a field, or the first of several. -/
def idValue (field : String) : Json F :=
  match getNestedValue document field.toList with
  | .arr items => items.head?.getD .null
  | v => v

/-- The text an event id is read from. -/
def Library.idText (field : String) : Text :=
  match idValue document field with
  | .null => []
  | v => strip (lib.jsonStr v)

/-- `text.isdigit()`. -/
def Library.isDigits (text : Text) : Bool := text ≠ [] ∧ text.all lib.isDigit

/-- The first text of digits among the fields is none that `int` reads, such
as a superscript two. -/
def Library.IdFails (fields : List String) : Prop :=
  FailsUntil true
    (fun field => lib.isDigits (lib.idText document field) ∧
      lib.parseInt (lib.idText document field) = none)
    (fun field => lib.isDigits (lib.idText document field)) fields

def Library.EventIdFails : Prop :=
  lib.IdFails document ["windows.event_id", "event.code", "event.id"]

end

section

variable {F O : Type} {lib : Library F O} {document : Document F}

theorem settles_matchText (compare : Option Comparison) (expected actual : Text) :
    Settles (lib.matchText compare expected actual) (lib.BadPattern compare expected)
      (lib.textMatches compare expected actual) := by
  rcases compare with - | compare
  · exact (settles_ok _).congr (by simp [Library.BadPattern]) rfl
  cases compare with
  | contains => exact (settles_ok _).congr (by simp [Library.BadPattern]) rfl
  | startswith | endswith | keyword => exact (settles_ok _).congr (by simp [Library.BadPattern]) rfl
  | re =>
    cases h : lib.searchRegex expected with
    | none => exact .inl ⟨⟨rfl, h⟩, .reError, by simp [Library.matchText, h]⟩
    | some search =>
      refine .inr ⟨by simp [Library.BadPattern, h], ?_⟩
      simp [Library.matchText, Library.textMatches, h]

/-- One expected text against the texts of a field. -/
theorem settles_expected (modifier : Modifier) (actual : List Text) (expected : Text) :
    Settles (anyOk (lib.matchText modifier.compare expected) actual)
      (actual ≠ [] ∧ lib.BadPattern modifier.compare expected)
      (lib.expectedMatches modifier actual expected) :=
  (settles_anyOk fun a _ => settles_matchText modifier.compare expected a).congr
    failsUntil_const rfl

theorem settles_matchScalar (modifier : Modifier) (actual expected : List Text) :
    Settles (lib.matchScalar modifier actual expected) (lib.ScalarFails modifier actual expected)
      (lib.scalarMatches modifier actual expected) := by
  obtain ⟨compare, all⟩ := modifier
  cases all with
  | false => exact settles_anyOk fun exp _ => settles_expected ⟨compare, false⟩ actual exp
  | true =>
    refine settles_allOk fun exp _ => ?_
    have h : Settles (lib.matchAny compare actual [exp]) _ _ :=
      settles_anyOk fun e _ => settles_expected ⟨compare, true⟩ actual e
    exact h.congr (by simp [FailsUntil]) (by simp)

theorem settles_clauseHolds (clause : Clause) :
    Settles (lib.clauseHolds document clause) (lib.ClauseFails document clause)
      (lib.clauseMatches document clause) := by
  have hfields : Settles (anyOk (fun field => lib.matchScalar clause.modifier
        (lib.actualValues document field) clause.expected) clause.mappedFields)
      (lib.ClauseFails document clause)
      (clause.mappedFields.any (lib.fieldMatches document clause)) :=
    settles_anyOk fun field _ => settles_matchScalar clause.modifier
      (lib.actualValues document field) clause.expected
  exact (hfields.or (settles_ok _)).congr (by simp only [and_false, or_false]) rfl

theorem settles_selectionHolds (clauses : List Clause) :
    Settles (lib.selectionHolds document clauses) (lib.SelectionFails document clauses)
      ((if groupClauses clauses = [] then [[]] else groupClauses clauses).any
        fun group => group.all (lib.clauseMatches document)) := by
  have h : Settles (lib.selectionHolds document clauses) _ _ :=
    settles_anyOk fun group _ => settles_allOk fun clause _ => settles_clauseHolds clause
  refine h.congr ?_ rfl
  by_cases hg : groupClauses clauses = []
  · simp [Library.SelectionFails, hg, FailsUntil]
  · rw [if_neg hg]
    rfl

/-- A token has a verdict exactly when it runs. -/
theorem compiledOperand_ok_iff (compiled : Compiled O) (token : Text) :
    (∃ v, lib.compiledOperand document compiled token = .ok v) ↔
      lib.TokenRuns document compiled token := by
  have hmap : (∃ v, lib.compiledOperand document compiled token = .ok v) ↔
      ∃ b, (lib.compiledOperand document compiled token).map Verdict.matched = .ok b := by
    cases lib.compiledOperand document compiled token with
    | error e | ok v => simp [Except.map]
  rw [hmap, compiledOperand_matched, Library.TokenRuns]
  by_cases hnames : expandCompiledToken compiled token = []
  · simp [hnames]
  · rw [if_neg hnames]
    rw [(settles_someOk fun name _ =>
      settles_selectionHolds (compiledClauses compiled name)).ok_iff]
    simp [hnames]

theorem eventIdOf_cons (field : String) (fields : List String) :
    lib.eventIdOf document (field :: fields) = if lib.isDigits (lib.idText document field) then
        match lib.parseInt (lib.idText document field) with
        | some n => .ok (some n)
        | none => .error .valueError
      else lib.eventIdOf document fields := by
  -- the test of the source on any text
  have hdigits : ∀ text : Text, (if text ≠ [] ∧ text.all lib.isDigit then
        match lib.parseInt text with
        | some n => .ok (some n)
        | none => .error .valueError
      else lib.eventIdOf document fields) =
      if lib.isDigits text then
        match lib.parseInt text with
        | some n => .ok (some n)
        | none => .error .valueError
      else lib.eventIdOf document fields := by
    intro text
    simp only [Library.isDigits, decide_eq_true_eq]
  rw [Library.eventIdOf, Library.idText]
  show (match idValue document field with
    | .null => lib.eventIdOf document fields
    | v => _) = _
  cases idValue document field with
  | null => rfl
  | bool b | int n | float x | str t | arr items | obj entries => exact hdigits _

theorem eventIdOf_ok_iff (fields : List String) :
    (∃ id, lib.eventIdOf document fields = .ok id) ↔ ¬ lib.IdFails document fields := by
  induction fields with
  | nil => simp [Library.eventIdOf, Library.IdFails, FailsUntil]
  | cons field fields ih =>
    have hfails : lib.IdFails document (field :: fields) ↔
        (lib.isDigits (lib.idText document field) = true ∧
          lib.parseInt (lib.idText document field) = none) ∨
        (lib.isDigits (lib.idText document field) = false ∧ lib.IdFails document fields) :=
      Iff.rfl
    rw [eventIdOf_cons, hfails]
    cases lib.isDigits (lib.idText document field) with
    | false => simpa using ih
    | true =>
      cases lib.parseInt (lib.idText document field) with
      | none => simp
      | some n => simp

/-! ### The evaluation -/

theorem eventSourceSummary_ok_iff :
    (∃ source, lib.eventSourceSummary document = .ok source) ↔ ¬ lib.EventIdFails document := by
  rw [Library.EventIdFails, ← eventIdOf_ok_iff, Library.eventSourceSummary, Library.documentEventId]
  cases lib.eventIdOf document ["windows.event_id", "event.code", "event.id"] with
  | error e => simp [bind, Except.bind]
  | ok id => simp [bind, Except.bind, pure, Except.pure]

theorem logsourceMismatch_ok (h : ¬ lib.EventIdFails document)
    (logsource : List (Scalar O × Yaml O)) :
    ∃ reason, lib.logsourceMismatch logsource document = .ok reason := by
  obtain ⟨id, hid⟩ := (eventIdOf_ok_iff _).2 h
  rw [Library.logsourceMismatch]
  split
  · exact ⟨_, rfl⟩
  split
  · exact ⟨_, rfl⟩
  rw [Library.categoryMismatch, Library.documentEventId, hid]
  cases id with
  | some n => exact ⟨_, rfl⟩
  | none =>
    simp only [bind, Except.bind, pure, Except.pure]
    split
    · exact ⟨_, rfl⟩
    split
    · exact ⟨_, rfl⟩
    · exact ⟨_, rfl⟩

theorem skippedEvaluation_ok_iff (reason : SkipReason) (condition expanded : Text)
    (logsource : List (Scalar O × Yaml O)) :
    (∃ r, lib.skippedEvaluation document reason condition expanded logsource = .ok r) ↔
      ¬ lib.EventIdFails document := by
  rw [← eventSourceSummary_ok_iff, Library.skippedEvaluation]
  cases lib.eventSourceSummary document with
  | error e => simp [bind, Except.bind]
  | ok source => simp [bind, Except.bind, pure, Except.pure]

theorem finishedEvaluation_ok_iff (verdict : Verdict) (condition expanded : Text)
    (logsource : List (Scalar O × Yaml O)) :
    (∃ r, lib.finishedEvaluation document verdict condition expanded logsource = .ok r) ↔
      ¬ lib.EventIdFails document := by
  rw [← eventSourceSummary_ok_iff, Library.finishedEvaluation]
  cases lib.eventSourceSummary document with
  | error e => simp [bind, Except.bind]
  | ok source => simp [bind, Except.bind, pure, Except.pure]

theorem evaluateCompiled_ok_iff (compiled : Compiled O) :
    (∃ r, lib.evaluateCompiled document compiled = .ok r) ↔ ¬ lib.EventIdFails document ∧
        ((∃ reason, lib.logsourceMismatch compiled.logsource document = .ok (some reason)) ∨
          (depth compiled.rpn 0 = some 1 ∧
            ∀ token ∈ names compiled.rpn, lib.TokenRuns document compiled token)) := by
  rw [Library.evaluateCompiled]
  by_cases hid : lib.EventIdFails document
  · -- every way out reads the event id
    refine iff_of_false ?_ fun h => h.1 hid
    rintro ⟨r, hr⟩
    obtain ⟨reason, -, hr⟩ := bind_eq_ok.1 hr
    cases reason with
    | some reason => exact (skippedEvaluation_ok_iff reason _ _ _).1 ⟨r, hr⟩ hid
    | none =>
      obtain ⟨verdict, -, hr⟩ := bind_eq_ok.1 hr
      exact (finishedEvaluation_ok_iff verdict _ _ _).1 ⟨r, hr⟩ hid
  · obtain ⟨reason, hreason⟩ := logsourceMismatch_ok hid compiled.logsource
    simp only [hreason, bind, Except.bind]
    cases reason with
    | some reason =>
      exact iff_of_true ((skippedEvaluation_ok_iff reason _ _ _).2 hid)
        ⟨hid, .inl ⟨reason, rfl⟩⟩
    | none =>
      have hrun : (∃ verdict, eval verdictAlgebra .indexError .valueError
            (lib.compiledOperand document compiled) compiled.rpn = .ok verdict) ↔
          depth compiled.rpn 0 = some 1 ∧
            ∀ token ∈ names compiled.rpn, lib.TokenRuns document compiled token := by
        rw [eval_ok_iff]
        simp only [compiledOperand_ok_iff]
      rw [← hrun]
      cases heval : eval verdictAlgebra .indexError .valueError
          (lib.compiledOperand document compiled) compiled.rpn with
      | error e => simp
      | ok verdict =>
        exact iff_of_true ((finishedEvaluation_ok_iff verdict _ _ _).2 hid)
          ⟨hid, .inr ⟨verdict, rfl⟩⟩

/-- The evaluation of a rule that compiles returns exactly when the event id
of the document can be read, and the document is skipped or the condition runs
on it: the stack holds one value at the end and enough of them before, and each
token stands for selections that meet no bad pattern. -/
theorem compiled_evaluates_iff {rule : Rule O} {compiled : Compiled O}
    (h : lib.compile rule = .ok (.compiled compiled)) (document : Document F) :
    (∃ r, lib.evaluateCompiled document compiled = .ok r) ↔ ¬ lib.EventIdFails document ∧
        ((∃ reason, lib.logsourceMismatch rule.logsource document = .ok (some reason)) ∨
          (depth compiled.rpn 0 = some 1 ∧
            ∀ token ∈ names compiled.rpn, lib.TokenRuns document compiled token)) := by
  obtain ⟨-, -, hlogsource, -⟩ := of_compile_eq_compiled h
  rw [evaluateCompiled_ok_iff, hlogsource]

/-- Without regular expressions a selection does not fail. -/
theorem not_selectionFails {clauses : List Clause}
    (h : ∀ clause ∈ clauses, clause.modifier.compare ≠ some .re) :
    ¬ lib.SelectionFails document clauses := by
  apply not_failsUntil
  intro group hgroup
  obtain ⟨alternative, -, rfl⟩ := List.mem_map.1 hgroup
  apply not_failsUntil
  intro clause hclause
  have hre := h clause (List.mem_of_mem_filter hclause)
  apply not_failsUntil
  intro field _
  apply not_failsUntil
  rintro exp - ⟨-, hbad, -⟩
  exact hre hbad

end

/-! ### A condition that ends in an operator -/

/-- The rule compiles with `selection and` for a condition, and its evaluation
raises on the empty document. -/
theorem dangling_operator_raises : asciiLibrary.compile (mimikatzRule "selection and") =
      .ok (.compiled (mimikatzCompiled "selection and"
        [.name "selection".toList, .op .and])) ∧
    ¬ ∃ r, asciiLibrary.evaluateCompiled [] (mimikatzCompiled "selection and"
      [.name "selection".toList, .op .and]) = .ok r := by
  constructor
  · exact compile_mimikatz (by decide +kernel) (by decide +kernel)
  · rw [evaluateCompiled_ok_iff]
    rintro ⟨-, ⟨reason, hreason⟩ | ⟨hdepth, -⟩⟩
    · cases hreason
    · cases hdepth

/-- With the operator gone it returns. -/
theorem plain_condition_returns : asciiLibrary.compile (mimikatzRule "selection") =
      .ok (.compiled (mimikatzCompiled "selection" [.name "selection".toList])) ∧
    ∃ r, asciiLibrary.evaluateCompiled [] (mimikatzCompiled "selection"
      [.name "selection".toList]) = .ok r := by
  have hcompile : asciiLibrary.compile (mimikatzRule "selection") =
      .ok (.compiled (mimikatzCompiled "selection" [.name "selection".toList])) :=
    compile_mimikatz (by decide +kernel) (by decide +kernel)
  refine ⟨hcompile, (compiled_evaluates_iff hcompile []).2 ⟨?_, .inr ⟨rfl, ?_⟩⟩⟩
  · rintro (⟨hdigits, -⟩ | ⟨-, ⟨hdigits, -⟩ | ⟨-, ⟨hdigits, -⟩ | ⟨-, hnone⟩⟩⟩)
    · cases hdigits
    · cases hdigits
    · cases hdigits
    · exact hnone
  · intro token htoken
    obtain rfl : token = "selection".toList := List.mem_singleton.1 htoken
    refine ⟨by decide, fun name hname => not_selectionFails ?_⟩
    obtain rfl : name = "selection".toList := List.mem_singleton.1 hname
    decide +kernel

end Kairon.Sigma

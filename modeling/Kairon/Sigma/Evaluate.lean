/-
Kairon/Sigma/Evaluate.lean

The two evaluators: `evaluate_sigma_rule` on the rule itself, and
`evaluate_compiled_sigma_rule` on its compiled form.

Both run the condition on a stack machine whose values are verdicts: whether
the part matched, the fields it matched on, and notes on data quality.  They
differ in how an operand is looked up.
-/
import Kairon.Sigma.Compile

namespace Kairon.Sigma

open Search (Text Json strip)
open Rpn Settle

/-! ### Verdicts -/

/-- A field that matched. -/
structure Hit where
  mappedField : Text
  expected : List Text
  actual : List Text

/-- The verdict on a part of a rule. -/
structure Verdict where
  matched : Bool
  fields : List (Text × Hit)
  quality : List Text

/-- `d.update(other)`. -/
def mergeFields (fields others : List (Text × Hit)) : List (Text × Hit) :=
  others.foldl (fun fs entry => Dict.set entry.1 entry.2 fs) fields

/-- The connectives of the stack machine. -/
def verdictAlgebra : Algebra Verdict where
  neg v := ⟨!v.matched, if v.matched then [] else v.fields, v.quality⟩
  conj l r := ⟨l.matched && r.matched, mergeFields l.fields r.fields, l.quality ++ r.quality⟩
  disj l r := ⟨l.matched || r.matched, (if r.matched then r else l).fields, l.quality ++ r.quality⟩

/-- Whether a part matched does not depend on the rest of its verdict. -/
theorem hom_matched : Hom verdictAlgebra boolAlgebra Verdict.matched :=
  ⟨fun _ => rfl, fun _ _ => rfl, fun _ _ => rfl⟩

/-- What an evaluation returns. -/
structure Evaluation (F O : Type) where
  matched : Bool
  matchedFields : List (Text × Hit)
  conditionSummary : Text
  expandedCondition : Text
  dataQuality : List Text
  skipReason : Option SkipReason
  expectedLogsource : List (Scalar O × Yaml O)
  actualEventSource : EventSource F

section

variable {F O : Type} (lib : Library F O) (document : Document F)

/-! ### Clauses -/

/-- The first mapped field that matches, with its values. -/
def Library.firstField (modifier : Modifier) (expected : List Text) :
    List Text → Except SigmaError (Option (Text × List Text))
  | [] => .ok none
  | field :: fields => do
      let actual := lib.actualValues document field
      if ← lib.matchScalar modifier actual expected then pure (some (field, actual))
      else Library.firstField modifier expected fields

/-- One clause: how it matched, if it did, and notes. -/
def Library.matchClause (clause : Clause) : Except SigmaError (Option Hit × List Text) := do
  match ← lib.firstField document clause.modifier clause.expected clause.mappedFields with
  | some (field, actual) =>
    pure (some ⟨field, clause.expected, actual.take 5⟩,
      if clause.usedFallback then ["sigma_field_fallback_search_text".toList] else [])
  | none =>
    match lib.matchBasenameAlternate document clause.baseField clause.modifier
        clause.expected with
    | some field =>
      pure (some ⟨field, clause.expected, (lib.actualValues document field).take 5⟩,
        ["sigma_image_matched_by_process_name".toList])
    | none => pure (none, [])

/-- The loop over the clauses of one map, in `_match_selection` and in
`_match_compiled_clauses`: all of them have to match. -/
def Library.matchClauses : List Clause → List (Text × Hit) → List Text → Except SigmaError Verdict
  | [], fields, quality => .ok ⟨true, fields, quality⟩
  | clause :: clauses, fields, quality => do
      match ← lib.matchClause document clause with
      | (some hit, notes) =>
        Library.matchClauses clauses (Dict.set clause.sigmaField hit fields) (quality ++ notes)
      | (none, notes) => pure ⟨false, [], quality ++ notes⟩

/-- The loop over alternatives: one of them has to match. -/
def Library.matchAlternatives : List (List Clause) → List Text → Except SigmaError Verdict
  | [], quality => .ok ⟨false, [], quality⟩
  | clauses :: alternatives, quality => do
      let verdict ← lib.matchClauses document clauses [] []
      if verdict.matched then pure ⟨true, verdict.fields, quality ++ verdict.quality⟩
      else Library.matchAlternatives alternatives (quality ++ verdict.quality)

/-- The verdicts on the names a token stands for, put together. -/
def combine : List Verdict → Verdict → Verdict
  | [], verdict => verdict
  | v :: vs, verdict =>
    combine vs ⟨verdict.matched || v.matched,
      if v.matched then mergeFields verdict.fields v.fields else verdict.fields,
      verdict.quality ++ v.quality⟩

/-! ### The rule itself -/

/-- `_match_selection`. -/
def Library.matchSelection (keywords : Bool) (name : Text) (selection : Yaml O) :
    Except SigmaError Verdict :=
  if keywords && lib.isKeywordSelection selection then do
    let values := lib.keywordValues selection
    match ← lib.firstField document ⟨some .keyword, false⟩ values
        (mappedSigmaFields "_keywords".toList).1 with
    | some (field, actual) => pure ⟨true, [(name, ⟨field, values.take 5, actual.take 1⟩)], []⟩
    | none => pure ⟨false, [], []⟩
  else if isMapListSelection selection then
    lib.matchAlternatives document
      ((selectionBlocks selection).map fun block => block.map (lib.clauseOf none)) []
  else
    match selection with
    | .map entries => lib.matchClauses document (entries.map (lib.clauseOf none)) [] []
    | _ => .ok ⟨false, [], [name ++ " is not a valid mapping".toList]⟩

/-- `_expand_selection_tokens` on the detection: a pattern cannot be matched
against a name that is no string. -/
def expandRawToken (rule : Rule O) (token : Text) : Except SigmaError (List Text) :=
  if '*' ∉ token then .ok [token]
  else do
    let names ← rule.selections.mapM fun entry =>
      match entry.1.text? with
      | some name => .ok name
      | none => .error .typeError
    pure (names.filter (selectorPattern token))

/-- The verdict on an operand. -/
def Library.rawOperand (rule : Rule O) (token : Text) : Except SigmaError Verdict := do
  let names ← expandRawToken rule token
  if names = [] then .error .valueError
  else do
    let verdicts ← names.mapM fun name =>
      lib.matchSelection document (lib.keywordsSupported rule) name
        ((lookup rule.detection name).getD (.scalar .null))
    pure (combine verdicts ⟨false, [], []⟩)

/-- The result for a skipped document. -/
def Library.skippedEvaluation (reason : SkipReason) (condition expanded : Text)
    (logsource : List (Scalar O × Yaml O)) : Except SigmaError (Evaluation F O) := do
  let source ← lib.eventSourceSummary document
  pure ⟨false, [], condition, expanded, [], some reason, logsource, source⟩

/-- The result for a document the condition was run on. -/
def Library.finishedEvaluation (verdict : Verdict) (condition expanded : Text)
    (logsource : List (Scalar O × Yaml O)) : Except SigmaError (Evaluation F O) := do
  let source ← lib.eventSourceSummary document
  pure ⟨verdict.matched, verdict.fields, condition, expanded, sortedUnique verdict.quality, none,
    logsource, source⟩

/-- `evaluate_sigma_rule`. -/
def Library.evaluateRule (rule : Rule O) : Except SigmaError (Evaluation F O) := do
  match ← lib.logsourceMismatch rule.logsource document with
  | some reason =>
    lib.skippedEvaluation document reason (lib.condition rule) (lib.condition rule) rule.logsource
  | none =>
    if (lib.expandConditionTerms rule).2.isSome then .error .valueError
    else
      match lib.conditionRpn (lib.expandedCondition rule) with
      | none => .error .valueError
      | some rpn => do
          let verdict ← eval verdictAlgebra .indexError .valueError
            (lib.rawOperand document rule) rpn
          lib.finishedEvaluation document verdict (lib.condition rule)
            (strip (lib.expandedCondition rule)) rule.logsource

/-! ### The compiled rule -/

/-- `groups.setdefault(clause.get("alternative"), []).append(clause)`. -/
def groupClauses (clauses : List Clause) : List (List Clause) :=
  ((clauses.map Clause.alternative).eraseDups).map fun a =>
    clauses.filter fun clause => clause.alternative = a

/-- The verdict on a compiled selection; without clauses there is one group,
and it is empty. -/
def Library.matchCompiledSelection (clauses : List Clause) : Except SigmaError Verdict :=
  let groups := groupClauses clauses
  lib.matchAlternatives document (if groups = [] then [[]] else groups) []

/-- `_expand_selection_tokens` on the compiled selections. -/
def expandCompiledToken (compiled : Compiled O) (token : Text) : List Text :=
  if '*' ∉ token then [token]
  else ((compiled.selections.map Prod.fst).filter (· ≠ "condition".toList)).filter
    (selectorPattern token)

/-- `selections.get(name) or []`. -/
def compiledClauses (compiled : Compiled O) (name : Text) : List Clause :=
  ((compiled.selections.find? fun entry => entry.1 = name).map Prod.snd).getD []

/-- The verdict on an operand. -/
def Library.compiledOperand (compiled : Compiled O) (token : Text) : Except SigmaError Verdict :=
  let names := expandCompiledToken compiled token
  if names = [] then .error .valueError
  else do
    let verdicts ← names.mapM fun name =>
      lib.matchCompiledSelection document (compiledClauses compiled name)
    pure (combine verdicts ⟨false, [], []⟩)

/-- `evaluate_compiled_sigma_rule`. -/
def Library.evaluateCompiled (compiled : Compiled O) : Except SigmaError (Evaluation F O) := do
  match ← lib.logsourceMismatch compiled.logsource document with
  | some reason =>
    lib.skippedEvaluation document reason (strip compiled.condition)
      (strip compiled.expandedCondition) compiled.logsource
  | none =>
    let verdict ← eval verdictAlgebra .indexError .valueError
      (lib.compiledOperand document compiled) compiled.rpn
    lib.finishedEvaluation document verdict (strip compiled.condition)
      (strip compiled.expandedCondition) compiled.logsource

/-! ### What matched -/

/-- Whether a clause matches: one of its fields, or the name in place of the
path. -/
def Library.clauseHolds (clause : Clause) : Except SigmaError Bool := do
  if ← anyOk (fun field => lib.matchScalar clause.modifier (lib.actualValues document field)
      clause.expected) clause.mappedFields then pure true
  else pure (lib.matchBasenameAlternate document clause.baseField clause.modifier
    clause.expected).isSome

/-- Whether a compiled selection matches. -/
def Library.selectionHolds (clauses : List Clause) : Except SigmaError Bool :=
  anyOk (allOk (lib.clauseHolds document))
    (if groupClauses clauses = [] then [[]] else groupClauses clauses)

end

section

variable {F O : Type} {lib : Library F O} {document : Document F}

theorem firstField_isSome (modifier : Modifier) (expected fields : List Text) :
    (lib.firstField document modifier expected fields).map Option.isSome =
      anyOk (fun field => lib.matchScalar modifier (lib.actualValues document field) expected)
        fields := by
  induction fields with
  | nil => rfl
  | cons field fields ih =>
    rw [Library.firstField, anyOk, ← ih]
    cases lib.matchScalar modifier (lib.actualValues document field) expected with
    | error e => rfl
    | ok b =>
      cases b with
      | true => rfl
      | false => rfl

theorem matchClause_isSome (clause : Clause) :
    (lib.matchClause document clause).map (fun found => found.1.isSome) =
      lib.clauseHolds document clause := by
  rw [Library.matchClause, Library.clauseHolds, ← firstField_isSome]
  cases lib.firstField document clause.modifier clause.expected clause.mappedFields with
  | error e => rfl
  | ok found =>
    cases found with
    | some hit => rfl
    | none =>
      cases lib.matchBasenameAlternate document clause.baseField clause.modifier
          clause.expected with
      | none | some field => simp [bind, Except.bind, pure, Except.pure, Except.map]

theorem matchClauses_matched (clauses : List Clause) (fields : List (Text × Hit))
    (quality : List Text) :
    (lib.matchClauses document clauses fields quality).map Verdict.matched =
      allOk (lib.clauseHolds document) clauses := by
  induction clauses generalizing fields quality with
  | nil => rfl
  | cons clause clauses ih =>
    rw [Library.matchClauses, allOk, ← matchClause_isSome]
    cases lib.matchClause document clause with
    | error e => rfl
    | ok found =>
      obtain ⟨hit, notes⟩ := found
      cases hit with
      | none => rfl
      | some hit => exact ih (Dict.set clause.sigmaField hit fields) (quality ++ notes)

theorem matchAlternatives_matched (groups : List (List Clause)) (quality : List Text) :
    (lib.matchAlternatives document groups quality).map Verdict.matched =
      anyOk (allOk (lib.clauseHolds document)) groups := by
  induction groups generalizing quality with
  | nil => rfl
  | cons clauses groups ih =>
    rw [Library.matchAlternatives, anyOk, ← matchClauses_matched clauses [] []]
    cases lib.matchClauses document clauses [] [] with
    | error e => rfl
    | ok verdict =>
      obtain ⟨matched, fields, notes⟩ := verdict
      cases matched with
      | true => rfl
      | false => exact ih (quality ++ notes)

/-- The verdicts of a row of names, put together. -/
theorem mapM_combine_matched {f : Text → Except SigmaError Verdict} (names : List Text)
    (verdict : Verdict) :
    ((names.mapM f) >>= fun vs => pure (combine vs verdict)).map Verdict.matched =
      (someOk (fun name => (f name).map Verdict.matched) names).map (verdict.matched || ·) := by
  induction names generalizing verdict with
  | nil => simp [someOk, combine, Except.map, pure, Except.pure, bind, Except.bind]
  | cons name names ih =>
    rw [List.mapM_cons, someOk]
    cases f name with
    | error e => rfl
    | ok v =>
      have h := ih ⟨verdict.matched || v.matched,
        if v.matched then mergeFields verdict.fields v.fields else verdict.fields,
        verdict.quality ++ v.quality⟩
      cases hvs : names.mapM f with
      | error e =>
        cases hs : someOk (fun name => (f name).map Verdict.matched) names with
        | error e' =>
          rw [hvs, hs] at h
          exact h
        | ok b =>
          rw [hvs, hs] at h
          cases h
      | ok vs =>
        cases hs : someOk (fun name => (f name).map Verdict.matched) names with
        | error e' =>
          rw [hvs, hs] at h
          cases h
        | ok b =>
          rw [hvs, hs] at h
          simpa [bind, Except.bind, pure, Except.pure, Except.map, combine, Bool.or_assoc] using h

/-- Whether a token matches, on the compiled rule. -/
theorem compiledOperand_matched (compiled : Compiled O) (token : Text) :
    (lib.compiledOperand document compiled token).map Verdict.matched =
      if expandCompiledToken compiled token = [] then .error .valueError
      else someOk (fun name => lib.selectionHolds document (compiledClauses compiled name))
        (expandCompiledToken compiled token) := by
  rw [Library.compiledOperand]
  by_cases hnames : expandCompiledToken compiled token = []
  · rw [if_pos hnames, if_pos hnames]
    rfl
  · rw [if_neg hnames, if_neg hnames, mapM_combine_matched]
    have h : (fun name => (lib.matchCompiledSelection document
          (compiledClauses compiled name)).map Verdict.matched) =
        fun name => lib.selectionHolds document (compiledClauses compiled name) := by
      funext name
      exact matchAlternatives_matched _ []
    rw [h]
    cases someOk (fun name => lib.selectionHolds document (compiledClauses compiled name))
        (expandCompiledToken compiled token) with
    | error e => rfl
    | ok b => simp [Except.map]

end

end Kairon.Sigma

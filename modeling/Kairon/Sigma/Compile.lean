/-
Kairon/Sigma/Compile.lean

`compile_sigma_rule`: the checks a rule has to pass, and the clauses its
selections are rewritten into.
-/
import Kairon.Lib.Dict
import Kairon.Sigma.Match

namespace Kairon.Sigma

open Search (Text strip)
open Rpn

section

variable {F O : Type} (lib : Library F O)

/-! ### Checks -/

/-- Why the engine does not run a rule. -/
inductive EngineStatus
  | keywordOnlyDetection
  | unmappedField
  | keyword (issue : KeywordIssue)
  | keywordSelectionUnsupported
  | unsupportedModifier
  | unsupportedCorrelation
  | condition (issue : ConditionIssue)
  | compileError

/-- `sorted(dict.fromkeys(...))`. -/
def sortedUnique (ts : List Text) : List Text := ts.dedup.mergeSort fun a b => a ≤ b

/-- `extract_sigma_detection_fields`. -/
def Library.detectionFields (rule : Rule O) : List Text :=
  sortedUnique (rule.selections.flatMap fun entry =>
    if lib.keywordsSupported rule && lib.isKeywordSelection entry.2 then ["_keywords".toList]
    else (selectionBlocks entry.2).flatMap fun block =>
      block.map fun item => splitField (lib.scalarStr item.1))

/-- A field the engine cannot evaluate. -/
def isUnmapped (field : Text) : Bool :=
  let base := baseField field
  base ≠ [] && !(searchTextFallbackFields.any fun f => f.toList = base) &&
    match sigmaFieldMap.get base with
    | none => true
    | some targets => targets.all fun target =>
      nonQueryableFieldPrefixes.any fun start => start.toList.isPrefixOf target.toList

/-- `_detect_unmapped_fields`. -/
def Library.unmappedFields (rule : Rule O) : List Text :=
  sortedUnique (((lib.detectionFields rule).filter isUnmapped).map baseField)

/-- `SUPPORTED_MODIFIERS`. -/
def supportedModifiers : List String :=
  ["contains", "endswith", "startswith", "re", "all", "windash"]

/-- `_detect_unsupported_modifiers`. -/
def Library.unsupportedModifiers (rule : Rule O) : List Text :=
  sortedUnique (rule.selections.flatMap fun entry =>
    (selectionBlocks entry.2).flatMap fun block =>
      block.flatMap fun item => (modifiersOf (lib.scalarStr item.1)).filter fun m =>
        !supportedModifiers.any fun s => s.toList = m)

/-- The first issue with a keyword selection. -/
def Library.keywordStatus (rule : Rule O) : Option EngineStatus :=
  rule.selections.findSome? fun entry =>
    if lib.keywordsSupported rule && lib.isKeywordSelection entry.2 then
      (lib.keywordSelectionIssue (lib.keywordValues entry.2)).map .keyword
    else none

/-- The condition after expansion, or as it is. -/
def Library.expandedCondition (rule : Rule O) : Text :=
  let expanded := (lib.expandConditionTerms rule).1
  if expanded = [] then lib.condition rule else expanded

/-- `analyze_sigma_engine_compatibility`: the status of a rule that is not
executable.  Later checks take the place of earlier ones where the source
assigns the status, and keep it where the source asks for it first. -/
def Library.engineStatus (rule : Rule O) : Option EngineStatus :=
  let fields := lib.detectionFields rule
  let status :=
    if fields = [] ∧ rule.detection ≠ [] then some .keywordOnlyDetection else none
  let status := if lib.unmappedFields rule ≠ [] then some .unmappedField else status
  let status := status.or (lib.keywordStatus rule)
  let status :=
    if !lib.keywordsSupported rule ∧
        (rule.selections.any fun entry => lib.isKeywordSelection entry.2) then
      status.or (some .keywordSelectionUnsupported)
    else status
  let status := if lib.unsupportedModifiers rule ≠ [] then some .unsupportedModifier else status
  let status :=
    if lib.atSomeWord lib.correlationHere false (lib.condition rule) then
      status.or (some .unsupportedCorrelation)
    else status
  let status :=
    match (lib.expandConditionTerms rule).2 with
    | some issue => some (.condition issue)
    | none => status
  match lib.conditionIssue (lib.expandedCondition rule) with
  | none => status
  | some .unsupportedCondition => status.or (some (.condition .unsupportedCondition))
  | some _ => status.or (some .compileError)

/-! ### Clauses -/

/-- A clause of a compiled selection. -/
structure Clause where
  sigmaField : Text
  baseField : Text
  mappedFields : List Text
  modifier : Modifier
  expected : List Text
  usedFallback : Bool
  alternative : Option ℕ

/-- The clause of one entry of a map. -/
def Library.clauseOf (alternative : Option ℕ) (entry : Scalar O × Yaml O) : Clause :=
  let field := lib.scalarStr entry.1
  let (base, modifier, _) := parseFieldModifiers field
  { sigmaField := field
    baseField := base
    mappedFields := (mappedSigmaFields field).1
    modifier := modifier
    expected := lib.expectedValues field entry.2
    usedFallback := (mappedSigmaFields field).2
    alternative := alternative }

/-- The clause of a keyword selection. -/
def Library.keywordClause (selection : Yaml O) : Clause where
  sigmaField := "_keywords".toList
  baseField := "_keywords".toList
  mappedFields := (mappedSigmaFields "_keywords".toList).1
  modifier := ⟨some .keyword, false⟩
  expected := lib.keywordValues selection
  usedFallback := false
  alternative := none

/-- The clauses of the maps of a list; several are numbered. -/
def Library.blockClauses (blocks : List (List (Scalar O × Yaml O))) : List Clause :=
  blocks.zipIdx.flatMap fun block =>
    block.1.map (lib.clauseOf (if blocks.length > 1 then some block.2 else none))

/-- The clauses of a selection; `none` for one that is passed over. -/
def Library.compileSelection (keywords : Bool) (selection : Yaml O) : Option (List Clause) :=
  if keywords && lib.isKeywordSelection selection then some [lib.keywordClause selection]
  else
    match selection with
    | .map entries => some (lib.blockClauses [entries])
    | .list _ =>
      if isMapListSelection selection then some (lib.blockClauses (selectionBlocks selection))
      else none
    | .scalar _ => none

/-- The compiled selections, under their names as texts. -/
def Library.compileSelections (keywords : Bool) :
    List (Scalar O × Yaml O) → List (Text × List Clause) → List (Text × List Clause)
  | [], compiled => compiled
  | entry :: entries, compiled =>
    Library.compileSelections keywords entries
      (match lib.compileSelection keywords entry.2 with
      | some clauses => Dict.set (lib.scalarStr entry.1) clauses compiled
      | none => compiled)

/-- A rule with status `compiled`, as far as evaluation reads it. -/
structure Compiled (O : Type) where
  logsource : List (Scalar O × Yaml O)
  condition : Text
  expandedCondition : Text
  rpn : List (Item Text)
  selections : List (Text × List Clause)

inductive CompileResult (O : Type)
  | compiled (rule : Compiled O)
  | skipped (status : EngineStatus)

/-- `compile_sigma_rule`. -/
def Library.compile (rule : Rule O) : Except SigmaError (CompileResult O) :=
  match lib.engineStatus rule with
  | some status => .ok (.skipped status)
  | none =>
    match lib.conditionRpn (lib.expandedCondition rule) with
    | none => .error .valueError
    | some rpn => .ok (.compiled
        { logsource := rule.logsource
          condition := lib.condition rule
          expandedCondition := lib.expandedCondition rule
          rpn := rpn
          selections :=
            lib.compileSelections (lib.keywordsSupported rule) rule.selections [] })

variable {lib}

/-- The compiled form of a rule that passes the checks. -/
theorem compile_eq_compiled {rule : Rule O} {rpn : List (Item Text)}
    (hstatus : lib.engineStatus rule = none)
    (hrpn : lib.conditionRpn (lib.expandedCondition rule) = some rpn) :
    lib.compile rule = .ok (.compiled
      { logsource := rule.logsource
        condition := lib.condition rule
        expandedCondition := lib.expandedCondition rule
        rpn := rpn
        selections :=
          lib.compileSelections (lib.keywordsSupported rule) rule.selections [] }) := by
  rw [Library.compile, hstatus, hrpn]

/-- What compilation keeps of a rule. -/
theorem of_compile_eq_compiled {rule : Rule O} {compiled : Compiled O}
    (h : lib.compile rule = .ok (.compiled compiled)) :
    lib.engineStatus rule = none ∧
      lib.conditionRpn (lib.expandedCondition rule) = some compiled.rpn ∧
      compiled.logsource = rule.logsource ∧
      compiled.selections =
        lib.compileSelections (lib.keywordsSupported rule) rule.selections [] := by
  rw [Library.compile] at h
  split at h
  · cases h
  · split at h
    · cases h
    · cases h
      exact ⟨‹_›, ‹_›, rfl, rfl⟩

end

/-! ### An example -/

/-- A rule on one selection, `CommandLine|contains: mimikatz`. -/
def mimikatzRule (condition : String) : Rule Empty where
  logsource := []
  detection :=
    [(.str "condition".toList, .scalar (.str condition.toList)), (.str "selection".toList,
        .map [(.str "CommandLine|contains".toList, .scalar (.str "mimikatz".toList))])]
  detection_nodup := by simp [Scalar.text?]

/-- Its compiled form. -/
def mimikatzCompiled (condition : String) (rpn : List (Item Text)) : Compiled Empty where
  logsource := []
  condition := asciiLibrary.condition (mimikatzRule condition)
  expandedCondition := asciiLibrary.expandedCondition (mimikatzRule condition)
  rpn := rpn
  selections := asciiLibrary.compileSelections false (mimikatzRule condition).selections []

theorem compile_mimikatz {condition : String} {rpn : List (Item Text)}
    (hstatus : asciiLibrary.engineStatus (mimikatzRule condition) = none)
    (hrpn : asciiLibrary.conditionRpn
      (asciiLibrary.expandedCondition (mimikatzRule condition)) = some rpn) :
    asciiLibrary.compile (mimikatzRule condition) =
      .ok (.compiled (mimikatzCompiled condition rpn)) :=
  compile_eq_compiled hstatus hrpn

end Kairon.Sigma

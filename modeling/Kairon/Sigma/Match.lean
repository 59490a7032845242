/-
Kairon/Sigma/Match.lean

Documents against the parts of a rule: the values under a field, the
comparison of texts, and the log source.

A comparison fails on an invalid regular expression, and reading the event id
of a document fails on a text that `isdigit` accepts and `int` does not; both
are errors of the model.
-/
import Kairon.Search.Query
import Kairon.Sigma.Condition

namespace Kairon.Sigma

open Search (Text Json getField splitPath isSpace strip intStr)
open Settle

/-- What evaluation raises. -/
inductive SigmaError
  | indexError | valueError | reError | typeError
  deriving DecidableEq

section

variable {F O : Type} (lib : Library F O)

/-! ### Documents -/

abbrev Document (F : Type) := List (Text × Json F)

/-- `str` of a value of a document. -/
def Library.jsonStr : Json F → Text
  | .null => "None".toList
  | .bool true => "True".toList
  | .bool false => "False".toList
  | .int n => intStr n
  | .float x => lib.floatStr x
  | .str s => s
  | .arr items => lib.containerStr (.arr items)
  | .obj fields => lib.containerStr (.obj fields)

/-- The truth of a value of a document. -/
def Library.jsonTruthy : Json F → Bool
  | .null => false
  | .bool b => b
  | .int n => n ≠ 0
  | .float x => lib.floatTruthy x
  | .str s => s ≠ []
  | .arr items => !items.isEmpty
  | .obj fields => !fields.isEmpty

/-- The loop of `_get_nested_value`. -/
def walk : List Text → Json F → Json F
  | [], v => v
  | part :: parts, .obj fields => walk parts ((getField fields part).getD .null)
  | _ :: _, _ => .null

/-- `_get_nested_value`. -/
def getNestedValue (document : Document F) (dotted : Text) : Json F :=
  walk (splitPath dotted) (.obj document)

mutual

/-- `_stringify_values`. -/
def Library.stringifyValues : Json F → List Text
  | .null => []
  | .arr items => Library.stringifyAll items
  | .obj fields => [lib.containerStr (.obj fields)]
  | .bool true => ["True".toList]
  | .bool false => ["False".toList]
  | .int n => [intStr n]
  | .float x => [lib.floatStr x]
  | .str s => [s]

def Library.stringifyAll : List (Json F) → List Text
  | [] => []
  | v :: vs => Library.stringifyValues v ++ Library.stringifyAll vs

end

/-- The texts under a field of a document. -/
def Library.actualValues (document : Document F) (field : Text) : List Text :=
  lib.stringifyValues (getNestedValue document field)

/-! ### Comparison -/

/-- One expected text against one text of the document. -/
def Library.matchText (compare : Option Comparison) (expected actual : Text) :
    Except SigmaError Bool :=
  match compare with
  | some .keyword => .ok (lib.keywordSearch expected actual)
  | some .contains => .ok (decide (lib.lower expected <:+: lib.lower actual))
  | some .startswith => .ok (decide (lib.lower expected <+: lib.lower actual))
  | some .endswith => .ok (decide (lib.lower expected <:+ lib.lower actual))
  | some .re =>
    match lib.searchRegex expected with
    | some search => .ok (search actual)
    | none => .error .reError
  | none => .ok (lib.lower actual = lib.lower expected)

/-- `_match_scalar` without `all`. -/
def Library.matchAny (compare : Option Comparison) (actual expected : List Text) :
    Except SigmaError Bool :=
  anyOk (fun exp => anyOk (lib.matchText compare exp) actual) expected

/-- `_match_scalar`. -/
def Library.matchScalar (modifier : Modifier) (actual expected : List Text) :
    Except SigmaError Bool :=
  if modifier.all then allOk (fun exp => lib.matchAny modifier.compare actual [exp]) expected
  else lib.matchAny modifier.compare actual expected

/-- `_match_basename_alternate`: the name field, if one of the names is in
it. -/
def Library.matchBasenameAlternate (document : Document F) (base : Text) (modifier : Modifier)
    (expected : List Text) : Option Text :=
  match basenameAlternates base modifier expected with
  | none => none
  | some (field, names) =>
    if (lib.actualValues document field).any fun actual =>
        names.any fun name => lib.lower actual = lib.lower name
    then some field else none

/-! ### Log sources -/

/-- The loop of `_document_event_id`. -/
def Library.eventIdOf (document : Document F) : List String → Except SigmaError (Option ℤ)
  | [] => .ok none
  | field :: fields =>
    let value := match getNestedValue document field.toList with
      | .arr items => items.head?.getD .null
      | v => v
    match value with
    | .null => Library.eventIdOf document fields
    | v =>
      let text := strip (lib.jsonStr v)
      if text ≠ [] ∧ text.all lib.isDigit then
        match lib.parseInt text with
        | some n => .ok (some n)
        | none => .error .valueError
      else Library.eventIdOf document fields

/-- `_document_event_id`. -/
def Library.documentEventId (document : Document F) : Except SigmaError (Option ℤ) :=
  lib.eventIdOf document ["windows.event_id", "event.code", "event.id"]

/-- A label with dashes and spaces as underscores. -/
def underscored (t : Text) : Text := t.map fun c => if c = '-' ∨ c = ' ' then '_' else c

/-- `_document_event_labels`. -/
def Library.documentEventLabels (document : Document F) : List Text :=
  (["event.type", "event.action", "artifact.type", "artifact.parser", "linux.audit_type"].flatMap
    fun field => (lib.actualValues document field.toList).map fun item =>
      underscored (lib.lower (strip item))).filter (· ≠ [])

/-- `str(_get_nested_value(document, field) or "")`. -/
def Library.documentText (document : Document F) (field : String) : Text :=
  let v := getNestedValue document field.toList
  if lib.jsonTruthy v then lib.jsonStr v else []

/-- The same, stripped and in lower case. -/
def Library.documentLabel (document : Document F) (field : String) : Text :=
  lib.lower (strip (lib.documentText document field))

/-- `_is_windows_record`. -/
def Library.isWindowsRecord (document : Document F) : Bool :=
  windowsEventLogArtifactTypes.any (fun t => t.toList = lib.documentLabel document "artifact.type") ||
    lib.documentLabel document "os.type" = "windows".toList ||
    match getNestedValue document "windows.event_id".toList with
    | .null => false
    | .str s => s ≠ []
    | _ => true

/-- `_document_channel`. -/
def Library.documentChannel (document : Document F) : Text :=
  lib.lower (if lib.jsonTruthy (getNestedValue document "windows.channel".toList) then
      lib.documentText document "windows.channel"
    else lib.documentText document "event.channel")

/-- `channel_matches_service`. -/
def Library.channelMatchesService (channel service : Text) : Bool :=
  match sigmaServiceChannelHints.get service with
  | none => true
  | some patterns => patterns.any fun pattern =>
    if pattern.toList.getLast? = some '*' then
      pattern.toList.dropLast.isPrefixOf (lib.lower (strip channel))
    else lib.lower (strip channel) = pattern.toList

inductive SkipReason
  | logsourceMismatch | missingLogsourceFields

/-- The checks of `document_matches_sigma_logsource` before the category. -/
def Library.sourceMismatch (product service category : Text) (document : Document F) : Bool :=
  let artifact := lib.documentLabel document "artifact.type"
  let channel := lib.documentChannel document
  (product = "windows".toList && artifact ≠ [] &&
    !windowsEventLogArtifactTypes.any fun t => t.toList = artifact) ||
  (product = "linux".toList && lib.isWindowsRecord document) ||
  (product = "linux".toList && match linuxServiceArtifactTypes.get service with
    | some types => "linux_".toList.isPrefixOf artifact && !types.any fun t => t.toList = artifact
    | none => false) ||
  (service ≠ [] && channel ≠ [] && !lib.channelMatchesService channel service) ||
  (product = "windows".toList && channel ≠ [] && match sigmaCategoryServiceHints.get category with
    | some services => !services.any fun s => lib.channelMatchesService channel s.toList
    | none => false)

/-- The check of the category. -/
def Library.categoryMismatch (category : Text) (document : Document F) :
    Except SigmaError (Option SkipReason) := do
  let eventId ← lib.documentEventId document
  let ids := (sigmaEventIdHints.get category).getD []
  let labels := lib.documentEventLabels document
  let hinted := ((sigmaCategoryEventTypeHints.get category).getD []).map String.toList
  match eventId with
  | some id => pure (if ids ≠ [] ∧ id ∉ ids then some .logsourceMismatch else none)
  | none =>
    if labels.any (· ∈ hinted) then pure none
    else if hinted ≠ [] ∧ labels ≠ [] then pure (some .logsourceMismatch)
    else pure (some .missingLogsourceFields)

/-- `document_matches_sigma_logsource`: why the document is skipped. -/
def Library.logsourceMismatch (logsource : List (Scalar O × Yaml O)) (document : Document F) :
    Except SigmaError (Option SkipReason) :=
  let product := lib.logsourceText logsource "product"
  let service := lib.logsourceText logsource "service"
  let category := lib.logsourceText logsource "category"
  if lib.sourceMismatch product service category document then .ok (some .logsourceMismatch)
  else if category = [] then .ok none
  else lib.categoryMismatch category document

/-- `event_source_summary`. -/
structure EventSource (F : Type) where
  artifactType : Json F
  artifactParser : Json F
  channel : Json F
  provider : Json F
  eventId : Option ℤ
  eventType : Json F
  eventAction : Json F

/-- `a or b` of two fields. -/
def Library.eitherField (document : Document F) (first second : String) : Json F :=
  let v := getNestedValue document first.toList
  if lib.jsonTruthy v then v else getNestedValue document second.toList

def Library.eventSourceSummary (document : Document F) : Except SigmaError (EventSource F) := do
  let eventId ← lib.documentEventId document
  pure
    { artifactType := getNestedValue document "artifact.type".toList
      artifactParser := getNestedValue document "artifact.parser".toList
      channel := lib.eitherField document "windows.channel" "event.channel"
      provider := lib.eitherField document "windows.provider" "event.provider"
      eventId := eventId
      eventType := getNestedValue document "event.type".toList
      eventAction := getNestedValue document "event.action".toList }

end

end Kairon.Sigma

/-
Kairon/Sigma/Rule.lean

Sigma rules as they come out of YAML, and how their parts are read: the kinds
of selections, the modifiers behind a field name, keywords with wildcards.

`Library` holds what the engine takes from Python: case mapping, character
classes, conversions to text, and regular expressions.
-/
import Kairon.Sigma.Tables
import Mathlib

namespace Kairon.Sigma

open Search (Text Json isSpace strip intStr asciiInt)
open Glob

/-! ### Values -/

/-- A scalar of a rule; `O` is the type of floats, dates and the like. -/
inductive Scalar (O : Type)
  | null
  | bool (b : Bool)
  | int (n : ℤ)
  | str (s : Text)
  | other (x : O)

/-- A value of a rule. -/
inductive Yaml (O : Type)
  | scalar (x : Scalar O)
  | list (items : List (Yaml O))
  | map (entries : List (Scalar O × Yaml O))

/-- The name under a string key. -/
def Scalar.text? {O : Type} : Scalar O → Option Text
  | .str s => some s
  | _ => none

/-- A rule with the two mappings the engine reads.  No two entries of a
mapping have the same key. -/
structure Rule (O : Type) where
  logsource : List (Scalar O × Yaml O)
  detection : List (Scalar O × Yaml O)
  detection_nodup : (detection.filterMap fun entry => entry.1.text?).Nodup

/-- What the engine uses of the Python library. -/
structure Library (F O : Type) where
  /-- `str.lower`. -/
  lower : Text → Text
  /-- `str.isalnum`, `str.isdigit` and `\d` of one character. -/
  isAlnum : Char → Bool
  isDigit : Char → Bool
  isDecimal : Char → Bool
  /-- A literal of a pattern against a character, under `re.IGNORECASE`. -/
  sameLetter : Char → Char → Bool
  /-- `int(s)`. -/
  parseInt : Text → Option ℤ
  /-- `re.search(pattern, ·, re.IGNORECASE)`; `none` for an invalid pattern. -/
  searchRegex : Text → Option (Text → Bool)
  /-- `str` and truth of the floats of a document, `str` of its containers. -/
  floatStr : F → Text
  floatTruthy : F → Bool
  containerStr : Json F → Text
  /-- The same for the other scalars of a rule and for its containers. -/
  otherStr : O → Text
  otherTruthy : O → Bool
  otherIsFloat : O → Bool
  yamlStr : Yaml O → Text

section

variable {F O : Type} (lib : Library F O)

/-- `\w`. -/
def Library.isWord (c : Char) : Bool := lib.isAlnum c || c = '_'

/-- `str` of a scalar. -/
def Library.scalarStr : Scalar O → Text
  | .null => "None".toList
  | .bool true => "True".toList
  | .bool false => "False".toList
  | .int n => intStr n
  | .str s => s
  | .other x => lib.otherStr x

/-- `str` of a value. -/
def Library.str : Yaml O → Text
  | .scalar x => lib.scalarStr x
  | .list items => lib.yamlStr (.list items)
  | .map entries => lib.yamlStr (.map entries)

/-- The truth of a value. -/
def Library.truthy : Yaml O → Bool
  | .scalar .null => false
  | .scalar (.bool b) => b
  | .scalar (.int n) => n ≠ 0
  | .scalar (.str s) => s ≠ []
  | .scalar (.other x) => lib.otherTruthy x
  | .list items => !items.isEmpty
  | .map entries => !entries.isEmpty

/-- `dict.get` with a string key. -/
def lookup (entries : List (Scalar O × Yaml O)) (key : Text) : Option (Yaml O) :=
  (entries.find? fun entry => entry.1.text? = some key).map Prod.snd

/-- `str(d.get(key) or "")`. -/
def Library.textAt (entries : List (Scalar O × Yaml O)) (key : String) : Text :=
  match lookup entries key.toList with
  | some v => if lib.truthy v then lib.str v else []
  | none => []

/-- The condition of a rule. -/
def Library.condition (rule : Rule O) : Text := strip (lib.textAt rule.detection "condition")

/-- `str(logsource.get(key) or "").strip().lower()`. -/
def Library.logsourceText (logsource : List (Scalar O × Yaml O)) (key : String) : Text :=
  lib.lower (strip (lib.textAt logsource key))

/-- `_keywords_supported`. -/
def Library.keywordsSupported (rule : Rule O) : Bool :=
  lib.logsourceText rule.logsource "product" = "linux".toList

/-! ### Selections -/

/-- The entries of the detection other than its condition. -/
def Rule.selections (rule : Rule O) : List (Scalar O × Yaml O) :=
  rule.detection.filter fun entry => entry.1.text? ≠ some "condition".toList

/-- `isinstance(item, dict) and item`. -/
def Yaml.isFilledMap : Yaml O → Bool
  | .map (_ :: _) => true
  | _ => false

/-- `_is_map_list_selection`. -/
def isMapListSelection : Yaml O → Bool
  | .list items => !items.isEmpty && items.all Yaml.isFilledMap
  | _ => false

/-- A string or a number, and no boolean. -/
def Library.isKeyword : Yaml O → Bool
  | .scalar (.str _) => true
  | .scalar (.int _) => true
  | .scalar (.other x) => lib.otherIsFloat x
  | _ => false

/-- `_is_keyword_selection`. -/
def Library.isKeywordSelection : Yaml O → Bool
  | .list items => !items.isEmpty && items.all lib.isKeyword
  | _ => false

/-- `_keyword_values`. -/
def Library.keywordValues (selection : Yaml O) : List Text :=
  match selection with
  | .list items => if lib.isKeywordSelection selection then items.map lib.str else []
  | _ => []

/-- `_iter_selection_blocks`. -/
def selectionBlocks : Yaml O → List (List (Scalar O × Yaml O))
  | .map entries => [entries]
  | .list items => items.filterMap fun item =>
    match item with
    | .map entries => some entries
    | _ => none
  | .scalar _ => []

/-- `_flatten_values`. -/
def flattenValues : Yaml O → List (Yaml O)
  | .list items => items
  | v => [v]

/-! ### Keywords -/

/-- `_keyword_tokens`: a backslash makes the next wildcard literal. -/
def keywordTokens : Text → List (Piece Char)
  | [] => []
  | '\\' :: c :: rest =>
    if c = '*' ∨ c = '?' ∨ c = '\\' then .lit c :: keywordTokens rest
    else .lit '\\' :: keywordTokens (c :: rest)
  | '*' :: rest => .star :: keywordTokens rest
  | '?' :: rest => .any :: keywordTokens rest
  | c :: rest => .lit c :: keywordTokens rest

/-- `_keyword_regex(value).search(text)`. -/
def Library.keywordSearch (value text : Text) : Bool :=
  (leftovers (fun _ => true) text).any
    (run lib.sameLetter (fun _ => true) (fun _ => true) (keywordTokens value))

/-- The loop of `_keyword_literal_segments`; `current` is read backwards. -/
def literalSegments : List (Piece Char) → Text → List Text
  | [], current => if current = [] then [] else [current.reverse]
  | .lit c :: ps, current => literalSegments ps (c :: current)
  | .star :: ps, current =>
    if current = [] then literalSegments ps [] else current.reverse :: literalSegments ps []
  | .any :: ps, current =>
    if current = [] then literalSegments ps [] else current.reverse :: literalSegments ps []

/-- `_keyword_literal_segments`. -/
def keywordLiteralSegments (value : Text) : List Text := literalSegments (keywordTokens value) []

/-- The maximal runs of characters that satisfy `ok`; `current` is read
backwards. -/
def runsOf (ok : Char → Bool) : Text → Text → List Text
  | [], current => if current = [] then [] else [current.reverse]
  | c :: rest, current =>
    if ok c then runsOf ok rest (c :: current)
    else if current = [] then runsOf ok rest []
    else current.reverse :: runsOf ok rest []

/-- `_keyword_alnum_runs`. -/
def Library.keywordAlnumRuns (value : Text) : List Text :=
  (keywordLiteralSegments value).flatMap fun segment =>
    (runsOf lib.isAlnum segment []).filter fun r => 2 ≤ r.length

/-- What keeps a keyword list from being run. -/
inductive KeywordIssue
  | emptyKeyword | tooManyKeywords | keywordTooBroad

/-- `keyword_selection_issue`. -/
def Library.keywordSelectionIssue (values : List Text) : Option KeywordIssue :=
  if values = [] then some .emptyKeyword
  else if values.length > 200 then some .tooManyKeywords
  else if values.any fun value =>
      ((keywordLiteralSegments value).map List.length).sum < 3 ||
        (lib.keywordAlnumRuns value).isEmpty
    then some .keywordTooBroad
  else none

/-! ### Fields and modifiers -/

/-- How two texts are compared. -/
inductive Comparison
  | contains | startswith | endswith | re | keyword
  deriving DecidableEq

/-- A match modifier: the comparison, and whether all values are needed. -/
structure Modifier where
  compare : Option Comparison
  all : Bool
  deriving DecidableEq

def comparisonOf (modifier : Text) : Option Comparison :=
  if modifier = "contains".toList then some .contains
  else if modifier = "startswith".toList then some .startswith
  else if modifier = "endswith".toList then some .endswith
  else if modifier = "re".toList then some .re
  else none

/-- The field name before the first pipe. -/
def baseField (field : Text) : Text := strip (field.takeWhile fun c => c ≠ '|')

/-- The modifiers of a field name. -/
def modifiersOf (field : Text) : List Text := ((field.splitOn '|').tail.map strip).filter (· ≠ [])

/-- `parse_field_modifiers`: base field, match modifier and transforms. -/
def parseFieldModifiers (field : Text) : Text × Modifier × List Text :=
  let modifiers := modifiersOf field
  (baseField field, ⟨modifiers.findSome? comparisonOf, modifiers.any (· = "all".toList)⟩,
    modifiers.filter fun m => m ≠ "all".toList ∧ comparisonOf m = none)

/-- `_mapped_sigma_fields`. -/
def mappedSigmaFields (field : Text) : List Text × Bool :=
  match sigmaFieldMap.get (baseField field) with
  | some mapped => (mapped.map String.toList, false)
  | none =>
    if searchTextFallbackFields.any fun f => f.toList = baseField field then
      (["search_text".toList], true)
    else ([baseField field], false)

/-- `_split_field_and_modifier`, the field. -/
def splitField (field : Text) : Text :=
  match ["|contains", "|endswith", "|startswith", "|re", "|all"].find? fun suffix =>
      suffix.toList.isSuffixOf field with
  | some suffix => field.take (field.length - suffix.length)
  | none => field

/-- `_WINDASH_VARIANTS`. -/
def windashVariants : List Char := ['-', '/', '\u2013', '\u2014', '\u2015']

/-- The variants of a text with one dash replaced, itself first. -/
def windashCandidates (text : Text) : List Text :=
  text :: (List.range text.length).flatMap fun i =>
    if (text[i]?.any (· ∈ windashVariants)) then
      windashVariants.map fun v => text.take i ++ v :: text.drop (i + 1)
    else []

/-- `expand_windash_values`. -/
def expandWindashValues (values : List Text) : List Text :=
  (values.flatMap windashCandidates).foldl
    (fun expanded v => if v ∈ expanded then expanded else expanded ++ [v]) []

/-- `apply_value_transforms`. -/
def applyValueTransforms (values transforms : List Text) : List Text :=
  if "windash".toList ∈ transforms then expandWindashValues values else values

/-- The values a field of a selection is compared with, as texts. -/
def Library.expectedValues (field : Text) (expected : Yaml O) : List Text :=
  applyValueTransforms ((flattenValues expected).map lib.str) (parseFieldModifiers field).2.2

/-- `basename_alternates`. -/
def basenameAlternates (base : Text) (modifier : Modifier) (expected : List Text) :
    Option (Text × List Text) :=
  match basenameAlternateFields.find? fun entry => entry.1.toList = base with
  | none => none
  | some entry =>
    if modifier ≠ ⟨some .endswith, false⟩ then none
    else
      let names := (expected.filter fun t => 1 < t.length ∧ t.head? = some '/' ∧ '/' ∉ t.tail).map
        List.tail
      if names = [] then none else some (entry.2.toList, names)

end

/-- What the library does with ASCII characters. -/
structure Library.AsciiLetters {F O : Type} (lib : Library F O) : Prop where
  isAlnum : ∀ c : Char, c.toNat < 128 → lib.isAlnum c = c.isAlphanum
  sameLetter : ∀ a c : Char, a.toNat < 128 → c.toNat < 128 →
    lib.sameLetter a c = decide (a.toLower = c.toLower)
  lower : ∀ t : Text, (∀ c ∈ t, c.toNat < 128) → lib.lower t = t.map Char.toLower

/-- The library on ASCII text, with regular expressions of letters and digits
only. -/
def asciiLibrary : Library Empty Empty where
  lower := List.map Char.toLower
  isAlnum := Char.isAlphanum
  isDigit := Char.isDigit
  isDecimal := Char.isDigit
  sameLetter a c := a.toLower = c.toLower
  parseInt := asciiInt
  searchRegex pattern :=
    if pattern.all Char.isAlphanum then
      some fun text => pattern.map Char.toLower <:+: text.map Char.toLower
    else none
  floatStr := Empty.elim
  floatTruthy := Empty.elim
  containerStr _ := "<container>".toList
  otherStr := Empty.elim
  otherTruthy := Empty.elim
  otherIsFloat := Empty.elim
  yamlStr _ := "<container>".toList

end Kairon.Sigma

/-
Kairon/Search/Query.lean

The two back ends of the search language: the query that is sent to the index
(`_build_query`) and the evaluation of a document in memory (`_evaluate`),
with `analyze_query_syntax` and `evaluate_query_syntax` around them.

Both can raise, so both return an `Except`; evaluation stops where the source's
loops, `any` and `all` stop.
-/
import Kairon.Lib.Settle
import Kairon.Search.Parser
import Kairon.Search.Value
import Mathlib.Data.List.Infix

namespace Kairon.Search

open Glob Settle

/-! ### Values of a query -/

/-- The operators of a range. -/
inductive Bound
  | gt | gte | lt | lte
  deriving DecidableEq

def boundOf (operator : Text) : Option Bound :=
  if operator = ">".toList then some .gt
  else if operator = ">=".toList then some .gte
  else if operator = "<".toList then some .lt
  else if operator = "<=".toList then some .lte
  else none

/-- The comparison an operator stands for. -/
def Bound.holds {α : Type*} [LT α] [LE α] [DecidableLT α] [DecidableLE α] :
    Bound → α → α → Bool
  | .gt, a, b => a > b
  | .gte, a, b => a ≥ b
  | .lt, a, b => a < b
  | .lte, a, b => a ≤ b

/-- A value after `_coerce_value`; a timestamp stands for its ISO form. -/
inductive Operand
  | number (y : Num)
  | date (d : UtcDateTime)
  | text (s : Text)

/-- Python's comparison of two coerced values. -/
def compareOperands (bound : Bound) : Operand → Operand → Except PyError Bool
  | .number x, .number y => .ok (bound.holds x y)
  | .date x, .date y => .ok (bound.holds x.isoformat y.isoformat)
  | .text x, .text y => .ok (bound.holds x y)
  | _, _ => .error .typeError

section

variable {F : Type} (p : Platform F)

/-- `_coerce_value`. -/
def coerceValue (spec : FieldSpec) (value : Text) : Except PyError Operand :=
  match spec.kind with
  | .numeric =>
    match p.textNumber value with
    | some y => .ok (.number y)
    | none => .error (.query (.notNumeric value spec.path))
  | .date =>
    match p.parseDate value with
    | none => .error (.query (.notTimestamp value spec.path))
    | some parsed => parsed.astimezoneUtc.map .date
  | _ => .ok (.text value)

/-! ### The query -/

/-- An OpenSearch query; `Q` is what the text query builder returns. -/
inductive Clause (Q : Type)
  | textQuery (q : Q)
  | exists (path : Text)
  | range (path : Text) (bound : Bound) (operand : Operand)
  | term (path : Text) (operand : Operand)
  | wildcard (path value : Text)
  | matchPhrase (path value : Text)
  | should (clauses : List (Clause Q))
  | must (clauses : List (Clause Q))
  | mustNot (clauses : List (Clause Q))

variable {Q : Type}

/-- `_query_for_spec`. -/
def queryForSpec (operator value : Text) (spec : FieldSpec) : Except PyError (Clause Q) := do
  let coerced ← coerceValue p spec value
  match boundOf operator with
  | some bound =>
    if spec.kind = .numeric ∨ spec.kind = .date then pure (.range spec.path bound coerced)
    else .error (.query (.operatorUnsupportedFor operator spec.path))
  | none =>
    if operator ≠ [':'] then .error (.query (.operatorUnsupported operator))
    else if spec.kind = .numeric ∨ spec.kind = .date then pure (.term spec.path coerced)
    else if hasWildcard value then
      if !spec.wildcard then .error (.query (.wildcardsUnsupported spec.path))
      else if value.head? = some '*' ∧ !spec.leadingWildcard then
        .error (.query (.leadingWildcardsUnsupported spec.path))
      else pure (.wildcard spec.path value)
    else if spec.kind = .text then pure (.matchPhrase spec.path value)
    else pure (.term spec.path coerced)

/-- A lone clause stands for itself, several for a disjunction. -/
def shouldOf : List (Clause Q) → Clause Q
  | [clause] => clause
  | clauses => .should clauses

mutual

/-- `_build_query`. -/
def buildQuery (textQueryBuilder : Text → Q) : Node → Except PyError (Clause Q)
  | .text value => .ok (.textQuery (textQueryBuilder value))
  | .exists field => .ok (shouldOf (field.specs.map fun spec => .exists spec.path))
  | .predicate field operator value => do
      let clauses ← field.specs.mapM (queryForSpec p operator value)
      pure (shouldOf clauses)
  | .not child => do
      let clause ← buildQuery textQueryBuilder child
      pure (.mustNot [clause])
  | .bool .or children => do
      let clauses ← buildQueries textQueryBuilder children
      pure (.should clauses)
  | .bool .and children => do
      let clauses ← buildQueries textQueryBuilder children
      pure (.must clauses)

def buildQueries (textQueryBuilder : Text → Q) : List Node → Except PyError (List (Clause Q))
  | [] => .ok []
  | child :: children => do
      let clause ← buildQuery textQueryBuilder child
      let clauses ← buildQueries textQueryBuilder children
      pure (clause :: clauses)

end

/-! ### Evaluation in memory -/

/-- One step of `_iter_values`: what an item holds under a name. -/
def itemValues (part : Text) : Json F → List (Json F)
  | .obj fields =>
    match getField fields part with
    | some (.arr items) => items
    | some .null => []
    | some value => [value]
    | none => []
  | .arr items => items
  | _ => []

/-- The last step: lists are opened once more. -/
def flattenItem : Json F → List (Json F)
  | .arr items => items
  | item => [item]

/-- `path.split(".")`. -/
def splitPath (path : Text) : List Text := path.splitOn '.'

/-- The loop of `_iter_values`. -/
def stepValues : List Text → List (Json F) → List (Json F)
  | [], items => items
  | part :: parts, items => stepValues parts (items.flatMap (itemValues part))

/-- `_iter_values`. -/
def iterValues (payload : List (Text × Json F)) (path : Text) : List (Json F) :=
  (stepValues (splitPath path) [.obj payload]).flatMap flattenItem

/-- The pattern of `_match_string`. -/
def pieces (expected : Text) : List (Piece Char) :=
  expected.map fun c => if c = '*' then .star else if c = '?' then .any else .lit c

/-- `_match_string`: a dot does not stand for a newline, and `$` also stands
before a final one. -/
def matchString (value expected : Text) : Bool :=
  run p.sameLetter (fun c => c ≠ '\n') (fun r => r = [] || r = ['\n']) (pieces expected) value

/-- The value a comparison reads from a document; `none` where the source
returns `False`. -/
def candidateOperand (spec : FieldSpec) (candidate : Json F) :
    Except PyError (Option Operand) :=
  if spec.kind = .date then
    match p.parseDate (p.normalizeString candidate) with
    | none => .ok none
    | some parsed => parsed.astimezoneUtc.map fun d => some (.date d)
  else .ok ((p.candidateNumber candidate).map .number)

/-- `_evaluate_spec` of a candidate that is not `None`. -/
def evaluateValue (spec : FieldSpec) (operator expected : Text) (candidate : Json F) :
    Except PyError Bool :=
  match boundOf operator with
  | some bound => do
      let expectedValue ← coerceValue p spec expected
      match ← candidateOperand p spec candidate with
      | none => pure false
      | some candidateValue => compareOperands bound candidateValue expectedValue
  | none =>
    let candidateText := p.normalizeString candidate
    if hasWildcard expected then .ok (matchString p candidateText expected)
    else if spec.kind ≠ .numeric then .ok (p.lower candidateText = p.lower expected)
    else .ok (candidateText = expected)

/-- `_evaluate_spec`. -/
def evaluateSpec (spec : FieldSpec) (operator expected : Text) :
    Json F → Except PyError Bool
  | .null => .ok false
  | candidate => evaluateValue p spec operator expected candidate

mutual

/-- `_evaluate`. -/
def evaluate (payload : List (Text × Json F)) (haystack : Text) : Node → Except PyError Bool
  | .text value => .ok (decide (p.lower value <:+: haystack))
  | .exists field => .ok (field.specs.any fun spec => !(iterValues payload spec.path).isEmpty)
  | .predicate field operator value =>
    anyOk (fun spec => anyOk (evaluateSpec p spec operator value) (iterValues payload spec.path))
      field.specs
  | .not child => do
      let b ← evaluate payload haystack child
      pure !b
  | .bool .or children => evaluateAny payload haystack children
  | .bool .and children => evaluateAll payload haystack children

def evaluateAny (payload : List (Text × Json F)) (haystack : Text) :
    List Node → Except PyError Bool
  | [] => .ok false
  | child :: children => do
      if ← evaluate payload haystack child then pure true
      else evaluateAny payload haystack children

def evaluateAll (payload : List (Text × Json F)) (haystack : Text) :
    List Node → Except PyError Bool
  | [] => .ok true
  | child :: children => do
      if ← evaluate payload haystack child then evaluateAll payload haystack children
      else pure false

end

/-! ### Is it a query at all? -/

/-- `[@A-Za-z_]`. -/
def isFieldStart (c : Char) : Bool := c = '@' || c = '_' || c.isAlpha

/-- `[\w.@-]`. -/
def isFieldChar (c : Char) : Bool := p.isAlnum c || c ∈ ['_', '.', '@', '-']

/-- The text after an operator at its head. -/
def afterOperator : Text → Option Text
  | '>' :: '=' :: rest => some rest
  | '<' :: '=' :: rest => some rest
  | ':' :: rest => some rest
  | '>' :: rest => some rest
  | '<' :: rest => some rest
  | _ => none

/-- The names before an operator, as `re.finditer` finds them.  No character
of a name is a space or an operator, so only the whole run of name characters
can match. -/
def fieldNames : ℕ → Text → List Text
  | 0, _ => []
  | _ + 1, [] => []
  | n + 1, c :: cs =>
    if isFieldStart c then
      match afterOperator ((cs.dropWhile (isFieldChar p)).dropWhile isSpace) with
      | some rest => (c :: cs.takeWhile (isFieldChar p)) :: fieldNames n rest
      | none => fieldNames n cs
    else fieldNames n cs

/-- The text after a word at its head, without regard to case. -/
def afterWord : Text → Text → Option Text
  | [], t => some t
  | a :: word, c :: t => if p.sameLetter a c then afterWord word t else none
  | _ :: _, [] => none

/-- A keyword that a space or the end follows. -/
def keywordHere (t : Text) : Bool :=
  ["AND", "OR", "NOT"].any fun word =>
    (afterWord p word.toList t).any fun rest => rest.head?.all isSpace

/-- A keyword after a space. -/
def keywordLater : Text → Bool
  | [] => false
  | c :: t => (isSpace c && keywordHere p t) || keywordLater t

/-- `[@A-Za-z_]`, without regard to case. -/
def isFieldStartAnyCase (c : Char) : Bool :=
  c = '@' || c = '_' || "abcdefghijklmnopqrstuvwxyz".toList.any fun a => p.sameLetter a c

/-- `has\s*:\s*[@A-Za-z_]` at the head of a text. -/
def hasHere (t : Text) : Bool :=
  (afterWord p "has".toList t).any fun rest =>
    match rest.dropWhile isSpace with
    | ':' :: rest => (rest.dropWhile isSpace).head?.any (isFieldStartAnyCase p)
    | _ => false

/-- The same at a word boundary; `inWord` says that a word character is just
before. -/
def hasLater : Bool → Text → Bool
  | _, [] => false
  | inWord, c :: t =>
    (!inWord && hasHere p (c :: t)) || hasLater (p.isAlnum c || c = '_') t

/-- `query_has_advanced_syntax`. -/
def queryHasAdvancedSyntax (query : Text) : Bool :=
  let text := strip query
  (fieldNames p text.length text).any (fun name =>
      (specOf name).isSome || fieldAliases.any (fun entry => entry.1.toList = name) ||
        '.' ∈ name || name.head? = some '@') ||
    keywordHere p text || keywordLater p text || hasLater p false text ||
    '(' ∈ text || ')' ∈ text

/-! ### Analysis -/

inductive Mode
  | plain | mixed | advanced

/-- An entry of `applied_filters`. -/
structure Filter where
  field : Text
  operator : Text
  value : Text

mutual

/-- `_collect_filters`. -/
def collectFilters : Node → List Filter
  | .predicate field operator value => [⟨field.name, operator, value⟩]
  | .exists field => [⟨field.name, "has".toList, []⟩]
  | .not child => collectFilters child
  | .bool _ children => collectAll children
  | .text _ => []

def collectAll : List Node → List Filter
  | [] => []
  | child :: children => collectFilters child ++ collectAll children

end

mutual

/-- `_has_text_terms`. -/
def hasTextTerms : Node → Bool
  | .text _ => true
  | .not child => hasTextTerms child
  | .bool _ children => anyTextTerms children
  | _ => false

def anyTextTerms : List Node → Bool
  | [] => false
  | child :: children => hasTextTerms child || anyTextTerms children

end

/-- What `analyze_query_syntax` returns; `parsed`, `errors` and `warnings` are
the same in every result. -/
structure Analysis (Q : Type) where
  mode : Mode
  normalizedQuery : Text
  appliedFilters : List Filter
  ast : Option Node
  query : Clause Q

def PyError.ofParse : ParseError → PyError
  | .query e => .query e
  | .outOfFuel => .outOfFuel

/-- `analyze_query_syntax`. -/
def analyzeQuerySyntax (textQueryBuilder : Text → Q) (query : Text) :
    Except PyError (Analysis Q) :=
  let text := strip query
  if text = [] then .ok ⟨.plain, [], [], none, .textQuery (textQueryBuilder [])⟩
  else if !queryHasAdvancedSyntax p text then
    .ok ⟨.plain, text, [], none, .textQuery (textQueryBuilder text)⟩
  else do
    let tokens ← (tokenize text).mapError PyError.query
    let ast ← (parse tokens).mapError PyError.ofParse
    let filters := collectFilters ast
    let mode := if hasTextTerms ast ∧ filters ≠ [] then .mixed else .advanced
    let query ← buildQuery p textQueryBuilder ast
    pure ⟨mode, text, filters, some ast, query⟩

/-- `evaluate_query_syntax`. -/
def evaluateQuerySyntax (info : Analysis Q) (payload : List (Text × Json F)) (haystack : Text) :
    Except PyError Bool :=
  match info.ast with
  | none =>
    let text := p.lower (strip info.normalizedQuery)
    .ok (text = [] || decide (text <:+: haystack))
  | some ast => evaluate p payload haystack ast

end

end Kairon.Search

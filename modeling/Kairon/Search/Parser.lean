/-
Kairon/Search/Parser.lean

The scanner and the recursive-descent parser of the search language.

The loops of the parser are written as recursions that return the list of
operands; the counters the source keeps in `self` (OR terms, wildcard
clauses) travel with the remaining tokens.  Recursion is bounded by a fuel
argument; `parse` supplies three units for every token, and
`parse_ne_outOfFuel` (in `Grammar`) shows that this is enough.
-/
import Kairon.Search.Syntax

namespace Kairon.Search

/-! ### The scanner -/

/-- The characters a bare word is made of. -/
def isWordChar (c : Char) : Bool := !isSpace c && c ∉ ['(', ')', '<', '>', ':', '"']

/-- The inner loop for a quoted string: its content and what follows it. -/
def quoted : Text → Option (Text × Text)
  | [] => none
  | '\\' :: c :: rest => (quoted rest).map fun r => (c :: r.1, r.2)
  | '"' :: rest => some ([], rest)
  | c :: rest => (quoted rest).map fun r => (c :: r.1, r.2)

/-- `str.upper` on the letters the keywords are made of. -/
def keywordOf (value : Text) : Option TokenKind :=
  if value.map Char.toUpper = "AND".toList then some .and
  else if value.map Char.toUpper = "OR".toList then some .or
  else if value.map Char.toUpper = "NOT".toList then some .not
  else none

/-- The token of a bare word. -/
def wordToken (value : Text) (position : ℕ) : Token :=
  match keywordOf value with
  | some kind => ⟨kind, value.map Char.toUpper, position⟩
  | none => ⟨.word, value, position⟩

/-- The scanner from position `i` on; the first argument bounds the length of
what is left. -/
def tokenizeFrom : ℕ → ℕ → Text → Except QuerySyntaxError (List Token)
  | 0, _, _ => .ok []
  | _ + 1, _, [] => .ok []
  | n + 1, i, c :: cs =>
    if isSpace c then tokenizeFrom n (i + 1) cs
    else if c = '(' then do
      let ts ← tokenizeFrom n (i + 1) cs
      pure (⟨.lparen, [c], i⟩ :: ts)
    else if c = ')' then do
      let ts ← tokenizeFrom n (i + 1) cs
      pure (⟨.rparen, [c], i⟩ :: ts)
    else if (c = '>' ∨ c = '<') ∧ cs.head? = some '=' then do
      let ts ← tokenizeFrom n (i + 2) cs.tail
      pure (⟨.op, [c, '='], i⟩ :: ts)
    else if c = ':' ∨ c = '<' ∨ c = '>' then do
      let ts ← tokenizeFrom n (i + 1) cs
      pure (⟨.op, [c], i⟩ :: ts)
    else if c = '"' then
      match quoted cs with
      | none => .error (.unclosedQuote (i + 1))
      | some (content, rest) => do
          let ts ← tokenizeFrom n (i + 1 + (cs.length - rest.length)) rest
          pure (⟨.string, content, i⟩ :: ts)
    else do
      let value := c :: cs.takeWhile isWordChar
      let ts ← tokenizeFrom n (i + value.length) (cs.dropWhile isWordChar)
      pure (wordToken value i :: ts)

/-- `_tokenize`. -/
def tokenize (query : Text) : Except QuerySyntaxError (List Token) := do
  let tokens ← tokenizeFrom query.length 0 query
  if tokens.length > maxTokens then .error (.tooManyTokens tokens.length) else pure tokens

/-! ### The parser -/

/-- What the parser raises; running out of fuel is not an error of the
source. -/
inductive ParseError
  | query (e : QuerySyntaxError)
  | outOfFuel

/-- The tokens that are left and the counters. -/
structure Cursor where
  rest : List Token
  orTerms : ℕ
  wildcards : ℕ

/-- `_accept`, without a value. -/
def Cursor.accept (c : Cursor) (kind : TokenKind) : Option Cursor :=
  match c.rest with
  | token :: rest => if token.kind = kind then some { c with rest := rest } else none
  | [] => none

/-- A lone operand stands for itself. -/
def orNode : List Node → Node
  | [node] => node
  | nodes => .bool .or nodes

/-- The node of the operands of AND; too many of them are refused. -/
def andNode : List Node → Except ParseError Node
  | [node] => .ok node
  | nodes =>
    if nodes.length > maxQueryTerms then .error (.query (.tooManyClauses nodes.length))
    else .ok (.bool .and nodes)

/-- The keyword of an existence test. -/
def isHas (value : Text) : Bool := value.map Char.toLower = "has".toList

/-- The atom after `has`. -/
def parseExists (c : Cursor) : Except ParseError (Node × Cursor) :=
  match c.rest with
  | colon :: rest =>
    if colon.kind = .op ∧ colon.value = [':'] then
      match rest with
      | field :: rest =>
        if field.kind ≠ .word then .error (.query .expectedFieldAfterHas)
        else match resolveField field.value with
        | .error e => .error (.query e)
        | .ok f => .ok (.exists f, { c with rest := rest })
      | [] => .error (.query .unexpectedEnd)
    else .error (.query .expectedColonAfterHas)
  | [] => .error (.query .expectedColonAfterHas)

/-- The atom that begins with a field name; the next token is an operator. -/
def parsePredicate (name : Text) (c : Cursor) : Except ParseError (Node × Cursor) :=
  match resolveField name with
  | .error e => .error (.query e)
  | .ok f =>
    match c.rest with
    | op :: value :: rest =>
      if value.kind = .word ∨ value.kind = .string then
        .ok (.predicate f op.value value.value, { c with
            rest := rest
            wildcards := c.wildcards + if hasWildcard value.value then 1 else 0 })
      else .error (.query (.near value.value (value.position + 1)))
    | _ => .error (.query .unexpectedEnd)

/-- `_parse_atom`. -/
def parseAtom (c : Cursor) : Except ParseError (Node × Cursor) :=
  match c.rest with
  | [] => .error (.query .missingExpression)
  | token :: rest =>
    if token.kind = .word ∧ isHas token.value then parseExists { c with rest := rest }
    else if token.kind = .word ∧ (rest.head?.any fun t => t.kind = .op) then
      parsePredicate token.value { c with rest := rest }
    else if token.kind = .word ∨ token.kind = .string then
      .ok (.text token.value, { c with rest := rest })
    else .error (.query (.near token.value (token.position + 1)))

/-- The next token begins another operand of an implicit AND. -/
def Cursor.atOperand (c : Cursor) : Bool :=
  c.rest.head?.any fun t => t.kind ∈ [.word, .string, .not, .lparen]

mutual

/-- The loop of `_parse_or`. -/
def parseOrs : ℕ → Cursor → Except ParseError (List Node × Cursor)
  | 0, _ => .error .outOfFuel
  | n + 1, c => do
      let (operands, c) ← parseAnds n c
      let node ← andNode operands
      match c.accept .or with
      | some c =>
        let (nodes, c) ← parseOrs n { c with orTerms := c.orTerms + 1 }
        pure (node :: nodes, c)
      | none => pure ([node], c)

/-- The loop of `_parse_and`. -/
def parseAnds : ℕ → Cursor → Except ParseError (List Node × Cursor)
  | 0, _ => .error .outOfFuel
  | n + 1, c => do
      let (node, c) ← parseUnary n c
      match c.accept .and with
      | some c =>
        let (nodes, c) ← parseAnds n c
        pure (node :: nodes, c)
      | none =>
        if c.atOperand then do
          let (nodes, c) ← parseAnds n c
          pure (node :: nodes, c)
        else pure ([node], c)

/-- `_parse_unary` and `_parse_primary`. -/
def parseUnary : ℕ → Cursor → Except ParseError (Node × Cursor)
  | 0, _ => .error .outOfFuel
  | n + 1, c =>
    match c.accept .not with
    | some c => do
        let (node, c) ← parseUnary n c
        pure (.not node, c)
    | none =>
      match c.accept .lparen with
      | some c => do
          let (nodes, c) ← parseOrs n c
          match c.accept .rparen with
          | some c => pure (orNode nodes, c)
          | none => .error (.query .unclosedParenthesis)
      | none => parseAtom c

end

/-- `_Parser(tokens).parse()`. -/
def parse (tokens : List Token) : Except ParseError Node := do
  let (nodes, c) ← parseOrs (3 * tokens.length + 3) ⟨tokens, 0, 0⟩
  match c.rest with
  | token :: _ => .error (.query (.near token.value (token.position + 1)))
  | [] =>
    if c.orTerms > maxOrTerms then .error (.query (.tooManyOr c.orTerms))
    else if c.wildcards > maxWildcardClauses then
      .error (.query (.tooManyWildcards c.wildcards))
    else pure (orNode nodes)

end Kairon.Search

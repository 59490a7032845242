/-
Kairon/Lvm/Text.lean

The text format of LVM2 metadata: tokens, and nested sections of integers,
strings and arrays.

What the module takes from the interpreter is in `Interpreter`: which
characters are digits, what `int` reads, which integers can be printed, and how
deep calls may nest.  An error that is none of the documented ones shows as a
`Failure` of its own.
-/
import Kairon.Lib.Dict
import Kairon.Lvm.Model

namespace Kairon.Lvm

open Search (Text isSpace)

/-! ### Errors -/

/-- `InvalidLabelError`. -/
inductive LabelFault
  | shortSector (sector : ℕ)
  | signature (sector : ℕ)
  | type (sector : ℕ)
  | sector (sector recorded : ℕ)
  | noLabel
  | shortHeader
  | uuidLength (length : ℕ)
  | noTerminator
  deriving DecidableEq

/-- `MalformedMetadataTextError`. -/
inductive TextFault
  | noMetadataAreas
  | truncatedArea (length : ℕ)
  | areaChecksum
  | noLocation
  | allIgnored
  | textChecksum
  | character (c : Char)
  | unterminatedString
  | unterminatedEscape
  | number
  | leftover
  | unexpectedEnd
  | expectedIdent
  | expectedBrace
  | noValue (name : Text)
  | noBody (name : Text)
  | value
  | arrayElement
  | arraySeparator
  | severalSections (names : List Text)
  | notASection (name : Text)
  deriving DecidableEq

/-- `UnsupportedMetadataVersionError`. -/
inductive VersionFault
  | magic
  | version (v : ℕ)
  deriving DecidableEq

/-- The part of the metadata an error speaks of. -/
inductive Context
  | text
  | volumeGroup (name : Text)
  | physicalVolume (name volumeGroup : Text)
  | logicalVolume (name : Text)
  | segment (logicalVolume : Text) (index : ℕ)
  deriving DecidableEq

/-- `MissingRequiredFieldError`. -/
inductive FieldFault
  | missing (key : Text)
  | wrongType (key : Text)
  | noVolumeGroup
  | emptySection (key : Text)
  | segmentCount (count : ℤ)
  | missingSegment (index : ℕ)
  deriving DecidableEq

/-- `UnsupportedSegmentTypeError`. -/
inductive SegmentFault
  | type (name : Text)
  | stripeCount (count : ℤ)
  deriving DecidableEq

/-- `InconsistentMetadataError`. -/
inductive ConsistencyFault
  | extentSize (sectors : ℤ)
  | physicalVolumeSizes
  | stripes
  | unknownPhysicalVolume (name : Text)
  | extentCount (count : ℤ)
  | negativeExtent
  | gap (expected found : ℤ)
  | areaStart (recorded declared : ℤ)
  | areaSize (recorded declared : ℤ)
  | uuid (id : Text)
  deriving DecidableEq

/-- The subclasses of `LVMMetadataError`. -/
inductive MetadataError
  | invalidLabel (fault : LabelFault)
  | unsupportedVersion (fault : VersionFault)
  | unsupportedLayout
  | malformedText (fault : TextFault)
  | missingField (context : Context) (fault : FieldFault)
  | unsupportedSegmentType (context : Context) (fault : SegmentFault)
  | inconsistent (context : Context) (fault : ConsistencyFault)
  deriving DecidableEq

/-- What the parser raises: an error of its own, or one that escapes it. -/
inductive Failure
  | metadata (e : MetadataError)
  | unicodeDecodeError
  | valueError
  | recursionError
  deriving DecidableEq

def malformed {α : Type} (fault : TextFault) : Except Failure α :=
  .error (.metadata (.malformedText fault))

/-- What the parser uses of the interpreter. -/
structure Interpreter where
  /-- `str.isdigit` of one character. -/
  isDigit : Char → Bool
  /-- `int(s)`; `none` where it raises. -/
  parseInt : Text → Option ℤ
  /-- `str(n)` does not raise. -/
  printable : ℤ → Bool
  /-- How many sections inside each other the recursion limit has room for. -/
  nesting : ℕ

/-! ### Tokens -/

inductive Token
  | ident (name : Text)
  | int (n : ℤ)
  | string (s : Text)
  | lbrace | rbrace | lbracket | rbracket | equals | comma

/-- `_IDENT_CHARS`. -/
def isIdentChar (c : Char) : Bool :=
  ('a' ≤ c && c ≤ 'z') || ('A' ≤ c && c ≤ 'Z') || ('0' ≤ c && c ≤ '9') || c = '_' || c = '.' ||
    c = '-'

def punctuation : Char → Option Token
  | '{' => some .lbrace
  | '}' => some .rbrace
  | '[' => some .lbracket
  | ']' => some .rbracket
  | '=' => some .equals
  | ',' => some .comma
  | _ => none

/-- The rest of a string behind its opening quote, and what follows it. -/
def readString : Text → Except Failure (Text × Text)
  | [] => malformed .unterminatedString
  | ['\\'] => malformed .unterminatedEscape
  | '\\' :: c :: t => do
      let (s, rest) ← readString t
      pure (c :: s, rest)
  | '"' :: t => .ok ([], t)
  | c :: t => do
      let (s, rest) ← readString t
      pure (c :: s, rest)

section

variable (py : Interpreter)

/-- The integer token of a text. -/
def Interpreter.intToken (raw : Text) : Except Failure Token :=
  if raw = [] ∨ raw = ['-'] then malformed .number
  else
    match py.parseInt raw with
    | some n => .ok (.int n)
    | none => .error .valueError

/-- `_next_token`: a token, and the text behind it. -/
def Interpreter.nextToken (c : Char) (t : Text) : Except Failure (Token × Text) :=
  match punctuation c with
  | some token => .ok (token, t)
  | none =>
    if c = '"' then do
      let (s, rest) ← readString t
      pure (.string s, rest)
    else if py.isDigit c ∨ (c = '-' ∧ t.head?.any py.isDigit) then do
      let token ← py.intToken (c :: t.takeWhile py.isDigit)
      pure (token, t.dropWhile py.isDigit)
    else if isIdentChar c then
      .ok (.ident (c :: t.takeWhile isIdentChar), t.dropWhile isIdentChar)
    else malformed (.character c)

/-- The text behind the end of a line. -/
def afterLine (t : Text) : Text := (t.dropWhile fun c => c ≠ '\n').tail

/-- `_Tokenizer.tokens`; the first argument bounds the length of the text. -/
def Interpreter.tokens : ℕ → Text → Except Failure (List Token)
  | 0, _ => .ok []
  | _ + 1, [] => .ok []
  | n + 1, c :: t =>
    if isSpace c then Interpreter.tokens n t
    else if c = '#' then Interpreter.tokens n (afterLine t)
    else do
      let (token, rest) ← py.nextToken c t
      let tail ← Interpreter.tokens n rest
      pure (token :: tail)

end

/-! ### Sections -/

/-- An element of an array. -/
inductive Element
  | int (n : ℤ)
  | string (s : Text)

/-- The private tree of the text. -/
inductive ConfigValue
  | int (n : ℤ)
  | string (s : Text)
  | array (items : List Element)
  | body (entries : List (Text × ConfigValue))

abbrev Section := List (Text × ConfigValue)

/-- The loop of `_parse_array`. -/
def parseElements : List Token → Except Failure (List Element × List Token)
  | [] => malformed .unexpectedEnd
  | .int n :: .rbracket :: rest => .ok ([.int n], rest)
  | .int n :: .comma :: rest => do
      let (items, rest) ← parseElements rest
      pure (.int n :: items, rest)
  | .string s :: .rbracket :: rest => .ok ([.string s], rest)
  | .string s :: .comma :: rest => do
      let (items, rest) ← parseElements rest
      pure (.string s :: items, rest)
  | [.int _] => malformed .unexpectedEnd
  | [.string _] => malformed .unexpectedEnd
  | .int _ :: _ => malformed .arraySeparator
  | .string _ :: _ => malformed .arraySeparator
  | _ :: _ => malformed .arrayElement

/-- `_parse_value`. -/
def parseValue : List Token → Except Failure (ConfigValue × List Token)
  | .int n :: rest => .ok (.int n, rest)
  | .string s :: rest => .ok (.string s, rest)
  | .lbracket :: .rbracket :: rest => .ok (.array [], rest)
  | .lbracket :: rest => do
      let (items, rest) ← parseElements rest
      pure (.array items, rest)
  | [] => malformed .unexpectedEnd
  | _ :: _ => malformed .value

/-- `_expect("}")`. -/
def expectBrace : List Token → Except Failure (List Token)
  | .rbrace :: rest => .ok rest
  | [] => malformed .unexpectedEnd
  | _ :: _ => malformed .expectedBrace

/-- `_parse_statements`: the section so far, and the tokens left.  The first
argument bounds the number of tokens, the second is the room for nested
sections. -/
def parseStatements : ℕ → ℕ → Section → List Token → Except Failure (Section × List Token)
  | 0, _, entries, tokens => .ok (entries, tokens)
  | _ + 1, _, entries, [] => .ok (entries, [])
  | _ + 1, _, entries, .rbrace :: rest => .ok (entries, .rbrace :: rest)
  | n + 1, room, entries, .ident name :: .equals :: rest => do
      let (value, rest) ← parseValue rest
      parseStatements n room (Dict.set name value entries) rest
  | n + 1, room, entries, .ident name :: .lbrace :: rest =>
    match room with
    | 0 => .error .recursionError
    | room' + 1 => do
        let (nested, rest) ← parseStatements n room' [] rest
        let rest ← expectBrace rest
        parseStatements n (room' + 1) (Dict.set name (.body nested) entries) rest
  | _ + 1, _, _, [.ident name] => malformed (.noValue name)
  | _ + 1, _, _, .ident name :: _ :: _ => malformed (.noBody name)
  | _ + 1, _, _, _ :: _ => malformed .expectedIdent

/-- `_Parser.parse_document`. -/
def parseDocument (room : ℕ) (tokens : List Token) : Except Failure Section := do
  let (entries, rest) ← parseStatements tokens.length room [] tokens
  match rest with
  | [] => pure entries
  | _ :: _ => malformed .leftover

/-- `parse_config_text`. -/
def Interpreter.parseConfigText (py : Interpreter) (text : Text) : Except Failure Section := do
  let tokens ← py.tokens text.length text
  parseDocument py.nesting tokens

end Kairon.Lvm

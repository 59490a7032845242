/-
Kairon/Sigma/Condition.lean

The condition of a rule: expansion of `1 of ...` and `all of ...`, tokens, and
the check whether the engine can run it.

The regular expressions of the source are written out as scanners.  In each of
them a run of name characters can only match as a whole, because what has to
follow it is no name character.
-/
import Kairon.Lib.Rpn
import Kairon.Sigma.Rule

namespace Kairon.Sigma

open Search (Text isSpace strip)
open Rpn

section

variable {F O : Type} (lib : Library F O)

/-! ### Scanning -/

/-- `[A-Za-z0-9_*]`, without regard to case. -/
def Library.isNameChar (c : Char) : Bool :=
  c = '_' || c = '*' || ('0' ≤ c && c ≤ '9') ||
    "abcdefghijklmnopqrstuvwxyz".toList.any fun a => lib.sameLetter a c

/-- The text after a word at its head, without regard to case. -/
def Library.afterWord : Text → Text → Option Text
  | [], t => some t
  | a :: word, c :: t => if lib.sameLetter a c then Library.afterWord word t else none
  | _ :: _, [] => none

/-- The text after one or more spaces. -/
def afterSpaces : Text → Option Text
  | c :: t => if isSpace c then some (t.dropWhile isSpace) else none
  | [] => none

/-- A word at the head, up to a word boundary. -/
def Library.wordHere (word : String) (t : Text) : Option Text :=
  match lib.afterWord word.toList t with
  | some rest => if rest.head?.any lib.isWord then none else some rest
  | none => none

/-- `here` holds somewhere at the beginning of a word; `inWord` says that a
word character is just before. -/
def Library.atSomeWord (here : Text → Bool) : Bool → Text → Bool
  | _, [] => false
  | inWord, c :: t => (!inWord && here (c :: t)) || Library.atSomeWord here (lib.isWord c) t

/-! ### Tokens -/

def operatorWords : List (String × Op) := [("and", .and), ("or", .or), ("not", .not)]

/-- An operator at the head. -/
def Library.operatorHere (t : Text) : Option (Op × Text) :=
  operatorWords.findSome? fun entry => (lib.wordHere entry.1 t).map fun rest => (entry.2, rest)

/-- The token of a run of name characters. -/
def Library.nameToken (name : Text) : Tok Text :=
  match operatorWords.find? fun entry => entry.1.toList = lib.lower name with
  | some entry => .op entry.2
  | none => .name name

/-- `CONDITION_TOKENS_RE.findall`; the first argument bounds the length of
what is left. -/
def Library.conditionTokens : ℕ → Bool → Text → List (Tok Text)
  | 0, _, _ => []
  | _ + 1, _, [] => []
  | n + 1, inWord, c :: t =>
    if c = '(' then .lparen :: Library.conditionTokens n false t
    else if c = ')' then .rparen :: Library.conditionTokens n false t
    else
      match if inWord then none else lib.operatorHere (c :: t) with
      | some (op, rest) => .op op :: Library.conditionTokens n true rest
      | none =>
        if lib.isNameChar c then
          let name := c :: t.takeWhile lib.isNameChar
          lib.nameToken name :: Library.conditionTokens n (name.getLast?.any lib.isWord)
            (t.dropWhile lib.isNameChar)
        else Library.conditionTokens n (lib.isWord c) t

/-- `_to_rpn(_tokenize_condition(condition))`; `none` where they raise. -/
def Library.conditionRpn (condition : Text) : Option (List (Item Text)) :=
  match lib.conditionTokens condition.length false condition with
  | [] => none
  | tokens => toRpn tokens

/-! ### Expansion -/

/-- What keeps a condition from being expanded or run. -/
inductive ConditionIssue
  | emptyCondition | unsupportedCondition | emptySelector | expandedTooLarge
  deriving DecidableEq

/-- `pattern.match(name)` of a name with stars: a star does not stand for a
newline, and `$` also stands before a final one. -/
def selectorPattern (selector name : Text) : Bool :=
  Glob.run (fun a c => a = c) (fun c => c ≠ '\n') (fun r => r = [] || r = ['\n'])
    (selector.map fun c => if c = '*' then .star else .lit c) name

/-- `_selector_matches`. -/
def selectorMatches (selector : Text) (candidates : List Text) : List Text :=
  if selector = "them".toList then candidates
  else if '*' ∉ selector then if selector ∈ candidates then [selector] else []
  else candidates.filter (selectorPattern selector)

/-- `_sigma_detection_block_names`. -/
def Library.blockNames (rule : Rule O) : List Text :=
  (rule.selections.filter fun entry =>
    entry.2.isFilledMap || isMapListSelection entry.2 ||
      (lib.keywordsSupported rule && lib.isKeywordSelection entry.2)).map fun entry =>
    lib.scalarStr entry.1

/-- `SIGMA_EXPANSION_PATTERN` at the head: whether the quantifier is `1`, the
selector, and the rest. -/
def Library.expansionHere (t : Text) : Option (Bool × Text × Text) := do
  let (one, rest) ← ((lib.afterWord ['1'] t).map fun rest => (true, rest)).or
    ((lib.afterWord "all".toList t).map fun rest => (false, rest))
  let rest ← afterSpaces rest
  let rest ← lib.afterWord "of".toList rest
  let rest ← afterSpaces rest
  let selector := rest.takeWhile lib.isNameChar
  let rest := rest.dropWhile lib.isNameChar
  if selector = [] ∨ selector.head? = some '*' then none
  else if rest.head?.all fun c => isSpace c || c = ')' then some (one, selector, rest)
  else none

/-- The names a selector stands for. -/
def Library.selectorNames (rule : Rule O) (selector : Text) : List Text :=
  let names := lib.blockNames rule
  selectorMatches selector
    (if lib.lower selector = "them".toList then
      names.filter fun name => !("filter".toList.isPrefixOf (lib.lower name))
    else names)

/-- The text in place of a quantified selector. -/
def expandedText (one : Bool) (names : List Text) : Text :=
  let joined := List.intercalate (if one then " or ".toList else " and ".toList) names
  if names.length > 1 then '(' :: (joined ++ [')']) else joined

/-- `replace_match`: the replacement and the new number of leaves. -/
def Library.replaceMatch (rule : Rule O) (one : Bool) (selector : Text) (leaves : ℕ) :
    Except ConditionIssue (Text × ℕ) :=
  let names := lib.selectorNames rule selector
  if names = [] then .error .emptySelector
  else if names.length > 100 then .error .expandedTooLarge
  else if leaves + names.length > 200 then .error .expandedTooLarge
  else .ok (expandedText one names, leaves + names.length)

/-- `SIGMA_EXPANSION_PATTERN.sub(replace_match, ...)`; `free` says that a space
or nothing is just before. -/
def Library.expandOnce (rule : Rule O) : ℕ → Bool → Text → ℕ → Except ConditionIssue (Text × ℕ)
  | 0, _, _, leaves => .ok ([], leaves)
  | _ + 1, _, [], leaves => .ok ([], leaves)
  | n + 1, free, c :: t, leaves =>
    match if free then lib.expansionHere (c :: t) else none with
    | some (one, selector, rest) => do
        let (replacement, leaves) ← lib.replaceMatch rule one selector leaves
        let (tail, leaves) ← Library.expandOnce rule n false rest leaves
        pure (replacement ++ tail, leaves)
    | none => do
        let (tail, leaves) ← Library.expandOnce rule n (isSpace c) t leaves
        pure (c :: tail, leaves)

/-- `SIGMA_EXPANSION_PATTERN.search`. -/
def Library.hasExpansion : Bool → Text → Bool
  | _, [] => false
  | free, c :: t => (free && (lib.expansionHere (c :: t)).isSome) || Library.hasExpansion (isSpace c) t

/-- The loop of `expand_sigma_condition_terms`: the condition so far, and what
stopped it. -/
def Library.expandRounds (rule : Rule O) : ℕ → Text → ℕ → Text × Option ConditionIssue
  | 0, expanded, _ => (expanded, none)
  | n + 1, expanded, leaves =>
    match lib.expandOnce rule expanded.length true expanded leaves with
    | .error issue => (expanded, some issue)
    | .ok (updated, leaves) =>
      if updated = expanded then (expanded, none)
      else Library.expandRounds rule n updated leaves

/-- `expand_sigma_condition_terms`: the expanded condition, and what is wrong
with it. -/
def Library.expandConditionTerms (rule : Rule O) : Text × Option ConditionIssue :=
  let condition := lib.condition rule
  if condition = [] then ([], some .emptyCondition)
  else
    match lib.expandRounds rule 8 condition 0 with
    | (expanded, some issue) => (expanded, some issue)
    | (expanded, none) =>
      if lib.hasExpansion true expanded then (expanded, some .unsupportedCondition)
      else (expanded, none)

/-! ### Support -/

/-- `\bnear\b|\bwithin\b|\bby\b`. -/
def Library.correlationHere (t : Text) : Bool :=
  ["near", "within", "by"].any fun word => (lib.wordHere word t).isSome

/-- `\b(?:\d+|all)\s+of\b`. -/
def Library.quantifierHere (t : Text) : Bool :=
  let afterNumber := if t.head?.any lib.isDecimal then some (t.dropWhile lib.isDecimal) else none
  [afterNumber, lib.afterWord "all".toList t].any fun rest =>
    ((rest.bind afterSpaces).bind (lib.wordHere "of")).isSome

/-- `UNSUPPORTED_CONDITION_RE.search`. -/
def Library.isUnsupported (condition : Text) : Bool :=
  lib.atSomeWord (fun t => lib.correlationHere t || lib.quantifierHere t ||
    (lib.wordHere "them" t).isSome) false condition

/-- `sigma_condition_supported`. -/
def Library.conditionIssue (condition : Text) : Option ConditionIssue :=
  let normalized := strip condition
  if normalized = [] then some .emptyCondition
  else if lib.isUnsupported normalized then some .unsupportedCondition
  else if (lib.conditionRpn normalized).isNone then some .unsupportedCondition
  else none

end

end Kairon.Sigma

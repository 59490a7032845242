/-
Kairon/Lvm/RoundTrip.lean

Printing the tree of the metadata text, and reading it back.

`sectionTokens` prints a tree as tokens, and a text that has these tokens with any gaps
between them `Renders` them.  The tokenizer finds the tokens again if the keys are what it
takes for an identifier (`IsPlainKey`): a key with a plus sign, or one that begins like a
number, is none.  The other direction needs no run: no identifier token ever has another name
(`tokens_plain`), so no other key is ever in a parsed tree.

What is accepted is derivable in the grammar of the module (`Derives`), whatever the text.
-/
import Kairon.Lib.Ascii
import Kairon.Lvm.Escape

namespace Kairon.Lvm

open Search (Text isSpace intStr natOf asciiInt)
open Settle Ascii

/-! ### Printing -/

/-- The elements of an array, with commas between them. -/
def elementTokens : List Element → List Token
  | [] => []
  | [.int n] => [.int n]
  | [.string s] => [.string s]
  | .int n :: items => .int n :: .comma :: elementTokens items
  | .string s :: items => .string s :: .comma :: elementTokens items

mutual

/-- What stands behind a key. -/
def ConfigValue.tokens : ConfigValue → List Token
  | .int n => [.equals, .int n]
  | .string s => [.equals, .string s]
  | .array items => .equals :: .lbracket :: (elementTokens items ++ [.rbracket])
  | .body entries => .lbrace :: (sectionTokens entries ++ [.rbrace])

/-- A section, as tokens. -/
def sectionTokens : List (Text × ConfigValue) → List Token
  | [] => []
  | (name, value) :: entries => .ident name :: (value.tokens ++ sectionTokens entries)

end

/-- A quote and a backslash are written with a backslash. -/
def escape : Text → Text
  | [] => []
  | c :: s => if c = '"' ∨ c = '\\' then '\\' :: c :: escape s else c :: escape s

/-- How a token is written. -/
def Token.spell : Token → Text
  | .ident name => name
  | .int n => intStr n
  | .string s => '"' :: (escape s ++ ['"'])
  | .lbrace => ['{']
  | .rbrace => ['}']
  | .lbracket => ['[']
  | .rbracket => [']']
  | .equals => ['=']
  | .comma => [',']

/-- White space and comments. -/
inductive Gap : Text → Prop
  | nil : Gap []
  | space {c : Char} {t : Text} : isSpace c = true → Gap t → Gap (c :: t)
  | comment {s t : Text} : '\n' ∉ s → Gap t → Gap ('#' :: (s ++ '\n' :: t))

/-- The tokens are written one behind the other, with gaps of any kind; the last comment may
lack its end of line. -/
inductive Renders : List Token → Text → Prop
  | done {gap : Text} : Gap gap → Renders [] gap
  | comment {gap s : Text} : Gap gap → '\n' ∉ s → Renders [] (gap ++ '#' :: s)
  | token {token : Token} {tokens : List Token} {gap t : Text} : Gap gap → Renders tokens t →
      Renders (token :: tokens) (gap ++ (token.spell ++ t))

/-! ### Trees -/

/-- The characters of an LVM name. -/
def isNameChar (c : Char) : Bool := c.isAlphanum || c = '+' || c = '_' || c = '.' || c = '-'

/-- What the tokenizer takes for an identifier. -/
structure IsPlainKey (name : Text) : Prop where
  nonempty : name ≠ []
  chars : ∀ c ∈ name, isIdentChar c = true
  head : ∀ c ∈ name.head?, c.isDigit = false
  minus : name.head? = some '-' → ∀ c ∈ name.tail.head?, c.isDigit = false

mutual

/-- All keys of the tree satisfy `P`. -/
def ConfigValue.Keys (P : Text → Prop) : ConfigValue → Prop
  | .body entries => KeysOf P entries
  | _ => True

def KeysOf (P : Text → Prop) : List (Text × ConfigValue) → Prop
  | [] => True
  | (name, value) :: entries => P name ∧ value.Keys P ∧ KeysOf P entries

end

mutual

/-- The sections of the tree have each key once. -/
def ConfigValue.Distinct : ConfigValue → Prop
  | .body entries => DistinctKeys entries
  | _ => True

def DistinctKeys : List (Text × ConfigValue) → Prop
  | [] => True
  | (name, value) :: entries =>
    name ∉ entries.map Prod.fst ∧ value.Distinct ∧ DistinctKeys entries

end

mutual

/-- How deep sections are nested in a value. -/
def ConfigValue.depth : ConfigValue → ℕ
  | .body entries => depthOf entries + 1
  | _ => 0

def depthOf : List (Text × ConfigValue) → ℕ
  | [] => 0
  | (_, value) :: entries => max value.depth (depthOf entries)

end

/-- A tree of the format: its sections are dictionaries, its keys are LVM names. -/
structure Printable (entries : Section) : Prop where
  distinct : DistinctKeys entries
  keys : KeysOf (fun name => name ≠ [] ∧ ∀ c ∈ name, isNameChar c = true) entries

/-- A tree that is read back: its keys are identifiers of the tokenizer, and its integers and
its nesting are within the limits of the interpreter. -/
structure ReadsBack (py : Interpreter) (entries : Section) : Prop where
  plain : KeysOf IsPlainKey entries
  ints : ∀ n, .int n ∈ sectionTokens entries → py.printable n = true
  depth : depthOf entries ≤ py.nesting

/-- Whatever gaps it is printed with, the tree is read back. -/
def RoundTrips (py : Interpreter) (entries : Section) : Prop :=
  ∀ text, Renders (sectionTokens entries) text → py.parseConfigText text = .ok entries

/-- What the parser relies on: the digits and the integers of Python.  `int` and `str` have
one limit for the number of digits. -/
structure Interpreter.Numbers (py : Interpreter) : Prop where
  ascii : ∀ c : Char, c.toNat < 128 → py.isDigit c = c.isDigit
  space : ∀ c, isSpace c = true → py.isDigit c = false
  parseInt : ∀ n, py.printable n = true → py.parseInt (intStr n) = some n
  printable : ∀ s n, py.parseInt s = some n → py.printable n = true

/-! ### The grammar -/

inductive Phrase
  | statements | value | values
  deriving DecidableEq

/-- The grammar of the module. -/
inductive Derives : Phrase → List Token → Prop
  | done : Derives .statements []
  | assignment {name : Text} {value rest : List Token} : Derives .value value →
      Derives .statements rest → Derives .statements (.ident name :: .equals :: (value ++ rest))
  | nested {name : Text} {body rest : List Token} : Derives .statements body →
      Derives .statements rest →
      Derives .statements (.ident name :: .lbrace :: (body ++ .rbrace :: rest))
  | int (n : ℤ) : Derives .value [.int n]
  | string (s : Text) : Derives .value [.string s]
  | emptyArray : Derives .value [.lbracket, .rbracket]
  | array {values : List Token} : Derives .values values →
      Derives .value (.lbracket :: (values ++ [.rbracket]))
  | one {value : List Token} : Derives .value value → Derives .values value
  | more {value values : List Token} : Derives .value value → Derives .values values →
      Derives .values (value ++ .comma :: values)

/-- What stands between the quotes of a string. -/
inductive Quotes : Text → Text → Prop
  | nil : Quotes [] []
  | escaped {c : Char} {s t : Text} : Quotes s t → Quotes (c :: s) ('\\' :: c :: t)
  | plain {c : Char} {s t : Text} : c ≠ '"' → c ≠ '\\' → Quotes s t → Quotes (c :: s) (c :: t)

/-- The text is one of those that stand for the token. -/
inductive Lexeme (py : Interpreter) : Token → Text → Prop
  | ident {name : Text} : name ≠ [] → (∀ c ∈ name, isIdentChar c = true) →
      Lexeme py (.ident name) name
  | natural {n : ℤ} {digits : Text} : digits ≠ [] → (∀ c ∈ digits, py.isDigit c = true) →
      py.parseInt digits = some n → Lexeme py (.int n) digits
  | negative {n : ℤ} {digits : Text} : digits ≠ [] → (∀ c ∈ digits, py.isDigit c = true) →
      py.parseInt ('-' :: digits) = some n → Lexeme py (.int n) ('-' :: digits)
  | string {s t : Text} : Quotes s t → Lexeme py (.string s) ('"' :: (t ++ ['"']))
  | punctuation {c : Char} {token : Token} : punctuation c = some token → Lexeme py token [c]

/-- The text consists of the tokens, and of white space and comments. -/
inductive Lexes (py : Interpreter) : Text → List Token → Prop
  | done : Lexes py [] []
  | space {c : Char} {t : Text} {tokens : List Token} : isSpace c = true → Lexes py t tokens →
      Lexes py (c :: t) tokens
  | comment {s t : Text} {tokens : List Token} : '\n' ∉ s → Lexes py t tokens →
      Lexes py ('#' :: (s ++ '\n' :: t)) tokens
  | lastComment {s : Text} : '\n' ∉ s → Lexes py ('#' :: s) []
  | token {token : Token} {lexeme t : Text} {tokens : List Token} : Lexeme py token lexeme →
      Lexes py t tokens → Lexes py (lexeme ++ t) (token :: tokens)

/-- The text is derivable in the grammar. -/
def Grammatical (py : Interpreter) (text : Text) : Prop :=
  ∃ tokens, Lexes py text tokens ∧ Derives .statements tokens

/-! ### Characters -/

section Chars

variable {c : Char}

theorem toNat_lt_of_isIdentChar (h : isIdentChar c = true) : c.toNat < 128 := by
  unfold isIdentChar at h
  simp only [Bool.or_eq_true, Bool.and_eq_true, decide_eq_true_eq] at h
  have hle : ∀ d : Char, d.toNat < 128 → c ≤ d → c.toNat < 128 :=
    fun d hd hcd => lt_of_le_of_lt hcd hd
  rcases h with ((((⟨-, h⟩ | ⟨-, h⟩) | ⟨-, h⟩) | rfl) | rfl) | rfl
  · exact hle 'z' (by decide) h
  · exact hle 'Z' (by decide) h
  · exact hle '9' (by decide) h
  · decide
  · decide
  · decide

theorem isIdentChar_of_isSpace (h : isSpace c = true) : isIdentChar c = false := by
  by_contra hident
  rw [Bool.not_eq_false] at hident
  have hall := @ascii_forall c (fun c => !(isIdentChar c && isSpace c)) (by decide +kernel)
    (toNat_lt_of_isIdentChar hident)
  rw [hident, h] at hall
  cases hall

/-- An identifier character is no punctuation, no quote, no space and no comment sign. -/
theorem identChar_other (h : isIdentChar c = true) :
    punctuation c = none ∧ c ≠ '"' ∧ isSpace c = false ∧ c ≠ '#' := by
  have hall := @ascii_forall c (fun c => !isIdentChar c ||
    ((punctuation c).isNone && c ≠ '"' && !isSpace c && c ≠ '#')) (by decide +kernel)
    (toNat_lt_of_isIdentChar h)
  simpa [h, and_assoc] using hall

/-- The first character of an integer is no punctuation, no quote, no space and no comment
sign. -/
theorem digit_other (h : c.isDigit = true) :
    punctuation c = none ∧ c ≠ '"' ∧ isSpace c = false ∧ c ≠ '#' := by
  have hall := @ascii_forall c (fun c => !c.isDigit ||
    ((punctuation c).isNone && c ≠ '"' && !isSpace c && c ≠ '#')) (by decide +kernel)
    (toNat_lt_of_isDigit h)
  simpa [h, and_assoc] using hall

end Chars

/-! ### Reading tokens back -/

section Tokens

variable {py : Interpreter} {t : Text}

/-- White space and comments are skipped. -/
theorem tokens_gap (py : Interpreter) {gap : Text} (hgap : Gap gap) {n : ℕ} (hn : (gap ++ t).length ≤ n) :
    ∃ m, t.length ≤ m ∧ py.tokens n (gap ++ t) = py.tokens m t := by
  induction hgap generalizing n with
  | nil => exact ⟨n, hn, rfl⟩
  | @space c gap hc _ ih =>
    rcases n with - | n
    · cases hn
    · obtain ⟨m, hm, htokens⟩ := ih (Nat.le_of_succ_le_succ hn)
      refine ⟨m, hm, ?_⟩
      rw [List.cons_append, Interpreter.tokens, if_pos hc, htokens]
  | @comment s gap hs _ ih =>
    rcases n with - | n
    · cases hn
    · have hline : afterLine (s ++ '\n' :: gap ++ t) = gap ++ t := by
        rw [afterLine, List.append_assoc, List.dropWhile_append_of_pos fun c hc => ?_]
        · rfl
        · refine decide_eq_true ?_
          rintro rfl
          exact hs hc
      have hlength : (gap ++ t).length ≤ n := by
        simp only [List.cons_append, List.append_assoc, List.length_cons, List.length_append] at hn ⊢
        omega
      obtain ⟨m, hm, htokens⟩ := ih hlength
      refine ⟨m, hm, ?_⟩
      rw [List.cons_append, Interpreter.tokens, if_neg (by decide), if_pos rfl, hline, htokens]

/-- A comment without an end of line goes to the end. -/
theorem tokens_lastComment {s : Text} (hs : '\n' ∉ s) (n : ℕ) :
    py.tokens n ('#' :: s) = .ok [] := by
  rcases n with - | n
  · rfl
  · have hline : afterLine s = [] := by
      rw [afterLine, List.dropWhile_eq_nil_iff.mpr fun c hc => ?_]
      · rfl
      · refine decide_eq_true ?_
        rintro rfl
        exact hs hc
    rw [Interpreter.tokens, if_neg (by decide), if_pos rfl, hline]
    rcases n with - | n <;> rfl

/-- A character that is in no identifier and in no integer. -/
def Stops (c : Char) : Prop := isSpace c = true ∨ c ∈ "#={}[],\"".toList

theorem Stops.notIdentChar {c : Char} (h : Stops c) : isIdentChar c = false := by
  rcases h with h | h
  · exact isIdentChar_of_isSpace h
  · have hall := List.all_eq_true.mp (by decide :
      ("#={}[],\"".toList.all fun c => !isIdentChar c) = true) c h
    simpa using hall

theorem Stops.notDigit {c : Char} (hpy : py.Numbers) (h : Stops c) : py.isDigit c = false := by
  rcases h with h | h
  · exact hpy.space c h
  · have hall := List.all_eq_true.mp (by decide :
      ("#={}[],\"".toList.all fun c => decide (c.toNat < 128) && !c.isDigit) = true) c h
    rw [Bool.and_eq_true, decide_eq_true_iff] at hall
    rw [hpy.ascii c hall.1]
    simpa using hall.2

theorem takeWhile_append_ends {ok : Char → Bool} {s : Text} (hs : ∀ c ∈ s, ok c = true)
    (ht : ∀ c ∈ t.head?, ok c = false) : (s ++ t).takeWhile ok = s ∧ (s ++ t).dropWhile ok = t := by
  rw [List.takeWhile_append_of_pos hs, List.dropWhile_append_of_pos hs]
  rcases t with - | ⟨c, t⟩
  · exact ⟨List.append_nil s, rfl⟩
  · have hc : ¬ ok c = true := by
      rw [ht c rfl]
      exact Bool.false_ne_true
    rw [List.takeWhile_cons_of_neg hc, List.dropWhile_cons_of_neg hc]
    exact ⟨List.append_nil s, rfl⟩

variable (hpy : py.Numbers)
include hpy

theorem nextToken_ident {c : Char} {s : Text} (hname : IsPlainKey (c :: s))
    (ht : ∀ d ∈ t.head?, Stops d) :
    py.nextToken c (s ++ t) = .ok (.ident (c :: s), t) := by
  obtain ⟨hc, hs⟩ := List.forall_mem_cons.mp hname.chars
  obtain ⟨hpunctuation, hquote, -, -⟩ := identChar_other hc
  have hdigit : py.isDigit c = false := by
    rw [hpy.ascii c (toNat_lt_of_isIdentChar hc), hname.head c rfl]
  have hminus : ¬ (py.isDigit c = true ∨ c = '-' ∧ (s ++ t).head?.any py.isDigit = true) := by
    rintro (h | ⟨rfl, h⟩)
    · rw [hdigit] at h
      cases h
    · rcases s with - | ⟨d, s⟩
      · rcases t with - | ⟨d, t⟩
        · cases h
        · rw [List.nil_append, List.head?_cons, Option.any_some] at h
          rw [(ht d rfl).notDigit hpy] at h
          cases h
      · rw [List.cons_append, List.head?_cons, Option.any_some,
          hpy.ascii d (toNat_lt_of_isIdentChar (hs d (.head _))),
          hname.minus rfl d rfl] at h
        cases h
  obtain ⟨htake, hdrop⟩ := takeWhile_append_ends hs fun d hd => (ht d hd).notIdentChar
  rw [Interpreter.nextToken, hpunctuation]
  dsimp only
  rw [if_neg hquote, if_neg hminus, if_pos hc, htake, hdrop]

/-- An integer is read back. -/
theorem nextToken_int {n : ℤ} (hn : py.printable n = true) (ht : ∀ d ∈ t.head?, py.isDigit d = false) :
    ∃ c s, intStr n = c :: s ∧ isSpace c = false ∧ c ≠ '#' ∧
      py.nextToken c (s ++ t) = .ok (.int n, t) := by
  have hdigits : ∀ c ∈ Nat.toDigits 10 n.natAbs, c.isDigit = true := fun c hc =>
    Nat.isDigit_of_mem_toDigits (by decide) (by decide) hc
  have hread : ∀ c ∈ Nat.toDigits 10 n.natAbs, py.isDigit c = true := fun c hc => by
    rw [hpy.ascii c (toNat_lt_of_isDigit (hdigits c hc)), hdigits c hc]
  obtain ⟨d, ds, hcons⟩ := List.exists_cons_of_ne_nil (Nat.toDigits_ne_nil (n := n.natAbs) (b := 10))
  rw [hcons] at hread hdigits
  obtain ⟨hd, hds⟩ := List.forall_mem_cons.mp hread
  have hparse := hpy.parseInt n hn
  by_cases hneg : n < 0
  · have hstr : intStr n = '-' :: d :: ds := by rw [intStr, if_pos hneg, hcons]
    refine ⟨'-', d :: ds, hstr, by decide, by decide, ?_⟩
    obtain ⟨htake, hdrop⟩ := takeWhile_append_ends hread ht
    have hbranch : py.isDigit '-' = true ∨ '-' = '-' ∧ (d :: ds ++ t).head?.any py.isDigit = true :=
      .inr ⟨rfl, hd⟩
    have hpunctuation : punctuation '-' = none := rfl
    rw [Interpreter.nextToken, hpunctuation]
    dsimp only
    rw [if_neg (by decide), if_pos hbranch, htake, hdrop, Interpreter.intToken, if_neg (by simp),
      ← hstr, hparse]
    rfl
  · have hstr : intStr n = d :: ds := by rw [intStr, if_neg hneg, hcons]
    obtain ⟨htake, hdrop⟩ := takeWhile_append_ends hds ht
    obtain ⟨hpunctuation, hquote, hspace, hcomment⟩ := digit_other (hdigits d (.head _))
    refine ⟨d, ds, hstr, hspace, hcomment, ?_⟩
    have hne : ¬ (d :: ds = [] ∨ d :: ds = ['-']) := by
      rintro (h | h)
      · cases h
      · obtain rfl := (List.cons_eq_cons.mp h).1
        exact absurd (hdigits '-' (.head _)) (by decide)
    rw [Interpreter.nextToken, hpunctuation]
    dsimp only
    rw [if_neg hquote, if_pos (.inl hd), htake, hdrop, Interpreter.intToken, if_neg hne, ← hstr,
      hparse]
    rfl

omit hpy in
/-- A string is read back. -/
theorem readString_escape (s : Text) : readString (escape s ++ '"' :: t) = .ok (s, t) := by
  induction s with
  | nil => rfl
  | cons c s ih =>
    rw [escape]
    split_ifs with hc
    · rw [List.cons_append, List.cons_append, readString, ih]
      rfl
    · rw [not_or] at hc
      rw [List.cons_append, readString.eq_5 _ _ (fun h _ => hc.2 h) (fun _ _ h _ => hc.2 h) hc.1, ih]
      rfl

/-- Tokens that can be told apart without a gap between them. -/
def Apart : List Token → Prop
  | [] => True
  | .ident _ :: tokens =>
    (tokens.head? = some .equals ∨ tokens.head? = some .lbrace) ∧ Apart tokens
  | .int _ :: tokens => (∀ n, tokens.head? ≠ some (.int n)) ∧ Apart tokens
  | _ :: tokens => Apart tokens

variable {tokens : List Token}

omit hpy in
theorem Apart.tail {token : Token} (h : Apart (token :: tokens)) : Apart tokens := by
  cases token <;> first | exact h.2 | exact h

/-- A token that is read back. -/
structure Readable (py : Interpreter) (tokens : List Token) : Prop where
  plain : ∀ name, .ident name ∈ tokens → IsPlainKey name
  ints : ∀ n, .int n ∈ tokens → py.printable n = true

omit hpy in
theorem Readable.tail {token : Token} (h : Readable py (token :: tokens)) : Readable py tokens :=
  ⟨fun name hname => h.plain name (.tail _ hname),
    fun n hn => h.ints n (.tail _ hn)⟩

omit hpy in
/-- What the rest of a text begins with. -/
theorem Renders.head (h : Renders tokens t) {c : Char} (hc : c ∈ t.head?) :
    Stops c ∨ ∃ token ∈ tokens.head?, ∃ t', token.spell ++ t' = c :: t.tail := by
  have hgap : ∀ {gap t : Text}, Gap gap → c ∈ (gap ++ t).head? → Stops c ∨ gap = [] := by
    intro gap t hgap hc
    cases hgap with
    | nil => exact .inr rfl
    | space hspace _ =>
      obtain rfl := Option.some.inj hc
      exact .inl (.inl hspace)
    | comment _ _ =>
      obtain rfl := Option.some.inj hc
      exact .inl (.inr (by decide))
  cases h with
  | @done gap h =>
    have hc : c ∈ (t ++ []).head? := by rwa [List.append_nil]
    rcases hgap h hc with h | rfl
    · exact .inl h
    · cases hc
  | @comment gap s h _ =>
    rcases hgap h hc with h | rfl
    · exact .inl h
    · obtain rfl := Option.some.inj hc
      exact .inl (.inr (by decide))
  | @token token tokens gap t' h _ =>
    rcases hgap h hc with h | rfl
    · exact .inl h
    · refine .inr ⟨token, rfl, t', ?_⟩
      rw [List.nil_append] at hc ⊢
      rcases hspell : token.spell ++ t' with - | ⟨d, rest⟩
      · rw [hspell] at hc
        cases hc
      · rw [hspell] at hc
        rw [Option.some.inj hc]
        rfl

/-- A text that renders tokens begins with no digit unless an integer comes first. -/
theorem Renders.head_notDigit (h : Renders tokens t)
    (hreadable : Readable py tokens) (hint : ∀ n, tokens.head? ≠ some (.int n)) :
    ∀ c ∈ t.head?, py.isDigit c = false := by
  intro c hc
  rcases h.head hc with h | ⟨token, htoken, t', hspell⟩
  · exact h.notDigit hpy
  · have hmem : token ∈ tokens := List.mem_of_mem_head? htoken
    have hstops : ∀ d, token.spell = [d] → Stops d → py.isDigit c = false := by
      intro d hd hstops
      rw [hd] at hspell
      obtain rfl := (List.cons_eq_cons.mp hspell).1
      exact hstops.notDigit hpy
    rcases token with name | n | s | - | - | - | - | - | -
    · have hplain := hreadable.plain name hmem
      obtain ⟨d, name, rfl⟩ := List.exists_cons_of_ne_nil hplain.nonempty
      obtain rfl : d = c := (List.cons_eq_cons.mp hspell).1
      rw [hpy.ascii d (toNat_lt_of_isIdentChar (hplain.chars d (.head _))),
        hplain.head d rfl]
    · exact absurd htoken (hint n)
    · obtain rfl : '"' = c := (List.cons_eq_cons.mp hspell).1
      exact Stops.notDigit hpy (.inr (by decide))
    · exact hstops '{' rfl (.inr (by decide))
    · exact hstops '}' rfl (.inr (by decide))
    · exact hstops '[' rfl (.inr (by decide))
    · exact hstops ']' rfl (.inr (by decide))
    · exact hstops '=' rfl (.inr (by decide))
    · exact hstops ',' rfl (.inr (by decide))

/-- A token is read off the text. -/
theorem nextToken_spell {token : Token}
    (hreadable : Readable py (token :: tokens)) (hapart : Apart (token :: tokens))
    (h : Renders tokens t) : ∃ c s, token.spell = c :: s ∧ isSpace c = false ∧ c ≠ '#' ∧
      py.nextToken c (s ++ t) = .ok (token, t) := by
  rcases token with name | n | s | - | - | - | - | - | -
  · have hplain := hreadable.plain name (.head _)
    obtain ⟨c, name, rfl⟩ := List.exists_cons_of_ne_nil hplain.nonempty
    obtain ⟨-, -, hspace, hcomment⟩ := identChar_other (hplain.chars c (.head _))
    refine ⟨c, name, rfl, hspace, hcomment, nextToken_ident hpy hplain fun d hd => ?_⟩
    rcases h.head hd with h | ⟨token, htoken, t', hspell⟩
    · exact h
    · rcases hapart.1 with heq | heq
      · obtain rfl := Option.some.inj (heq.symm.trans htoken)
        obtain rfl := (List.cons_eq_cons.mp hspell).1
        exact .inr (by decide)
      · obtain rfl := Option.some.inj (heq.symm.trans htoken)
        obtain rfl := (List.cons_eq_cons.mp hspell).1
        exact .inr (by decide)
  · exact nextToken_int hpy (hreadable.ints n (.head _))
      (h.head_notDigit hpy hreadable.tail hapart.1)
  · refine ⟨'"', escape s ++ ['"'], rfl, by decide, by decide, ?_⟩
    have hpunctuation : punctuation '"' = none := rfl
    rw [List.append_assoc, Interpreter.nextToken, hpunctuation]
    dsimp only
    rw [if_pos rfl]
    show (readString (escape s ++ '"' :: t) >>= fun r => pure (Token.string r.1, r.2)) = _
    rw [readString_escape]
    rfl
  all_goals exact ⟨_, [], rfl, by decide, by decide, rfl⟩

/-- **The tokenizer finds the tokens of a rendered text.** -/
theorem tokens_renders (h : Renders tokens t)
    (hreadable : Readable py tokens) (hapart : Apart tokens) {n : ℕ} (hn : t.length ≤ n) :
    py.tokens n t = .ok tokens := by
  induction h generalizing n with
  | @done gap h =>
    have hn : (gap ++ []).length ≤ n := by rwa [List.append_nil]
    obtain ⟨m, -, hm⟩ := tokens_gap py h hn
    rw [List.append_nil] at hm
    rw [hm]
    rcases m with - | m <;> rfl
  | comment h hs =>
    obtain ⟨m, -, hm⟩ := tokens_gap py h hn
    rw [hm, tokens_lastComment hs]
  | @token token tokens gap t h hrest ih =>
    obtain ⟨m, hlength, hm⟩ := tokens_gap py h hn
    obtain ⟨c, s, hspell, hspace, hcomment, hnext⟩ := nextToken_spell hpy hreadable hapart hrest
    rw [hm, hspell, List.cons_append]
    rw [hspell, List.cons_append] at hlength
    rcases m with - | m
    · cases hlength
    · have ht : t.length ≤ m := by
        rw [List.length_cons, List.length_append] at hlength
        omega
      have hspace : ¬ isSpace c = true := by
        rw [hspace]
        exact Bool.false_ne_true
      rw [Interpreter.tokens, if_neg hspace, if_neg hcomment, hnext]
      show (py.tokens m t >>= fun tail => pure (token :: tail)) = _
      rw [ih hreadable.tail hapart.tail ht]
      rfl

end Tokens

/-! ### Parsing printed tokens -/

section Parse

theorem parseElements_tokens (items : List Element) (hne : items ≠ []) (rest : List Token) :
    parseElements (elementTokens items ++ .rbracket :: rest) = .ok (items, rest) := by
  induction items with
  | nil => exact absurd rfl hne
  | cons item items ih =>
    rcases items with - | ⟨item', items⟩
    · rcases item with n | s <;> rfl
    · have ih := ih (List.cons_ne_nil _ _)
      rcases item with n | s
      · show (parseElements (elementTokens (item' :: items) ++ .rbracket :: rest) >>= fun r =>
          pure (Element.int n :: r.1, r.2)) = _
        rw [ih]
        rfl
      · show (parseElements (elementTokens (item' :: items) ++ .rbracket :: rest) >>= fun r =>
          pure (Element.string s :: r.1, r.2)) = _
        rw [ih]
        rfl

theorem parseValue_array (items : List Element) (rest : List Token) :
    parseValue (.lbracket :: (elementTokens items ++ .rbracket :: rest)) =
      .ok (.array items, rest) := by
  rcases items with - | ⟨item, items⟩
  · rfl
  · have helements := parseElements_tokens (item :: items) (List.cons_ne_nil _ _) rest
    have hstep : parseValue (.lbracket :: (elementTokens (item :: items) ++ .rbracket :: rest)) =
        (parseElements (elementTokens (item :: items) ++ .rbracket :: rest) >>= fun r =>
          pure (.array r.1, r.2)) := by
      rcases item with n | s <;> rcases items with - | ⟨item', items⟩ <;> rfl
    rw [hstep, helements]
    rfl

/-- The tokens of the section are parsed to it, behind the entries that are there. -/
def Parses (entries : Section) : Prop :=
  ∀ n room (known : Section) (rest : List Token), (sectionTokens entries).length ≤ n →
    depthOf entries ≤ room → DistinctKeys entries →
    (∀ name ∈ entries.map Prod.fst, name ∉ known.map Prod.fst) →
    (rest = [] ∨ rest.head? = some .rbrace) →
    parseStatements n room known (sectionTokens entries ++ rest) = .ok (known ++ entries, rest)

theorem parses_nil : Parses [] := by
  intro n room known rest _ _ _ _ hrest
  rw [sectionTokens, List.nil_append, List.append_nil]
  rcases n with - | n
  · rfl
  · rcases hrest with rfl | hrest
    · rfl
    · rcases rest with - | ⟨token, rest⟩
      · rfl
      · obtain rfl := Option.some.inj hrest
        rfl

/-- An entry that has been parsed, and the others. -/
theorem parses_step {name : Text} {value : ConfigValue} {entries : Section} (ih : Parses entries)
    {n room : ℕ} {known : Section} {rest : List Token} (hn : (sectionTokens entries).length ≤ n)
    (hdepth : depthOf ((name, value) :: entries) ≤ room)
    (hdistinct : DistinctKeys ((name, value) :: entries))
    (hknown : ∀ key ∈ ((name, value) :: entries).map Prod.fst, key ∉ known.map Prod.fst)
    (hrest : rest = [] ∨ rest.head? = some .rbrace) :
    parseStatements n room (Dict.set name value known) (sectionTokens entries ++ rest) =
      .ok (known ++ (name, value) :: entries, rest) := by
  obtain ⟨hname, -, hentries⟩ := hdistinct
  have hnew : name ∉ known.map Prod.fst := hknown name (.head _)
  have hother : ∀ key ∈ entries.map Prod.fst, key ∉ (known ++ [(name, value)]).map Prod.fst := by
    intro key hkey
    rw [List.map_append, List.mem_append, not_or]
    refine ⟨hknown key (.tail _ hkey), fun h => ?_⟩
    obtain rfl : key = name := List.mem_singleton.mp h
    exact hname hkey
  rw [Dict.set_of_notMem value hnew,
    ih n room _ rest hn (le_trans (Nat.le_max_right _ _) hdepth) hentries hother hrest,
    List.append_assoc]
  rfl

theorem parses_cons {name : Text} {value : ConfigValue} {entries : Section}
    (hbody : ∀ body, value = .body body → Parses body) (ih : Parses entries) :
    Parses ((name, value) :: entries) := by
  intro n room known rest hn hdepth hdistinct hknown hrest
  have hstep := fun {n : ℕ} (hn : (sectionTokens entries).length ≤ n) =>
    parses_step ih hn hdepth hdistinct hknown hrest
  rw [sectionTokens, List.length_cons, List.length_append] at hn
  obtain ⟨n, rfl⟩ := Nat.exists_eq_add_of_le' (show 1 ≤ n by omega)
  rcases value with k | s | items | body
  · rw [ConfigValue.tokens] at hn
    exact hstep (by simp only [List.length_cons, List.length_nil] at hn; omega)
  · rw [ConfigValue.tokens] at hn
    exact hstep (by simp only [List.length_cons, List.length_nil] at hn; omega)
  · rw [ConfigValue.tokens] at hn
    have harray := parseValue_array items (sectionTokens entries ++ rest)
    have htokens : sectionTokens ((name, .array items) :: entries) ++ rest =
        .ident name :: .equals :: .lbracket :: (elementTokens items ++ .rbracket ::
          (sectionTokens entries ++ rest)) := by
      simp [sectionTokens, ConfigValue.tokens]
    have hassign : parseStatements (n + 1) room known (.ident name :: .equals :: .lbracket ::
        (elementTokens items ++ .rbracket :: (sectionTokens entries ++ rest))) =
        (parseValue (.lbracket :: (elementTokens items ++ .rbracket ::
          (sectionTokens entries ++ rest))) >>= fun r =>
            parseStatements n room (Dict.set name r.1 known) r.2) := rfl
    rw [htokens, hassign, harray]
    exact hstep (by omega)
  · rw [ConfigValue.tokens] at hn
    have hdepth' : depthOf body + 1 ≤ room := le_trans (Nat.le_max_left _ _) hdepth
    obtain ⟨room, rfl⟩ := Nat.exists_eq_add_of_le' (show 1 ≤ room by omega)
    have htokens : sectionTokens ((name, .body body) :: entries) ++ rest =
        .ident name :: .lbrace :: (sectionTokens body ++ .rbrace ::
          (sectionTokens entries ++ rest)) := by
      simp [sectionTokens, ConfigValue.tokens]
    have hnested : parseStatements (n + 1) (room + 1) known (.ident name :: .lbrace ::
        (sectionTokens body ++ .rbrace :: (sectionTokens entries ++ rest))) =
        (parseStatements n room [] (sectionTokens body ++ .rbrace ::
          (sectionTokens entries ++ rest)) >>= fun r => expectBrace r.2 >>= fun rest =>
            parseStatements n (room + 1) (Dict.set name (.body r.1) known) rest) := rfl
    have hlength : (sectionTokens body).length ≤ n ∧ (sectionTokens entries).length ≤ n := by
      simp only [List.length_cons, List.length_append] at hn
      omega
    rw [htokens, hnested, hbody body rfl n room [] _ hlength.1 (by omega) hdistinct.2.1
      (fun _ _ h => by cases h) (.inr rfl)]
    exact hstep hlength.2

mutual

theorem parses_body : (value : ConfigValue) → ∀ body, value = .body body → Parses body
  | .body body => fun body' h => ConfigValue.body.inj h ▸ parses_section body
  | .int _ => fun _ h => by cases h
  | .string _ => fun _ h => by cases h
  | .array _ => fun _ h => by cases h

/-- **The tokens of a tree are parsed to it.** -/
theorem parses_section : (entries : List (Text × ConfigValue)) → Parses entries
  | [] => parses_nil
  | (_, value) :: entries => parses_cons (parses_body value) (parses_section entries)

end

end Parse

/-! ### The tokens of a tree -/

section Trees

/-- All identifiers among the tokens satisfy `P`. -/
def Idents (P : Text → Prop) (tokens : List Token) : Prop := ∀ name, .ident name ∈ tokens → P name

theorem idents_append {P : Text → Prop} {tokens rest : List Token} :
    Idents P (tokens ++ rest) ↔ Idents P tokens ∧ Idents P rest := by
  refine ⟨fun h => ⟨fun name hname => h name (List.mem_append_left _ hname),
    fun name hname => h name (List.mem_append_right _ hname)⟩, fun h name hname => ?_⟩
  rcases List.mem_append.mp hname with hname | hname
  · exact h.1 name hname
  · exact h.2 name hname

theorem idents_cons {P : Text → Prop} {token : Token} {tokens : List Token} :
    Idents P (token :: tokens) ↔ (∀ name, token = .ident name → P name) ∧ Idents P tokens := by
  refine ⟨fun h => ⟨fun name hname => h name (hname ▸ List.mem_cons_self),
    fun name hname => h name (.tail _ hname)⟩, fun h name hname => ?_⟩
  rcases List.mem_cons.mp hname with rfl | hname
  · exact h.1 name rfl
  · exact h.2 name hname

theorem elementTokens_cons (item : Element) {items : List Element} (h : items ≠ []) :
    ∃ token, (∀ name, token ≠ .ident name) ∧
      elementTokens (item :: items) = token :: .comma :: elementTokens items := by
  rcases items with - | ⟨item', items⟩
  · exact absurd rfl h
  · rcases item with n | s
    · exact ⟨.int n, fun name h => (by cases h), rfl⟩
    · exact ⟨.string s, fun name h => (by cases h), rfl⟩

/-- An array has no identifiers. -/
theorem idents_elementTokens (P : Text → Prop) (items : List Element) :
    Idents P (elementTokens items) := by
  induction items with
  | nil => exact fun name h => by cases h
  | cons item items ih =>
    by_cases hitems : items = []
    · subst hitems
      rcases item with n | s <;> exact fun name h => by cases List.mem_singleton.mp h
    · obtain ⟨token, htoken, hcons⟩ := elementTokens_cons item hitems
      rw [hcons, idents_cons, idents_cons]
      exact ⟨fun name h => absurd h (htoken name), fun name h => (by cases h), ih⟩

mutual

theorem keys_iff (P : Text → Prop) : (value : ConfigValue) → (value.Keys P ↔ Idents P value.tokens)
  | .int n => ⟨fun _ name h => (by simp [ConfigValue.tokens] at h), fun _ => trivial⟩
  | .string s => ⟨fun _ name h => (by simp [ConfigValue.tokens] at h), fun _ => trivial⟩
  | .array items => by
    refine ⟨fun _ => ?_, fun _ => trivial⟩
    rw [ConfigValue.tokens, idents_cons, idents_cons, idents_append]
    exact ⟨fun name h => (by cases h), fun name h => (by cases h), idents_elementTokens P items,
      fun name h => by cases List.mem_singleton.mp h⟩
  | .body entries => by
    rw [ConfigValue.Keys, ConfigValue.tokens, idents_cons, idents_append, keysOf_iff P entries]
    exact ⟨fun h => ⟨fun name h => (by cases h), h, fun name h => by cases List.mem_singleton.mp h⟩,
      fun h => h.2.1⟩

/-- The keys of a tree are the identifiers of its tokens. -/
theorem keysOf_iff (P : Text → Prop) :
    (entries : List (Text × ConfigValue)) → (KeysOf P entries ↔ Idents P (sectionTokens entries))
  | [] => ⟨fun _ name h => (by cases h), fun _ => trivial⟩
  | (name, value) :: entries => by
    rw [KeysOf, sectionTokens, idents_cons, idents_append, keys_iff P value, keysOf_iff P entries]
    refine and_congr_left fun _ => ⟨fun h name' h' => ?_, fun h => h name rfl⟩
    cases h'
    exact h

end

theorem apart_elementTokens (items : List Element) {rest : List Token} (hrest : Apart rest) :
    Apart (elementTokens items ++ .rbracket :: rest) := by
  induction items with
  | nil => exact hrest
  | cons item items ih =>
    rcases items with - | ⟨item', items⟩
    · rcases item with n | s
      · exact ⟨fun n h => (by cases h), hrest⟩
      · exact hrest
    · rcases item with n | s
      · exact ⟨fun n h => (by cases h), ih⟩
      · exact ih

/-- No integer comes first. -/
def NoInt (tokens : List Token) : Prop := ∀ n, tokens.head? ≠ some (.int n)

theorem noInt_sectionTokens (entries : Section) {rest : List Token} (hrest : NoInt rest) :
    NoInt (sectionTokens entries ++ rest) := by
  rcases entries with - | ⟨⟨name, value⟩, entries⟩
  · exact hrest
  · rw [sectionTokens]
    exact fun n h => by cases h

mutual

theorem apart_value : (value : ConfigValue) → ∀ name rest, Apart rest → NoInt rest →
    Apart (.ident name :: (value.tokens ++ rest))
  | .int n => fun _ _ hrest hint => ⟨.inl rfl, hint, hrest⟩
  | .string s => fun _ _ hrest _ => ⟨.inl rfl, hrest⟩
  | .array items => fun name rest hrest _ => by
    rw [ConfigValue.tokens, List.cons_append, List.cons_append, List.append_assoc]
    exact ⟨.inl rfl, apart_elementTokens items hrest⟩
  | .body entries => fun name rest hrest _ => by
    rw [ConfigValue.tokens, List.cons_append, List.append_assoc]
    exact ⟨.inr rfl, apart_section entries (.rbrace :: rest) hrest fun n h => by cases h⟩

/-- The tokens of a tree can be told apart. -/
theorem apart_section : (entries : List (Text × ConfigValue)) → ∀ rest, Apart rest → NoInt rest →
    Apart (sectionTokens entries ++ rest)
  | [] => fun _ hrest _ => hrest
  | (name, value) :: entries => fun rest hrest hint => by
    rw [sectionTokens, List.cons_append, List.append_assoc]
    exact apart_value value name _ (apart_section entries rest hrest hint)
      (noInt_sectionTokens entries hint)

end

theorem exists_renders (tokens : List Token) : ∃ text, Renders tokens text := by
  induction tokens with
  | nil => exact ⟨_, .done .nil⟩
  | cons token tokens ih =>
    obtain ⟨text, htext⟩ := ih
    exact ⟨_, .token .nil htext⟩

/-- **A tree with plain keys within the limits is read back.** -/
theorem ReadsBack.roundTrips {py : Interpreter} (hpy : py.Numbers) {entries : Section}
    (h : ReadsBack py entries) (hdistinct : DistinctKeys entries) : RoundTrips py entries := by
  intro text htext
  have hreadable : Readable py (sectionTokens entries) :=
    ⟨(keysOf_iff IsPlainKey entries).mp h.plain, h.ints⟩
  have hapart : Apart (sectionTokens entries) := by
    have happ := apart_section entries [] trivial fun n h => by cases h
    rwa [List.append_nil] at happ
  have htokens := tokens_renders hpy htext hreadable hapart (Nat.le_refl _)
  have hparse := parses_section entries (sectionTokens entries).length py.nesting [] []
    (Nat.le_refl _) h.depth hdistinct (fun _ _ h => by cases h) (.inl rfl)
  rw [List.append_nil] at hparse
  show (py.tokens text.length text >>= fun tokens => parseDocument py.nesting tokens) = _
  rw [htokens]
  show (parseStatements (sectionTokens entries).length py.nesting [] (sectionTokens entries) >>= _)
    = _
  rw [hparse]
  rfl

end Trees

/-! ### What is accepted -/

theorem Derives.values_ne_nil {phrase : Phrase} {tokens : List Token} (h : Derives phrase tokens)
    (hphrase : phrase ≠ .statements) : tokens ≠ [] := by
  cases h with
  | done => exact absurd rfl hphrase
  | one h =>
    cases h <;> exact List.cons_ne_nil _ _
  | more h _ =>
    exact List.append_ne_nil_of_right_ne_nil _ (List.cons_ne_nil _ _)
  | _ => exact List.cons_ne_nil _ _

section Accepted

theorem readString_quotes {t s rest : Text} (h : readString t = .ok (s, rest)) :
    ∃ quoted, t = quoted ++ '"' :: rest ∧ Quotes s quoted := by
  induction t using readString.induct generalizing s rest with
  | case1 => cases h
  | case2 => cases h
  | case3 c t ih =>
    rw [readString] at h
    obtain ⟨⟨s, rest⟩, hread, h⟩ := bind_eq_ok.1 h
    cases h
    obtain ⟨quoted, rfl, hquotes⟩ := ih hread
    exact ⟨_, rfl, .escaped hquotes⟩
  | case4 t =>
    cases h
    exact ⟨[], rfl, .nil⟩
  | case5 c t h1 h2 h3 ih =>
    rw [readString.eq_5 _ _ h1 h2 h3] at h
    obtain ⟨⟨s, rest⟩, hread, h⟩ := bind_eq_ok.1 h
    cases h
    obtain ⟨quoted, rfl, hquotes⟩ := ih hread
    refine ⟨_, rfl, .plain h3 ?_ hquotes⟩
    rintro rfl
    rcases hcons : quoted ++ '"' :: rest with - | ⟨d, t⟩
    · exact h1 rfl hcons
    · exact h2 d t rfl hcons

theorem of_intToken {py : Interpreter} {raw : Text} {token : Token}
    (h : py.intToken raw = .ok token) :
    ∃ n, raw ≠ ['-'] ∧ py.parseInt raw = some n ∧ token = .int n := by
  rw [Interpreter.intToken] at h
  by_cases hne : raw = [] ∨ raw = ['-']
  · rw [if_pos hne] at h
    cases h
  · rw [if_neg hne] at h
    rw [not_or] at hne
    cases hparse : py.parseInt raw with
    | none =>
      rw [hparse] at h
      cases h
    | some n =>
      rw [hparse] at h
      cases h
      exact ⟨n, hne.2, rfl, rfl⟩

theorem not_isDigit_of_ne {py : Interpreter} (hpy : py.Numbers) {c : Char}
    (hident : isIdentChar c = true) (h : ¬ py.isDigit c = true) : c.isDigit = false := by
  rw [hpy.ascii c (toNat_lt_of_isIdentChar hident)] at h
  exact Bool.not_eq_true _ ▸ h

variable {py : Interpreter} (hpy : py.Numbers)
include hpy

/-- A token stands at the beginning of the text; an identifier is one for the format. -/
theorem nextToken_lexeme {c : Char} {t rest : Text} {token : Token}
    (h : py.nextToken c t = .ok (token, rest)) :
    ∃ s, t = s ++ rest ∧ Lexeme py token (c :: s) ∧ Readable py [token] := by
  have hreadable : ∀ {token : Token}, (∀ name, token = .ident name → IsPlainKey name) →
      (∀ n, token = .int n → py.printable n = true) → Readable py [token] :=
    fun hplain hints => ⟨fun name hname => hplain name (List.mem_singleton.mp hname).symm,
      fun n hn => hints n (List.mem_singleton.mp hn).symm⟩
  rw [Interpreter.nextToken] at h
  split at h
  case h_1 token' hpunctuation =>
    cases h
    refine ⟨[], rfl, .punctuation hpunctuation, hreadable ?_ ?_⟩
    · rintro name rfl
      rw [punctuation.eq_def] at hpunctuation
      split at hpunctuation <;> cases hpunctuation
    · rintro n rfl
      rw [punctuation.eq_def] at hpunctuation
      split at hpunctuation <;> cases hpunctuation
  case h_2 =>
    split_ifs at h with hquote hdigit hident
    · obtain ⟨⟨s, rest⟩, hread, h⟩ := bind_eq_ok.1 h
      cases h
      obtain ⟨quoted, rfl, hquotes⟩ := readString_quotes hread
      refine ⟨quoted ++ ['"'], by rw [List.append_assoc]; rfl, ?_,
        hreadable (fun _ h => by cases h) fun _ h => by cases h⟩
      rw [hquote]
      exact .string hquotes
    · obtain ⟨token, htoken, h⟩ := bind_eq_ok.1 h
      cases h
      obtain ⟨n, hne, hparse, rfl⟩ := of_intToken htoken
      refine ⟨t.takeWhile py.isDigit, List.takeWhile_append_dropWhile.symm, ?_,
        hreadable (fun _ h => by cases h) fun k hk => ?_⟩
      · have hdigits : ∀ d ∈ t.takeWhile py.isDigit, py.isDigit d = true :=
          fun d hd => List.mem_takeWhile_imp hd
        rcases hdigit with hc | ⟨rfl, -⟩
        · exact .natural (List.cons_ne_nil _ _) (List.forall_mem_cons.mpr ⟨hc, hdigits⟩) hparse
        · refine .negative (fun h => hne ?_) hdigits hparse
          rw [h]
      · cases hk
        exact hpy.printable _ _ hparse
    · cases h
      refine ⟨t.takeWhile isIdentChar, List.takeWhile_append_dropWhile.symm, ?_,
        hreadable (fun name hname => ?_) fun _ h => by cases h⟩
      · exact .ident (List.cons_ne_nil _ _) (List.forall_mem_cons.mpr
          ⟨hident, fun d hd => List.mem_takeWhile_imp hd⟩)
      · cases hname
        rw [not_or, not_and] at hdigit
        refine ⟨List.cons_ne_nil _ _, List.forall_mem_cons.mpr
          ⟨hident, fun d hd => List.mem_takeWhile_imp hd⟩, fun d hd => ?_, fun hd => ?_⟩
        · obtain rfl := Option.some.inj hd
          exact not_isDigit_of_ne hpy hident hdigit.1
        · intro d hd'
          have hminus := hdigit.2 (Option.some.inj hd)
          rw [List.tail_cons] at hd'
          have hdident : isIdentChar d = true := List.mem_takeWhile_imp (List.mem_of_mem_head? hd')
          rcases t with - | ⟨e, t⟩
          · cases hd'
          · rw [List.takeWhile_cons] at hd'
            split_ifs at hd' with he
            · obtain rfl := Option.some.inj hd'
              exact not_isDigit_of_ne hpy hdident hminus
            · cases hd'
    · cases h

variable {tokens : List Token}

omit hpy in
theorem Lexes.eq_nil (h : Lexes py [] tokens) : tokens = [] := by
  generalize htext : ([] : Text) = text at h
  cases h with
  | done => rfl
  | space => cases htext
  | comment => cases htext
  | lastComment => rfl
  | token hlexeme _ =>
    obtain rfl := (List.append_eq_nil_iff.mp htext.symm).1
    cases hlexeme with
    | ident hne | natural hne => exact absurd rfl hne

omit hpy in
/-- A comment goes to the end of the line or to the end of the text. -/
theorem lexes_comment {t : Text} (h : Lexes py (afterLine t) tokens) :
    Lexes py ('#' :: t) tokens := by
  have hsplit : t.takeWhile (fun c => c ≠ '\n') ++ t.dropWhile (fun c => c ≠ '\n') = t :=
    List.takeWhile_append_dropWhile
  have hline : '\n' ∉ t.takeWhile fun c => c ≠ '\n' := fun hmem => by
    have hne := List.mem_takeWhile_imp hmem
    exact of_decide_eq_true hne rfl
  rw [afterLine] at h
  rw [← hsplit]
  rcases hrest : t.dropWhile (fun c => c ≠ '\n') with - | ⟨c, rest⟩
  · rw [hrest] at h
    rw [List.append_nil, h.eq_nil]
    exact .lastComment hline
  · rw [hrest] at h
    have hc := List.head?_dropWhile_not (fun c => decide (c ≠ '\n')) t
    rw [hrest, List.head?_cons] at hc
    obtain rfl : c = '\n' := by simpa using hc
    exact .comment hline h

/-- The tokens stand in the text, with white space and comments between them. -/
theorem tokens_lexes {n : ℕ} {text : Text} (hn : text.length ≤ n)
    (h : py.tokens n text = .ok tokens) : Lexes py text tokens ∧ Readable py tokens := by
  have hnil : Readable py [] := ⟨fun _ h => (by cases h), fun _ h => by cases h⟩
  induction n generalizing text tokens with
  | zero =>
    obtain rfl := List.length_eq_zero_iff.mp (Nat.le_zero.mp hn)
    cases h
    exact ⟨.done, hnil⟩
  | succ n ih =>
    rcases text with - | ⟨c, t⟩
    · cases h
      exact ⟨.done, hnil⟩
    rw [List.length_cons, Nat.succ_le_succ_iff] at hn
    rw [Interpreter.tokens] at h
    split_ifs at h with hspace hcomment
    · obtain ⟨hlexes, hreadable⟩ := ih hn h
      exact ⟨.space hspace hlexes, hreadable⟩
    · obtain ⟨hlexes, hreadable⟩ := ih ((length_afterLine t).trans hn) h
      refine ⟨?_, hreadable⟩
      rw [hcomment]
      exact lexes_comment hlexes
    · obtain ⟨⟨token, rest⟩, hnext, h⟩ := bind_eq_ok.1 h
      obtain ⟨tail, htail, h⟩ := bind_eq_ok.1 h
      cases h
      obtain ⟨s, rfl, hlexeme, htoken⟩ := nextToken_lexeme hpy hnext
      rw [List.length_append] at hn
      obtain ⟨hlexes, hreadable⟩ := ih (by omega) htail
      refine ⟨.token hlexeme hlexes, fun name hname => ?_, fun k hk => ?_⟩
      · rcases List.mem_cons.mp hname with hname | hname
        · exact htoken.plain name (List.mem_singleton.mpr hname)
        · exact hreadable.plain name hname
      · rcases List.mem_cons.mp hk with hk | hk
        · exact htoken.ints k (List.mem_singleton.mpr hk)
        · exact hreadable.ints k hk

omit hpy

theorem derives_cons {item : Element} {token : Token} {items : List Element}
    (hcons : ∀ items, items ≠ [] →
      elementTokens (item :: items) = token :: .comma :: elementTokens items)
    (hitem : Derives .value [token]) (hitems : Derives .values (elementTokens items)) :
    elementTokens (item :: items) = token :: .comma :: elementTokens items ∧
      Derives .values (elementTokens (item :: items)) := by
  have hne : items ≠ [] := by
    rintro rfl
    exact hitems.values_ne_nil (by decide) rfl
  rw [hcons items hne]
  exact ⟨rfl, .more hitem hitems⟩

variable {tokens rest : List Token}

/-- What `_parse_array` returns is what it has read. -/
theorem of_parseElements {items : List Element} (h : parseElements tokens = .ok (items, rest)) :
    tokens = elementTokens items ++ .rbracket :: rest ∧ Derives .values (elementTokens items) := by
  have hint : ∀ (n : ℤ) items, items ≠ [] →
      elementTokens (.int n :: items) = .int n :: .comma :: elementTokens items := by
    rintro n (- | ⟨_, _⟩) hne
    · exact absurd rfl hne
    · rfl
  have hstring : ∀ (s : Text) items, items ≠ [] →
      elementTokens (.string s :: items) = .string s :: .comma :: elementTokens items := by
    rintro s (- | ⟨_, _⟩) hne
    · exact absurd rfl hne
    · rfl
  induction tokens using parseElements.induct generalizing items rest with
  | case2 n rest' =>
    cases h
    exact ⟨rfl, .one (.int n)⟩
  | case3 n rest' ih =>
    obtain ⟨⟨items', rest''⟩, helements, h⟩ := bind_eq_ok.1 h
    cases h
    obtain ⟨rfl, hitems⟩ := ih helements
    obtain ⟨hcons, hderives⟩ := derives_cons (hint n) (.int n) hitems
    exact ⟨by rw [hcons]; rfl, hderives⟩
  | case4 s rest' =>
    cases h
    exact ⟨rfl, .one (.string s)⟩
  | case5 s rest' ih =>
    obtain ⟨⟨items', rest''⟩, helements, h⟩ := bind_eq_ok.1 h
    cases h
    obtain ⟨rfl, hitems⟩ := ih helements
    obtain ⟨hcons, hderives⟩ := derives_cons (hstring s) (.string s) hitems
    exact ⟨by rw [hcons]; rfl, hderives⟩
  | case1 => cases h
  | case6 => cases h
  | case7 => cases h
  | case8 | case9 | case10 =>
    rw [parseElements] at h
    · cases h
    all_goals assumption

variable {value : ConfigValue}

/-- What `_parse_value` returns is what it has read, and no section. -/
theorem of_parseValue (h : parseValue tokens = .ok (value, rest)) :
    ∃ used, tokens = used ++ rest ∧ value.tokens = .equals :: used ∧ Derives .value used ∧
      value.depth = 0 := by
  rw [parseValue.eq_def] at h
  split at h
  · cases h
    exact ⟨_, rfl, rfl, .int _, rfl⟩
  · cases h
    exact ⟨_, rfl, rfl, .string _, rfl⟩
  · cases h
    exact ⟨_, rfl, rfl, .emptyArray, rfl⟩
  · obtain ⟨⟨items, rest'⟩, helements, h⟩ := bind_eq_ok.1 h
    cases h
    obtain ⟨rfl, hitems⟩ := of_parseElements helements
    refine ⟨.lbracket :: (elementTokens items ++ [.rbracket]), ?_, rfl, .array hitems, rfl⟩
    rw [List.cons_append, List.append_assoc]
    rfl
  · cases h
  · cases h

theorem readable_append : Readable py (tokens ++ rest) ↔ Readable py tokens ∧ Readable py rest := by
  refine ⟨fun h => ⟨⟨fun name hname => h.plain name (List.mem_append_left _ hname),
      fun n hn => h.ints n (List.mem_append_left _ hn)⟩,
    fun name hname => h.plain name (List.mem_append_right _ hname),
      fun n hn => h.ints n (List.mem_append_right _ hn)⟩, fun h => ⟨fun name hname => ?_,
    fun n hn => ?_⟩⟩
  · exact (List.mem_append.mp hname).elim (h.1.plain name) (h.2.plain name)
  · exact (List.mem_append.mp hn).elim (h.1.ints n) (h.2.ints n)

theorem readable_cons {token : Token} :
    Readable py (token :: tokens) ↔ Readable py [token] ∧ Readable py tokens := by
  rw [← readable_append]
  rfl

variable {entries : Section}

theorem readable_set {name : Text}
    (hname : Readable py [.ident name]) (hvalue : Readable py value.tokens)
    (h : Readable py (sectionTokens entries)) :
    Readable py (sectionTokens (Dict.set name value entries)) := by
  induction entries with
  | nil =>
    rw [Dict.set, sectionTokens, sectionTokens, List.append_nil, readable_cons]
    exact ⟨hname, hvalue⟩
  | cons entry entries ih =>
    rw [sectionTokens, readable_cons, readable_append] at h
    rw [Dict.set]
    split_ifs
    · rw [sectionTokens, readable_cons, readable_append]
      exact ⟨hname, hvalue, h.2.2⟩
    · rw [sectionTokens, readable_cons, readable_append]
      exact ⟨h.1, h.2.1, ih h.2.2⟩

theorem depthOf_set {room : ℕ} {name : Text}
    (hvalue : value.depth ≤ room) (h : depthOf entries ≤ room) :
    depthOf (Dict.set name value entries) ≤ room := by
  induction entries with
  | nil => exact max_le hvalue (Nat.zero_le _)
  | cons entry entries ih =>
    rw [Dict.set]
    split_ifs
    · exact max_le hvalue (le_trans (Nat.le_max_right _ _) h)
    · exact max_le (le_trans (Nat.le_max_left _ _) h) (ih (le_trans (Nat.le_max_right _ _) h))

/-- What the parser of a section has read. -/
structure Reads (py : Interpreter) (room : ℕ) (known : Section) (tokens : List Token)
    (entries : Section) (rest : List Token) : Prop where
  used : ∃ used, tokens = used ++ rest ∧ Derives .statements used
  readable : Readable py tokens → Readable py (sectionTokens known) →
    Readable py (sectionTokens entries)
  depth : depthOf known ≤ room → depthOf entries ≤ room

theorem reads_nothing {room : ℕ} {known : Section} : Reads py room known tokens known tokens :=
  ⟨⟨[], rfl, .done⟩, fun _ h => h, fun h => h⟩

theorem Reads.assignment {room : ℕ} {known entries : Section} {name : Text}
    {tokens rest rest' : List Token} (hvalue : parseValue tokens = .ok (value, rest'))
    (h : Reads py room (Dict.set name value known) rest' entries rest) :
    Reads py room known (.ident name :: .equals :: tokens) entries rest := by
  obtain ⟨used, rfl, htokens, hderives, hdepth⟩ := of_parseValue hvalue
  obtain ⟨used', rfl, hderives'⟩ := h.used
  refine ⟨⟨.ident name :: .equals :: (used ++ used'), ?_, .assignment hderives hderives'⟩, ?_, ?_⟩
  · simp only [List.cons_append, List.append_assoc]
  · intro hreadable hknown
    obtain ⟨hname, hreadable⟩ := readable_cons.mp hreadable
    obtain ⟨hequals, hreadable⟩ := readable_cons.mp hreadable
    obtain ⟨hused, hrest⟩ := readable_append.mp hreadable
    refine h.readable hrest (readable_set hname ?_ hknown)
    rw [htokens, readable_cons]
    exact ⟨hequals, hused⟩
  · exact fun hknown => h.depth (depthOf_set (hdepth ▸ Nat.zero_le _) hknown)

theorem Reads.nested {room : ℕ} {known body entries : Section} {name : Text}
    {tokens rest rest' : List Token} (hbody : Reads py room [] tokens body (.rbrace :: rest'))
    (h : Reads py (room + 1) (Dict.set name (.body body) known) rest' entries rest) :
    Reads py (room + 1) known (.ident name :: .lbrace :: tokens) entries rest := by
  obtain ⟨used, rfl, hderives⟩ := hbody.used
  obtain ⟨used', rfl, hderives'⟩ := h.used
  refine ⟨⟨.ident name :: .lbrace :: (used ++ .rbrace :: used'), ?_, .nested hderives hderives'⟩,
    ?_, ?_⟩
  · simp only [List.cons_append, List.append_assoc]
  · intro hreadable hknown
    obtain ⟨hname, hreadable⟩ := readable_cons.mp hreadable
    obtain ⟨hlbrace, htokens⟩ := readable_cons.mp hreadable
    have hentries := hbody.readable htokens ⟨fun _ h => (by cases h), fun _ h => by cases h⟩
    obtain ⟨hrbrace, hrest⟩ := readable_cons.mp (readable_append.mp htokens).2
    refine h.readable hrest (readable_set hname ?_ hknown)
    rw [ConfigValue.tokens, readable_cons, readable_append]
    exact ⟨hlbrace, hentries, hrbrace⟩
  · exact fun hknown => h.depth
      (depthOf_set (Nat.succ_le_succ (hbody.depth (Nat.zero_le _))) hknown)

/-- By induction on the bound for the tokens: a statement, and the others behind it. -/
theorem parseStatements_reads {n room : ℕ} {known entries : Section}
    (h : parseStatements n room known tokens = .ok (entries, rest)) :
    Reads py room known tokens entries rest := by
  induction n generalizing room known entries tokens rest with
  | zero =>
    cases h
    exact reads_nothing
  | succ n ih =>
    rw [parseStatements.eq_def] at h
    split at h
    · rename_i hn
      cases hn
    · cases h
      exact reads_nothing
    · cases h
      exact reads_nothing
    · rename_i hn
      cases hn
      obtain ⟨⟨value, rest'⟩, hvalue, h⟩ := bind_eq_ok.1 h
      exact (ih h).assignment hvalue
    · rename_i hn
      cases hn
      split at h
      · cases h
      · obtain ⟨⟨body, rest'⟩, hbody, h⟩ := bind_eq_ok.1 h
        obtain ⟨rest'', hbrace, h⟩ := bind_eq_ok.1 h
        obtain rfl : rest' = .rbrace :: rest'' := by
          rw [expectBrace.eq_def] at hbrace
          split at hbrace <;> cases hbrace
          rfl
        exact (ih hbody).nested (ih h)
    · cases h
    · cases h
    · cases h

/-- **An accepted text is derivable in the grammar, and its tree is one that is read back.** -/
theorem of_parseConfigText (hpy : py.Numbers) {text : Text}
    (h : py.parseConfigText text = .ok entries) :
    Grammatical py text ∧ ReadsBack py entries := by
  obtain ⟨tokens, htokens, h⟩ := bind_eq_ok.1 h
  obtain ⟨⟨entries', rest⟩, hparse, h⟩ := bind_eq_ok.1 h
  obtain ⟨hlexes, hreadable⟩ := tokens_lexes hpy (Nat.le_refl _) htokens
  have hreads : Reads py py.nesting [] tokens entries' rest := parseStatements_reads hparse
  rcases rest with - | ⟨token, rest⟩
  · cases h
    obtain ⟨used, hused, hderives⟩ := hreads.used
    rw [List.append_nil] at hused
    have hentries := hreads.readable hreadable ⟨fun _ h => (by cases h), fun _ h => by cases h⟩
    exact ⟨⟨tokens, hlexes, hused ▸ hderives⟩, (keysOf_iff _ _).mpr hentries.plain, hentries.ints,
      hreads.depth (Nat.zero_le _)⟩
  · cases h

end Accepted

/-! ### The interpreter on ASCII text -/

section Ascii

theorem natOf_toDigits (n : ℕ) : natOf (Nat.toDigits 10 n) = some n := by
  have hdigits : (Nat.toDigits 10 n).all Char.isDigit = true := List.all_eq_true.mpr
    fun c hc => Nat.isDigit_of_mem_toDigits (by decide) (by decide) hc
  rw [natOf, if_pos ⟨Nat.toDigits_ne_nil, hdigits⟩, ← Nat.ofDigitChars_eq_foldl,
    Nat.ofDigitChars_ten_toDigits]

theorem ofDigitChars_lt {s : List Char} (hs : ∀ c ∈ s, c.isDigit = true) (n : ℕ) :
    Nat.ofDigitChars 10 s n < 10 ^ s.length * (n + 1) := by
  induction s generalizing n with
  | nil =>
    rw [Nat.ofDigitChars_nil, List.length_nil, pow_zero, one_mul]
    exact Nat.lt_succ_self n
  | cons c s ih =>
    obtain ⟨hc, hs⟩ := List.forall_mem_cons.mp hs
    have hdigit : c.toNat - '0'.toNat < 10 := by
      have hall := @ascii_forall c (fun c => !c.isDigit || decide (c.toNat - '0'.toNat < 10))
        (by decide +kernel) (toNat_lt_of_isDigit hc)
      simpa [hc] using hall
    rw [Nat.ofDigitChars_cons, List.length_cons]
    calc Nat.ofDigitChars 10 s (10 * n + (c.toNat - '0'.toNat))
        < 10 ^ s.length * (10 * n + (c.toNat - '0'.toNat) + 1) := ih hs _
      _ ≤ 10 ^ s.length * (10 * (n + 1)) := Nat.mul_le_mul_left _ (by omega)
      _ = 10 ^ (s.length + 1) * (n + 1) := by rw [pow_succ, mul_assoc]

theorem natOf_lt {s : Text} {n : ℕ} (h : natOf s = some n) :
    s.filter Char.isDigit = s ∧ n < 10 ^ s.length := by
  rw [natOf] at h
  split_ifs at h with hs
  have hdigits := List.all_eq_true.mp hs.2
  refine ⟨List.filter_eq_self.mpr hdigits, ?_⟩
  rw [← Nat.ofDigitChars_eq_foldl] at h
  have hlt := ofDigitChars_lt hdigits 0
  rw [Option.some.inj h, Nat.zero_add, mul_one] at hlt
  exact hlt

theorem filter_intStr (n : ℤ) : (intStr n).filter Char.isDigit = Nat.toDigits 10 n.natAbs := by
  have hdigits : (Nat.toDigits 10 n.natAbs).filter Char.isDigit = Nat.toDigits 10 n.natAbs :=
    List.filter_eq_self.mpr fun c hc => Nat.isDigit_of_mem_toDigits (by decide) (by decide) hc
  rw [intStr]
  split_ifs
  · rw [List.filter_cons_of_neg (by decide), hdigits]
  · exact hdigits

theorem asciiInt_minus (s : Text) : asciiInt ('-' :: s) = (natOf s).map fun n : ℕ => -(n : ℤ) := by
  rw [asciiInt]
  cases natOf s <;> rfl

theorem asciiInt_of_ne {c : Char} {s : Text} (hc : c ≠ '-') :
    asciiInt (c :: s) = (natOf (c :: s)).map fun n : ℕ => (n : ℤ) := by
  have hne : ∀ s', c :: s = '-' :: s' → False := fun s' h => hc (List.cons_eq_cons.mp h).1
  rw [asciiInt]
  · cases natOf (c :: s) <;> rfl
  · exact hne

theorem asciiInt_intStr (n : ℤ) : asciiInt (intStr n) = some n := by
  obtain ⟨c, s, hcons⟩ := List.exists_cons_of_ne_nil (Nat.toDigits_ne_nil (n := n.natAbs) (b := 10))
  have hnat := natOf_toDigits n.natAbs
  rw [intStr]
  split_ifs with hneg
  · rw [asciiInt_minus, hnat, Option.map_some]
    exact congrArg some (by omega)
  · have hc : c ≠ '-' := by
      rintro rfl
      have hdigit := Nat.isDigit_of_mem_toDigits (b := 10) (n := n.natAbs) (c := '-') (by decide)
        (by decide) (hcons ▸ List.mem_cons_self)
      exact absurd hdigit (by decide)
    rw [hcons] at hnat ⊢
    rw [asciiInt_of_ne hc, hnat, Option.map_some]
    exact congrArg some (by omega)

theorem asciiInt_natAbs {s : Text} {n : ℤ} (h : asciiInt s = some n) :
    n.natAbs < 10 ^ (s.filter Char.isDigit).length := by
  have hnat : ∀ {s : Text} {f : ℕ → ℤ}, (∀ k, (f k).natAbs = k) → (natOf s).map f = some n →
      n.natAbs < 10 ^ (s.filter Char.isDigit).length := by
    intro s f hf h
    obtain ⟨k, hk, rfl⟩ := Option.map_eq_some_iff.mp h
    obtain ⟨hfilter, hlt⟩ := natOf_lt hk
    rw [hfilter, hf]
    exact hlt
  rcases s with - | ⟨c, s⟩
  · cases h
  by_cases hc : c = '-'
  · rw [hc, asciiInt_minus] at h
    rw [hc, List.filter_cons_of_neg (by decide)]
    exact hnat (fun k => by rw [Int.natAbs_neg, Int.natAbs_natCast]) h
  · rw [asciiInt_of_ne hc] at h
    exact hnat Int.natAbs_natCast h

theorem asciiInterpreter_printable (n : ℤ) :
    asciiInterpreter.printable n = true ↔ n.natAbs < 10 ^ 4300 := by
  rw [asciiInterpreter, decide_eq_true_iff]

theorem asciiInterpreter_numbers : asciiInterpreter.Numbers where
  ascii _ _ := rfl
  space c hc := by
    by_contra hdigit
    have hspace := (digit_other (Bool.not_eq_false _ ▸ hdigit)).2.2.1
    rw [hc] at hspace
    cases hspace
  parseInt n hn := by
    have hlength : ((intStr n).filter Char.isDigit).length ≤ 4300 := by
      rw [filter_intStr, Nat.length_toDigits_le_iff (by decide) (by decide)]
      exact (asciiInterpreter_printable n).mp hn
    show (if _ then _ else _) = _
    rw [if_pos hlength, asciiInt_intStr]
  printable s n h := by
    have hif : (if (s.filter Char.isDigit).length ≤ 4300 then asciiInt s else none) = some n := h
    split_ifs at hif with hlength
    refine (asciiInterpreter_printable n).mpr ?_
    exact lt_of_lt_of_le (asciiInt_natAbs hif) (Nat.pow_le_pow_right (by decide) hlength)

end Ascii

/-! ### The round trip -/

/-- **A tree is read back, and only texts of the grammar are accepted, if and only if the
tokenizer takes every key of the tree for an identifier and the integers and the nesting are
within the limits of the interpreter.** -/
theorem roundTrips_iff (py : Interpreter) (hpy : py.Numbers) (entries : Section)
    (hprintable : Printable entries) :
    (RoundTrips py entries ∧
        ∀ text parsed, py.parseConfigText text = .ok parsed → Grammatical py text) ↔
      ReadsBack py entries := by
  refine ⟨fun h => ?_, fun h => ⟨h.roundTrips hpy hprintable.distinct, fun text parsed hparse =>
    (of_parseConfigText hpy hparse).1⟩⟩
  -- Some text prints the tree; what is parsed from it is read back.
  obtain ⟨text, htext⟩ := exists_renders (sectionTokens entries)
  exact (of_parseConfigText hpy (h.1 text htext)).2

/-- A group with a string and a negative number. -/
def plainTree : Section :=
  [("vg0".toList, .body
    [("id".toList, .string "a\"b\\".toList), ("list".toList, .array [.int (-1), .string []])])]

/-- A group whose name has a plus sign. -/
def plusTree : Section := [("vg+0".toList, .int 1)]

theorem isPlainKey_ident {c : Char} {s name : Text} (hname : name = c :: s)
    (hc : c.isDigit = false ∧ c ≠ '-') (hs : (c :: s).all isIdentChar = true) :
    IsPlainKey name := by
  subst hname
  exact
    { nonempty := List.cons_ne_nil _ _
      chars := List.all_eq_true.mp hs
      head := fun d hd => Option.some.inj hd ▸ hc.1
      minus := fun h => absurd (Option.some.inj h) hc.2 }

theorem plainTree_readsBack : ReadsBack asciiInterpreter plainTree where
  plain := by
    refine ⟨isPlainKey_ident (c := 'v') (s := ['g', '0']) rfl (by decide) rfl,
      ⟨isPlainKey_ident (c := 'i') (s := ['d']) rfl (by decide) rfl, trivial,
        isPlainKey_ident (c := 'l') (s := ['i', 's', 't']) rfl (by decide) rfl, trivial, trivial⟩,
      trivial⟩
  ints n hn := by
    obtain rfl : n = -1 := by simpa [plainTree, sectionTokens, ConfigValue.tokens, elementTokens]
      using hn
    exact (asciiInterpreter_printable (-1)).mpr (Nat.one_lt_pow (by decide) (by decide))
  depth := by decide

/-- The group is read back. -/
theorem plainTree_roundTrips : RoundTrips asciiInterpreter plainTree ∧ ∀ text parsed,
      asciiInterpreter.parseConfigText text = .ok parsed → Grammatical asciiInterpreter text :=
  (roundTrips_iff asciiInterpreter asciiInterpreter_numbers plainTree
    ⟨by simp [plainTree, DistinctKeys, ConfigValue.Distinct],
      by simp [plainTree, KeysOf, ConfigValue.Keys, isNameChar]⟩).mpr plainTree_readsBack

/-- The plus sign of an LVM name is no character of the tokenizer. -/
theorem plusTree_not_readsBack : Printable plusTree ∧ ¬ RoundTrips asciiInterpreter plusTree := by
  refine ⟨⟨by simp [plusTree, DistinctKeys, ConfigValue.Distinct],
    by simp [plusTree, KeysOf, ConfigValue.Keys, isNameChar]⟩, fun h => ?_⟩
  obtain ⟨text, htext⟩ := exists_renders (sectionTokens plusTree)
  have hplain := (of_parseConfigText asciiInterpreter_numbers (h text htext)).2.plain.1
  exact absurd (hplain.chars '+' (by decide)) (by decide)

end Kairon.Lvm

/-
Kairon/Sigma/Expansion.lean

What becomes of `1 of ...` and `all of ...` in a condition.

A condition is a tree of connectives over names and quantified selectors (`Leaf`).  `Laid`
relates its tokens to the texts that spell them: any spaces between them, and none where a
parenthesis or the end tells them apart, except that a quantifier has a space or nothing
before it.  On such a text `expandOnce` replaces exactly the quantifiers (`expandOnce_laid`),
the tokenizer finds the tokens (`conditionTokens_laid`), and the tree they come from is the
condition with a name or a group of names in place of each quantifier (`atom`).

So the meaning is kept (`expansion_keeps_meaning`), over the selections that a selector
stands for: those that match its pattern, and for `them` those that do not begin with
`filter`.  A selector without selections, or with too many, is refused.
-/
import Kairon.Lib.Ascii
import Kairon.Lib.Url
import Kairon.Sigma.Precedence

namespace Kairon.Sigma

open Search (Text isSpace strip)
open Rpn Ascii

/-! ### Conditions with quantifiers -/

/-- What stands between the connectives: the name of a selection, or a quantified selector;
`one` tells `1 of` from `all of`. -/
inductive Leaf
  | plain (name : Text)
  | quantified (one : Bool) (selector : Text)

/-- `[A-Za-z0-9_]`. -/
def isPlainChar (c : Char) : Bool := c.isAlphanum || c = '_'

/-- The word of a connective. -/
def opWord : Op → Text
  | .or => "or".toList
  | .and => "and".toList
  | .not => "not".toList

/-- A name of letters, digits and underscores that is no connective. -/
structure IsName (name : Text) : Prop where
  nonempty : name ≠ []
  plain : ∀ c ∈ name, isPlainChar c = true
  noOperator : ∀ o, name.map Char.toLower ≠ opWord o

/-- A selector: `them`, or a name with stars behind its first character. -/
structure IsSelector (selector : Text) : Prop where
  nonempty : selector ≠ []
  chars : ∀ c ∈ selector, isPlainChar c = true ∨ c = '*'
  head : selector.head? ≠ some '*'

def Leaf.Valid : Leaf → Prop
  | .plain name => IsName name
  | .quantified _ selector => IsSelector selector

/-- One or more spaces. -/
def IsGap (gap : Text) : Prop := gap ≠ [] ∧ ∀ c ∈ gap, isSpace c = true

/-- The text spells the token. -/
def Spells : Tok Leaf → Text → Prop
  | .lparen, s => s = ['(']
  | .rparen, s => s = [')']
  | .op o, s => s.map Char.toLower = opWord o
  | .name (.plain name), s => s = name
  | .name (.quantified one selector), s =>
    ∃ quantifier gap word gap', quantifier.map Char.toLower = (if one then ['1'] else "all".toList) ∧
      IsGap gap ∧ word.map Char.toLower = "of".toList ∧ IsGap gap' ∧
      s = quantifier ++ gap ++ word ++ gap' ++ selector

/-- What stands just before a place in a condition. -/
inductive Before
  /-- Nothing or a space. -/
  | free
  | paren
  | word
  | selector
  deriving DecidableEq

/-- Tokens that may follow without a space. -/
def Before.allows : Before → Tok Leaf → Bool
  | .free, _ => true
  | .paren, .name (.quantified _ _) => false
  | .paren, _ => true
  | .word, .lparen => true
  | .word, .rparen => true
  | .word, _ => false
  | .selector, .rparen => true
  | .selector, _ => false

def afterToken : Tok Leaf → Before
  | .lparen => .paren
  | .rparen => .paren
  | .op _ => .word
  | .name (.plain _) => .word
  | .name (.quantified _ _) => .selector

/-- The text spells the tokens. -/
inductive Laid : Before → List (Tok Leaf) → Text → Prop
  | nil (before : Before) : Laid before [] []
  | space {before : Before} {tokens : List (Tok Leaf)} {c : Char} {t : Text} :
      isSpace c = true → Laid .free tokens t → Laid before tokens (c :: t)
  | token {before : Before} {token : Tok Leaf} {tokens : List (Tok Leaf)} {s t : Text} :
      before.allows token = true → Spells token s → Laid (afterToken token) tokens t →
      Laid before (token :: tokens) (s ++ t)

/-- No name is followed by a name, and all of them are valid. -/
inductive WellFormed : List (Tok Leaf) → Prop
  | nil : WellFormed []
  | name {leaf : Leaf} {tokens : List (Tok Leaf)} : leaf.Valid →
      (∀ leaf', tokens.head? ≠ some (.name leaf')) → WellFormed tokens →
      WellFormed (.name leaf :: tokens)
  | other {token : Tok Leaf} {tokens : List (Tok Leaf)} : (∀ leaf, token ≠ .name leaf) →
      WellFormed tokens → WellFormed (token :: tokens)

section

variable {F O : Type} (lib : Library F O)

/-- What the library does with ASCII characters, and with spaces. -/
structure Library.Letters : Prop extends lib.AsciiLetters where
  space_isAlnum : ∀ c, isSpace c = true → lib.isAlnum c = false
  space_sameLetter : ∀ a c, isSpace c = true → a.isAlphanum = true → lib.sameLetter a c = false

/-! ### The meaning -/

/-- The leaf holds: one of the selections its selector ranges over, or all of them. -/
def leafValue (range : Text → List Text) (holds : Text → Bool) : Leaf → Bool
  | .plain name => holds name
  | .quantified one selector =>
    if one then (range selector).any holds else (range selector).all holds

/-- The condition of the rule is expanded, and the stack machine then computes the value of
`c`, whose quantifiers range over `range`. -/
def Library.KeepsMeaning (rule : Rule O) (range : Text → List Text) (c : Cond Leaf .sum) : Prop :=
  ∃ expanded rpn, lib.expandConditionTerms rule = (expanded, none) ∧
    lib.conditionRpn expanded = some rpn ∧ ∀ verdict : Text → Verdict,
      (eval verdictAlgebra SigmaError.indexError .valueError (fun name => .ok (verdict name)) rpn).map
          Verdict.matched =
        .ok (c.value boolAlgebra (leafValue range fun name => (verdict name).matched))

/-- The selectors of the quantifiers, from left to right. -/
def selectors : List (Tok Leaf) → List Text
  | [] => []
  | .name (.quantified _ selector) :: tokens => selector :: selectors tokens
  | _ :: tokens => selectors tokens

/-- Every selector stands for at least one and at most a hundred selections, all of them
together for at most two hundred. -/
structure Library.Within (rule : Rule O) (tokens : List (Tok Leaf)) : Prop where
  some : ∀ selector ∈ selectors tokens, lib.selectorNames rule selector ≠ []
  each : ∀ selector ∈ selectors tokens, (lib.selectorNames rule selector).length ≤ 100
  all : ((selectors tokens).map fun selector => (lib.selectorNames rule selector).length).sum ≤ 200

/-- A selection the selector stands for. -/
def Library.StandsFor (rule : Rule O) (selector name : Text) : Prop :=
  name ∈ lib.blockNames rule ∧ if selector = "them".toList then ¬ "filter".toList <+: lib.lower name
    else Glob.Matches (fun a c => a = c)
      (selector.map fun c => if c = '*' then .star else .lit c) name

end

/-! ### Characters -/

section Chars

variable {c : Char}

theorem toNat_lt_of_isPlainChar (h : isPlainChar c = true) : c.toNat < 128 := by
  rcases Bool.or_eq_true_iff.mp h with h | h
  · exact toNat_lt_of_isAlphanum h
  · rw [of_decide_eq_true h]
    decide

theorem isSpace_of_isPlainChar (h : isPlainChar c = true) : isSpace c = false := by
  have hall := @ascii_forall c (fun c => !isPlainChar c || !isSpace c) (by decide +kernel)
    (toNat_lt_of_isPlainChar h)
  simpa [h] using hall

variable {F O : Type} {lib : Library F O} (hlib : lib.Letters)
include hlib

theorem isWord_of_isPlainChar (h : isPlainChar c = true) : lib.isWord c = true := by
  rw [Library.isWord, hlib.isAlnum c (toNat_lt_of_isPlainChar h)]
  exact h

theorem isWord_of_isSpace (h : isSpace c = true) : lib.isWord c = false := by
  rw [Library.isWord, hlib.space_isAlnum c h, Bool.false_or, decide_eq_false_iff_not]
  rintro rfl
  exact absurd h (by decide)

theorem isNameChar_ascii (hc : c.toNat < 128) : lib.isNameChar c = (isPlainChar c || c = '*') := by
  have hany : ("abcdefghijklmnopqrstuvwxyz".toList.any fun a => lib.sameLetter a c) =
      "abcdefghijklmnopqrstuvwxyz".toList.any fun a => a.toLower = c.toLower := by
    rw [Bool.eq_iff_iff, List.any_eq_true, List.any_eq_true]
    refine exists_congr fun a => and_congr_right fun ha => ?_
    rw [hlib.sameLetter a c ?_ hc]
    exact of_decide_eq_true (List.all_eq_true.mp (by decide :
      ("abcdefghijklmnopqrstuvwxyz".toList.all fun a => a.toNat < 128) = true) a ha)
  rw [Library.isNameChar, hany]
  have hall := @ascii_forall c (fun c => (c = '_' || c = '*' || ('0' ≤ c && c ≤ '9') ||
    "abcdefghijklmnopqrstuvwxyz".toList.any fun a => a.toLower = c.toLower) ==
      (isPlainChar c || c = '*')) (by decide +kernel) hc
  exact beq_iff_eq.mp hall

theorem isNameChar_of_isSpace (h : isSpace c = true) : lib.isNameChar c = false := by
  have hletters : (("abcdefghijklmnopqrstuvwxyz".toList.any fun a => lib.sameLetter a c)) = false :=
    List.any_eq_false.mpr fun a ha => by
      rw [hlib.space_sameLetter a c h (List.all_eq_true.mp (by decide :
        ("abcdefghijklmnopqrstuvwxyz".toList.all fun a => a.isAlphanum) = true) a ha)]
      exact Bool.false_ne_true
  have hrest : (c = '_' || c = '*' || ('0' ≤ c && c ≤ '9')) = false := by
    by_contra hne
    have hc : c.toNat < 128 := by
      simp only [Bool.not_eq_false, Bool.or_eq_true, Bool.and_eq_true, decide_eq_true_eq] at hne
      rcases hne with (rfl | rfl) | ⟨-, h9⟩
      · decide
      · decide
      · have : c.toNat ≤ '9'.toNat := h9
        exact lt_of_le_of_lt this (by decide)
    have hall := @ascii_forall c (fun c => !isSpace c ||
      !(c = '_' || c = '*' || ('0' ≤ c && c ≤ '9'))) (by decide +kernel) hc
    rw [h, Bool.not_true, Bool.false_or, Bool.not_eq_true'] at hall
    exact hne hall
  rw [Library.isNameChar, hletters, Bool.or_false]
  exact hrest

/-- A letter of a word of the language is met by that letter, in either case, only. -/
theorem sameLetter_iff {a : Char} (ha : a.isAlphanum = true)
    (hc : isPlainChar c = true ∨ isSpace c = true ∨ c = '(' ∨ c = ')') :
    lib.sameLetter a c = true ↔ a.toLower = c.toLower := by
  have hascii : c.toNat < 128 → (lib.sameLetter a c = true ↔ a.toLower = c.toLower) := by
    intro hc
    rw [hlib.sameLetter a c (toNat_lt_of_isAlphanum ha) hc, decide_eq_true_iff]
  rcases hc with hc | hc | rfl | rfl
  · exact hascii (toNat_lt_of_isPlainChar hc)
  · rw [hlib.space_sameLetter a c hc ha]
    refine ⟨fun h => absurd h Bool.false_ne_true, fun h => ?_⟩
    have hspace := isSpace_of_isPlainChar
      (Bool.or_eq_true_iff.mpr (.inl (Url.isAlphanum_of_toLower h ha)))
    exact absurd (hc.symm.trans hspace) (by decide)
  · exact hascii (by decide)
  · exact hascii (by decide)

end Chars

/-! ### Words -/

section Words

variable {F O : Type} {lib : Library F O} (hlib : lib.Letters)
include hlib

/-- What stands behind a word: nothing, a space or a parenthesis. -/
def Bounded (t : Text) : Prop := ∀ c ∈ t.head?, isSpace c = true ∨ c = '(' ∨ c = ')'

theorem afterWord_append {word s : Text} (t : Text) (hword : ∀ a ∈ word, a.isAlphanum = true)
    (h : s.map Char.toLower = word) : lib.afterWord word (s ++ t) = some t := by
  induction s generalizing word with
  | nil =>
    subst h
    rfl
  | cons c s ih =>
    subst h
    obtain ⟨hc, hrest⟩ := List.forall_mem_cons.mp hword
    have hc' : c.isAlphanum = true := Url.isAlphanum_of_toLower (by simp) hc
    have hsame : lib.sameLetter c.toLower c = true :=
      (sameLetter_iff hlib hc (.inl (Bool.or_eq_true_iff.mpr (.inl hc')))).mpr (by simp)
    rw [List.map_cons, List.cons_append, Library.afterWord, if_pos hsame]
    exact ih hrest rfl

/-- A word found at the beginning of a plain text is a beginning of it. -/
theorem afterWord_plain {word s t rest : Text} (hword : ∀ a ∈ word, a.isAlphanum = true)
    (hs : ∀ c ∈ s, isPlainChar c = true) (ht : Bounded t)
    (h : lib.afterWord word (s ++ t) = some rest) :
    ∃ w s', s = w ++ s' ∧ rest = s' ++ t ∧ w.map Char.toLower = word.map Char.toLower := by
  induction word generalizing s with
  | nil =>
    rw [Library.afterWord] at h
    exact ⟨[], s, rfl, (Option.some.inj h).symm, rfl⟩
  | cons a word ih =>
    obtain ⟨ha, hword⟩ := List.forall_mem_cons.mp hword
    rcases s with - | ⟨c, s⟩
    · rcases t with - | ⟨c, t⟩
      · cases h
      · -- what bounds the text is no letter
        rw [List.nil_append, Library.afterWord] at h
        split_ifs at h with hac
        have hc := ht c rfl
        have hlow := (sameLetter_iff hlib ha (.inr hc)).mp hac
        have halnum := Url.isAlphanum_of_toLower hlow ha
        rcases hc with hc | rfl | rfl
        · have hspace := isSpace_of_isPlainChar (Bool.or_eq_true_iff.mpr (.inl halnum))
          exact absurd (hc.symm.trans hspace) (by decide)
        · exact absurd halnum (by decide)
        · exact absurd halnum (by decide)
    · obtain ⟨hc, hs⟩ := List.forall_mem_cons.mp hs
      rw [List.cons_append, Library.afterWord] at h
      split_ifs at h with hac
      obtain ⟨w, s', rfl, rfl, hw⟩ := ih hword hs h
      have hlow := (sameLetter_iff hlib ha (.inl hc)).mp hac
      exact ⟨c :: w, s', rfl, rfl, by rw [List.map_cons, List.map_cons, hw, hlow]⟩

end Words

/-! ### Laid out texts -/

section Laid

variable {before : Before} {token : Tok Leaf} {tokens : List (Tok Leaf)} {s t : Text}

theorem opWord_isAlphanum (o : Op) : ∀ a ∈ opWord o, a.isAlphanum = true := by
  rcases o with - | - | - <;> exact List.all_eq_true.mp (by decide)

/-- A text that is a word in some case is plain. -/
theorem isPlainChar_of_lower {word : Text} (hword : ∀ a ∈ word, a.isAlphanum = true)
    (h : s.map Char.toLower = word) : ∀ c ∈ s, isPlainChar c = true := by
  intro c hc
  have hlow := hword c.toLower (h ▸ List.mem_map_of_mem hc)
  exact Bool.or_eq_true_iff.mpr (.inl (Url.isAlphanum_of_toLower (by simp) hlow))

/-- A token is valid if the leaf it is, if any, is. -/
def ValidToken (token : Tok Leaf) : Prop := ∀ leaf, token = .name leaf → leaf.Valid

theorem WellFormed.head (h : WellFormed (token :: tokens)) : ValidToken token := by
  rintro leaf rfl
  cases h with
  | name hvalid _ _ => exact hvalid
  | other hno _ => exact absurd rfl (hno leaf)

theorem WellFormed.tail (h : WellFormed (token :: tokens)) : WellFormed tokens := by
  cases h with
  | name _ _ htail => exact htail
  | other _ htail => exact htail

/-- A token begins with something. -/
theorem Spells.head (hvalid : ValidToken token) (h : Spells token s) :
    ∃ c s', s = c :: s' ∧ isSpace c = false := by
  have hplain : s ≠ [] → (∀ c ∈ s, isPlainChar c = true) →
      ∃ c s', s = c :: s' ∧ isSpace c = false := by
    intro hne hplain
    obtain ⟨c, s', rfl⟩ := List.exists_cons_of_ne_nil hne
    exact ⟨c, s', rfl, isSpace_of_isPlainChar (hplain c (.head _))⟩
  rcases token with - | - | o | ⟨name | ⟨one, selector⟩⟩
  · obtain rfl : s = ['('] := h
    exact ⟨'(', [], rfl, by decide⟩
  · obtain rfl : s = [')'] := h
    exact ⟨')', [], rfl, by decide⟩
  · have h : s.map Char.toLower = opWord o := h
    refine hplain ?_ (isPlainChar_of_lower (opWord_isAlphanum o) h)
    rintro rfl
    rcases o with - | - | - <;> cases h
  · obtain rfl : s = name := h
    have hname : IsName s := hvalid _ rfl
    exact hplain hname.nonempty hname.plain
  · obtain ⟨quantifier, gap, word, gap', hquantifier, -, -, -, rfl⟩ := h
    have hne : quantifier ≠ [] := by
      rintro rfl
      rcases one with - | - <;> cases hquantifier
    obtain ⟨c, q, rfl⟩ := List.exists_cons_of_ne_nil hne
    refine ⟨c, _, rfl, isSpace_of_isPlainChar ?_⟩
    refine isPlainChar_of_lower ?_ hquantifier c (.head _)
    rcases one with - | - <;> exact List.all_eq_true.mp (by decide)

/-- Behind a word or a selector stands what bounds it. -/
theorem Laid.bounded (h : Laid before tokens t) (hbefore : before = .word ∨ before = .selector) :
    Bounded t := by
  intro c hc
  cases h with
  | nil => cases hc
  | space hspace _ =>
    obtain rfl := Option.some.inj hc
    exact .inl hspace
  | @token _ token _ s t hallows hspells _ =>
    rcases token with - | - | o | ⟨name | ⟨one, selector⟩⟩
    · obtain rfl : s = ['('] := hspells
      exact .inr (.inl (Option.some.inj hc).symm)
    · obtain rfl : s = [')'] := hspells
      exact .inr (.inr (Option.some.inj hc).symm)
    all_goals rcases hbefore with rfl | rfl <;> cases hallows

/-- Behind a selector stands no open parenthesis. -/
theorem Laid.not_lparen (h : Laid .selector tokens t) : t.head? ≠ some '(' := by
  intro hc
  cases h with
  | nil => cases hc
  | space hspace _ =>
    obtain rfl := Option.some.inj hc
    exact absurd hspace (by decide)
  | @token _ token _ s t hallows hspells _ =>
    rcases token with - | - | o | ⟨name | ⟨one, selector⟩⟩
    · cases hallows
    · obtain rfl : s = [')'] := hspells
      cases hc
    all_goals cases hallows

/-- What may stand behind a selector may stand anywhere. -/
theorem Laid.weaken (h : Laid .selector tokens t) (before : Before) : Laid before tokens t := by
  cases h with
  | nil => exact .nil before
  | space hspace h => exact .space hspace h
  | @token _ token _ s t hallows hspells h =>
    refine .token ?_ hspells h
    rcases token with - | - | o | ⟨name | ⟨one, selector⟩⟩
    · cases hallows
    · rcases before with - | - | - | - <;> rfl
    all_goals cases hallows

/-- Spaces do not matter. -/
theorem Laid.dropSpaces (hvalid : ∀ token ∈ tokens.head?, ValidToken token)
    (h : Laid before tokens t) : Laid .free tokens (t.dropWhile isSpace) := by
  induction h with
  | nil => exact .nil .free
  | space hspace _ ih =>
    rw [List.dropWhile_cons_of_pos hspace]
    exact ih hvalid
  | @token before token tokens s t hallows hspells h ih =>
    obtain ⟨c, s', rfl, hc⟩ := hspells.head (hvalid token rfl)
    rw [List.cons_append, List.dropWhile_cons_of_neg (by rw [hc]; exact Bool.false_ne_true)]
    exact .token rfl hspells h

end Laid

/-! ### Where a quantifier begins -/

section Here

variable {F O : Type} {lib : Library F O} {before : Before} {token : Tok Leaf}
  {tokens : List (Tok Leaf)} {s t : Text}

def quantifierWords : List Text := [['1'], "all".toList]

theorem quantifierWords_isAlphanum : ∀ word ∈ quantifierWords, ∀ a ∈ word, a.isAlphanum = true :=
  fun _ hword => List.all_eq_true.mp (List.all_eq_true.mp
    (by decide : (quantifierWords.all fun word => word.all fun a => a.isAlphanum) = true) _ hword)

theorem of_isAlphanum : ∀ a ∈ "of".toList, a.isAlphanum = true := List.all_eq_true.mp (by decide)

/-- A quantifier needs its word, spaces and `of`. -/
theorem expansionHere_eq_none (h : ∀ word ∈ quantifierWords, ∀ rest, lib.afterWord word t = some rest →
    ∀ rest', afterSpaces rest = some rest' → lib.afterWord "of".toList rest' = none) :
    lib.expansionHere t = none := by
  have hword : ∀ word ∈ quantifierWords, ∀ rest, lib.afterWord word t = some rest →
      ((afterSpaces rest).bind fun rest => lib.afterWord "of".toList rest) = none := by
    intro word hword rest hrest
    cases hspaces : afterSpaces rest with
    | none => rfl
    | some rest' => exact h word hword rest hrest rest' hspaces
  have hone := hword ['1'] (by decide)
  have hall := hword "all".toList (by decide)
  have hfinish : ∀ (one : Bool) (rest : Text),
      ((afterSpaces rest).bind fun rest => lib.afterWord "of".toList rest) = none →
      (do
        let rest ← afterSpaces rest
        let rest ← lib.afterWord "of".toList rest
        let rest ← afterSpaces rest
        let selector := rest.takeWhile lib.isNameChar
        let rest := rest.dropWhile lib.isNameChar
        if selector = [] ∨ selector.head? = some '*' then none
        else if rest.head?.all fun c => isSpace c || c = ')' then some (one, selector, rest)
        else none) = none := by
    intro one rest hrest
    cases hspaces : afterSpaces rest with
    | none => rfl
    | some rest' =>
      rw [hspaces, Option.bind_some] at hrest
      simp only [hrest, Option.bind_eq_bind, Option.bind_some, Option.bind_none]
  unfold Library.expansionHere
  cases h1 : lib.afterWord ['1'] t with
  | some rest => exact hfinish true rest (hone rest h1)
  | none =>
    cases h2 : lib.afterWord "all".toList t with
    | some rest => exact hfinish false rest (hall rest h2)
    | none => rfl

/-- No word begins with a parenthesis. -/
theorem afterWord_paren (hlib : lib.Letters) {word : Text} (hne : word ≠ [])
    (hword : ∀ a ∈ word, a.isAlphanum = true) {c : Char} (hc : c = '(' ∨ c = ')') :
    lib.afterWord word (c :: t) = none := by
  obtain ⟨a, word, rfl⟩ := List.exists_cons_of_ne_nil hne
  have ha := hword a (.head _)
  rw [Library.afterWord, if_neg]
  intro hac
  have hlow := (sameLetter_iff hlib ha (.inr (.inr hc))).mp hac
  have halnum := Url.isAlphanum_of_toLower hlow ha
  rcases hc with rfl | rfl <;> exact absurd halnum (by decide)

/-- No word begins with a space. -/
theorem afterWord_space (hlib : lib.Letters) {word : Text} (hne : word ≠ [])
    (hword : ∀ a ∈ word, a.isAlphanum = true) {c : Char} (hc : isSpace c = true) :
    lib.afterWord word (c :: t) = none := by
  obtain ⟨a, word, rfl⟩ := List.exists_cons_of_ne_nil hne
  rw [Library.afterWord, if_neg]
  rw [hlib.space_sameLetter a c hc (hword a (.head _))]
  exact Bool.false_ne_true

theorem expansionHere_of_head (hlib : lib.Letters) {c : Char}
    (hc : isSpace c = true ∨ c = '(' ∨ c = ')') : lib.expansionHere (c :: t) = none := by
  refine expansionHere_eq_none fun word hword rest hrest => ?_
  have hne : word ≠ [] := by
    rintro rfl
    exact absurd hword (by decide)
  have hnone : lib.afterWord word (c :: t) = none := by
    rcases hc with hc | hc
    · exact afterWord_space hlib hne (quantifierWords_isAlphanum word hword) hc
    · exact afterWord_paren hlib hne (quantifierWords_isAlphanum word hword) hc
  cases hnone.symm.trans hrest

/-- The word `of` is no connective. -/
theorem not_of (hlib : lib.Letters) (hlaid : Laid .free tokens t)
    (hspace : ∀ c ∈ t.head?, isSpace c = false) (hname : ∀ leaf, tokens.head? ≠ some (.name leaf)) :
    lib.afterWord "of".toList t = none := by
  cases hlaid with
  | nil => rfl
  | space hc _ => exact absurd (hc.symm.trans (hspace _ rfl)) (by decide)
  | @token _ token _ s t _ hspells hlaid =>
    rcases token with - | - | o | leaf
    · obtain rfl : s = ['('] := hspells
      exact afterWord_paren hlib (by decide) of_isAlphanum (.inl rfl)
    · obtain rfl : s = [')'] := hspells
      exact afterWord_paren hlib (by decide) of_isAlphanum (.inr rfl)
    · have hspells : s.map Char.toLower = opWord o := hspells
      cases hafter : lib.afterWord "of".toList (s ++ t) with
      | none => rfl
      | some rest =>
        obtain ⟨w, s', rfl, -, hw⟩ := afterWord_plain hlib of_isAlphanum
          (isPlainChar_of_lower (opWord_isAlphanum o) hspells)
          (hlaid.bounded (.inl rfl)) hafter
        have hprefix : "of".toList <+: opWord o := by
          refine ⟨s'.map Char.toLower, ?_⟩
          rw [← hspells, List.map_append, hw]
          rfl
        rcases o with - | - | - <;> exact absurd hprefix (by decide)
    · exact absurd rfl (hname leaf)

/-- A plain word is a quantifier only if `of` comes next. -/
theorem expansionHere_plain (hlib : lib.Letters) (hs : ∀ c ∈ s, isPlainChar c = true)
    (ht : Bounded t) (hnext : s.map Char.toLower ∈ quantifierWords →
      lib.afterWord "of".toList (t.dropWhile isSpace) = none) :
    lib.expansionHere (s ++ t) = none := by
  refine expansionHere_eq_none fun word hword rest hrest rest' hrest' => ?_
  obtain ⟨w, s', rfl, rfl, hw⟩ :=
    afterWord_plain hlib (quantifierWords_isAlphanum word hword) hs ht hrest
  rcases s' with - | ⟨c, s'⟩
  · have hlower : word.map Char.toLower = word := by
      have hcases : word = ['1'] ∨ word = "all".toList := by
        simpa [quantifierWords] using hword
      rcases hcases with rfl | rfl <;> decide
    rw [hlower] at hw
    rw [List.append_nil, hw] at hnext
    rcases t with - | ⟨d, t⟩
    · cases hrest'
    · rw [List.nil_append, afterSpaces] at hrest'
      split_ifs at hrest' with hd
      rw [← Option.some.inj hrest', ← List.dropWhile_cons_of_pos hd]
      exact hnext hword
  · have hc := isSpace_of_isPlainChar (hs c (by simp))
    rw [List.cons_append, afterSpaces, hc] at hrest'
    cases hrest'

/-- A token that is no quantifier is not taken for one. -/
theorem expansionHere_token (hlib : lib.Letters) (hwell : WellFormed (token :: tokens))
    (hquantifier : ∀ one selector, token ≠ .name (.quantified one selector))
    (hspells : Spells token s) (hlaid : Laid (afterToken token) tokens t) :
    lib.expansionHere (s ++ t) = none := by
  rcases token with - | - | o | ⟨name | ⟨one, selector⟩⟩
  · obtain rfl : s = ['('] := hspells
    exact expansionHere_of_head hlib (.inr (.inl rfl))
  · obtain rfl : s = [')'] := hspells
    exact expansionHere_of_head hlib (.inr (.inr rfl))
  · have hspells : s.map Char.toLower = opWord o := hspells
    refine expansionHere_plain hlib (isPlainChar_of_lower (opWord_isAlphanum o) hspells)
      (hlaid.bounded (.inl rfl)) fun hword => ?_
    rw [hspells] at hword
    rcases o with - | - | - <;> exact absurd hword (by decide)
  · obtain rfl : s = name := hspells
    have hname : IsName s := hwell.head _ rfl
    refine expansionHere_plain hlib hname.plain (hlaid.bounded (.inl rfl)) fun _ => ?_
    cases hwell with
    | other hno _ => exact absurd rfl (hno _)
    | name _ hnext htail =>
      have hvalid : ∀ token ∈ tokens.head?, ValidToken token := by
        rintro token htoken leaf rfl
        exact absurd htoken (hnext leaf)
      refine not_of hlib (hlaid.dropSpaces hvalid) (fun c hc => ?_) hnext
      have := List.head?_dropWhile_not isSpace t
      rw [hc] at this
      simpa using this
  · exact absurd rfl (hquantifier one selector)

theorem afterSpaces_gap {gap : Text} (hgap : IsGap gap) (ht : ∀ c ∈ t.head?, isSpace c = false) :
    afterSpaces (gap ++ t) = some t := by
  obtain ⟨hne, hspaces⟩ := hgap
  obtain ⟨c, gap, rfl⟩ := List.exists_cons_of_ne_nil hne
  obtain ⟨hc, hgap⟩ := List.forall_mem_cons.mp hspaces
  rw [List.cons_append, afterSpaces, if_pos hc, List.dropWhile_append_of_pos hgap]
  rcases t with - | ⟨d, t⟩
  · rfl
  · rw [List.dropWhile_cons_of_neg (by rw [ht d rfl]; exact Bool.false_ne_true)]

/-- The run of name characters at the head of a text. -/
theorem nameChars_append (hlib : lib.Letters) (hs : ∀ c ∈ s, lib.isNameChar c = true)
    (ht : Bounded t) : (s ++ t).takeWhile lib.isNameChar = s ∧
      (s ++ t).dropWhile lib.isNameChar = t := by
  have hhead : ∀ c ∈ t.head?, lib.isNameChar c = false := by
    intro c hc
    rcases ht c hc with h | rfl | rfl
    · exact isNameChar_of_isSpace hlib h
    · rw [isNameChar_ascii hlib (by decide)]
      decide
    · rw [isNameChar_ascii hlib (by decide)]
      decide
  rw [List.takeWhile_append_of_pos hs, List.dropWhile_append_of_pos hs]
  rcases t with - | ⟨d, t⟩
  · exact ⟨List.append_nil s, rfl⟩
  · have hd : ¬ lib.isNameChar d = true := by
      rw [hhead d rfl]
      exact Bool.false_ne_true
    rw [List.takeWhile_cons_of_neg hd, List.dropWhile_cons_of_neg hd]
    exact ⟨List.append_nil s, rfl⟩

theorem IsSelector.isNameChar (hlib : lib.Letters) (h : IsSelector s) :
    ∀ c ∈ s, lib.isNameChar c = true := by
  intro c hc
  rcases h.chars c hc with hplain | rfl
  · rw [isNameChar_ascii hlib (toNat_lt_of_isPlainChar hplain), hplain, Bool.true_or]
  · rw [isNameChar_ascii hlib (by decide)]
    decide

theorem IsSelector.isSpace_head (h : IsSelector s) : ∀ c ∈ (s ++ t).head?, isSpace c = false := by
  obtain ⟨c, s, rfl⟩ := List.exists_cons_of_ne_nil h.nonempty
  intro d hd
  obtain rfl := Option.some.inj hd
  rcases h.chars c (.head _) with hplain | rfl
  · exact isSpace_of_isPlainChar hplain
  · decide

theorem isSpace_head_of_lower {word : Text} (hne : word ≠ [])
    (hword : ∀ a ∈ word, a.isAlphanum = true) (h : s.map Char.toLower = word) :
    ∀ c ∈ (s ++ t).head?, isSpace c = false := by
  rcases s with - | ⟨c, s⟩
  · exact absurd h.symm hne
  · intro d hd
    obtain rfl := Option.some.inj hd
    exact isSpace_of_isPlainChar (isPlainChar_of_lower hword h c (.head _))

/-- A quantifier is found, with its selector. -/
theorem expansionHere_quantifier (hlib : lib.Letters) {one : Bool} {selector : Text}
    (hselector : IsSelector selector) (hspells : Spells (.name (.quantified one selector)) s)
    (hlaid : Laid .selector tokens t) :
    lib.expansionHere (s ++ t) = some (one, selector, t) := by
  obtain ⟨quantifier, gap, word, gap', hquantifier, hgap, hword, hgap', rfl⟩ := hspells
  simp only [List.append_assoc]
  have hbounded := hlaid.bounded (.inr rfl)
  obtain ⟨htake, hdrop⟩ := nameChars_append hlib (hselector.isNameChar hlib) hbounded
  have hend : (t.head?.all fun c => isSpace c || c = ')') = true := by
    rcases t with - | ⟨c, t⟩
    · rfl
    · rw [List.head?_cons, Option.all_some]
      rcases hbounded c rfl with h | rfl | rfl
      · rw [h, Bool.true_or]
      · exact absurd rfl hlaid.not_lparen
      · decide
  have hrest : ∀ one : Bool, (do
      let rest ← afterSpaces (gap ++ (word ++ (gap' ++ (selector ++ t))))
      let rest ← lib.afterWord "of".toList rest
      let rest ← afterSpaces rest
      let selector := rest.takeWhile lib.isNameChar
      let rest := rest.dropWhile lib.isNameChar
      if selector = [] ∨ selector.head? = some '*' then none
      else if rest.head?.all fun c => isSpace c || c = ')' then some (one, selector, rest)
      else none) = some (one, selector, t) := by
    intro one
    simp only [Option.bind_eq_bind,
      afterSpaces_gap hgap (isSpace_head_of_lower (by decide) of_isAlphanum hword),
      afterWord_append hlib _ of_isAlphanum hword, afterSpaces_gap hgap' hselector.isSpace_head,
      Option.bind_some, htake, hdrop, hselector.nonempty, hselector.head, or_self, if_false, hend,
      if_true]
  unfold Library.expansionHere
  rcases one with - | -
  · have hall : lib.afterWord "all".toList (quantifier ++ (gap ++ (word ++ (gap' ++ (selector ++ t)))))
        = some (gap ++ (word ++ (gap' ++ (selector ++ t)))) :=
      afterWord_append hlib _ (quantifierWords_isAlphanum _ (by decide)) hquantifier
    have hone : lib.afterWord ['1'] (quantifier ++ (gap ++ (word ++ (gap' ++ (selector ++ t)))))
        = none := by
      rcases quantifier with - | ⟨c, quantifier⟩
      · cases hquantifier
      · have hc : c.toLower = 'a' := (List.cons_eq_cons.mp hquantifier).1
        have hplain : isPlainChar c = true :=
          isPlainChar_of_lower (quantifierWords_isAlphanum "all".toList (by decide)) hquantifier c
            (.head _)
        rw [List.cons_append, Library.afterWord, if_neg]
        rw [sameLetter_iff hlib (by decide) (.inl hplain), hc]
        decide
    rw [hone, hall]
    exact hrest false
  · have hone : lib.afterWord ['1'] (quantifier ++ (gap ++ (word ++ (gap' ++ (selector ++ t)))))
        = some (gap ++ (word ++ (gap' ++ (selector ++ t)))) :=
      afterWord_append hlib _ (quantifierWords_isAlphanum _ (by decide)) hquantifier
    rw [hone]
    exact hrest true

end Here

/-! ### The replacement -/

section Replacement

variable {before : Before} {tokens : List (Tok Leaf)} {t : Text}

/-- One name, or a group of names with the connective of the quantifier between them. -/
def joined (one : Bool) : List Text → Cond Leaf .atom
  | [] => .name (.plain [])
  | [name] => .name (.plain name)
  | name :: names => .group (if one then
      .anyOf (.term (.factor (.nots 0 (.name (.plain name))))) (names.map .plain)
    else .term (.allOf (.factor (.nots 0 (.name (.plain name)))) (names.map .plain)))

theorem intercalate_cons {α : Type*} (sep x : List α) (xs : List (List α)) :
    List.intercalate sep (x :: xs) = x ++ xs.flatMap fun y => sep ++ y := by
  induction xs generalizing x with
  | nil => simp [List.intercalate]
  | cons y xs ih =>
    have hcons : List.intercalate sep (x :: y :: xs) = x ++ sep ++ List.intercalate sep (y :: xs) := by
      simp [List.intercalate]
    rw [hcons, ih, List.flatMap_cons]
    simp only [List.append_assoc]

/-- Names with a connective before each, up to a closing parenthesis. -/
theorem laid_names (o : Op) {names : List Text} (hnames : ∀ name ∈ names, IsName name)
    (h : Laid .selector tokens t) :
    Laid .word (names.flatMap (fun name => [.op o, .name (.plain name)]) ++ .rparen :: tokens)
      (names.flatMap (fun name => ' ' :: (opWord o ++ [' ']) ++ name) ++ ')' :: t) := by
  induction names with
  | nil =>
    show Laid .word (.rparen :: tokens) ([')'] ++ t)
    exact .token rfl rfl (h.weaken _)
  | cons name names ih =>
    obtain ⟨hname, hnames⟩ := List.forall_mem_cons.mp hnames
    have hop : Spells (.op o) (opWord o) := by
      show (opWord o).map Char.toLower = opWord o
      rcases o with - | - | - <;> decide
    have hname : Spells (.name (.plain name)) name := rfl
    have hspace : isSpace ' ' = true := by decide
    have hall : Laid .word (.op o :: .name (.plain name) ::
        (names.flatMap (fun name => [.op o, .name (.plain name)]) ++ .rparen :: tokens))
        (' ' :: (opWord o ++ ' ' :: (name ++
          (names.flatMap (fun name => ' ' :: (opWord o ++ [' ']) ++ name) ++ ')' :: t)))) :=
      .space hspace (.token rfl hop (.space hspace (.token rfl hname (ih hnames))))
    simpa using hall

/-- The text in place of a quantifier spells its group. -/
theorem laid_joined (one : Bool) {names : List Text} (hne : names ≠ [])
    (hnames : ∀ name ∈ names, IsName name) (h : Laid .selector tokens t) :
    Laid .free ((joined one names).tokens ++ tokens) (expandedText one names ++ t) := by
  rcases names with - | ⟨name, - | ⟨name', names⟩⟩
  · exact absurd rfl hne
  · have htext : expandedText one [name] = name := by
      simp [expandedText, intercalate_cons]
    rw [htext]
    exact .token rfl (show Spells (.name (.plain name)) name from rfl) (h.weaken _)
  · have htext : expandedText one (name :: name' :: names) ++ t = ['('] ++ (name ++
        ((name' :: names).flatMap (fun name => ' ' :: (opWord (if one then .or else .and) ++ [' ']) ++
          name) ++ ')' :: t)) := by
      have hsep : (if one then " or ".toList else " and ".toList) =
          ' ' :: (opWord (if one then .or else .and) ++ [' ']) := by
        rcases one with - | - <;> decide
      rw [expandedText, if_pos (by simp), hsep, intercalate_cons]
      simp only [List.cons_append, List.append_assoc, List.nil_append]
    have htokens : (joined one (name :: name' :: names)).tokens ++ tokens =
        .lparen :: .name (.plain name) :: ((name' :: names).flatMap (fun name =>
          [.op (if one then .or else .and), .name (.plain name)]) ++ .rparen :: tokens) := by
      rcases one with - | -
      · simp [joined, Cond.tokens, Cond.tokens_allOf, List.flatMap_map]
      · simp [joined, Cond.tokens, Cond.tokens_anyOf, List.flatMap_map]
    rw [htext, htokens]
    refine .token rfl rfl (.token rfl (show Spells (.name (.plain name)) name from rfl) ?_)
    exact laid_names _ (fun n hn => hnames n (.tail _ hn)) h

theorem single_joined (one : Bool) (names : List Text) : (joined one names).Single := by
  rcases names with - | ⟨name, - | ⟨name', names⟩⟩
  · exact trivial
  · exact trivial
  · rcases one with - | -
    · have hname : (Cond.factor (.nots 0 (.name (Leaf.plain name)))).Single := ⟨Nat.zero_le 1, trivial⟩
      exact hname.allOf _
    · have hname : (Cond.term (.factor (.nots 0 (.name (Leaf.plain name))))).Single :=
        ⟨Nat.zero_le 1, trivial⟩
      exact hname.anyOf _

end Replacement

/-! ### One round -/

section Round

variable {F O : Type} {lib : Library F O} (rule : Rule O) {before : Before}
  {tokens : List (Tok Leaf)} {s t : Text}

/-- A character where no quantifier begins is kept. -/
theorem expandOnce_cons {c : Char} {free : Bool} {n leaves : ℕ}
    (hhere : free = true → lib.expansionHere (c :: t) = none) :
    lib.expandOnce rule (n + 1) free (c :: t) leaves =
      (lib.expandOnce rule n (isSpace c) t leaves).map fun p => (c :: p.1, p.2) := by
  have hnone : (if free then lib.expansionHere (c :: t) else none) = none := by
    split_ifs with hfree
    · exact hhere hfree
    · rfl
  rw [Library.expandOnce, hnone]
  rcases lib.expandOnce rule n (isSpace c) t leaves with e | p <;> rfl

/-- Characters behind others are kept up to the next space. -/
theorem expandOnce_inside {n leaves : ℕ} (hs : ∀ c ∈ s, isSpace c = false)
    (hn : (s ++ t).length ≤ n) : lib.expandOnce rule n false (s ++ t) leaves =
      (lib.expandOnce rule (n - s.length) false t leaves).map fun p => (s ++ p.1, p.2) := by
  induction s generalizing n with
  | nil =>
    rw [List.nil_append, List.length_nil, Nat.sub_zero]
    rcases lib.expandOnce rule n false t leaves with e | p <;> rfl
  | cons c s ih =>
    obtain ⟨hc, hs⟩ := List.forall_mem_cons.mp hs
    rcases n with - | n
    · cases hn
    · rw [List.cons_append, expandOnce_cons rule (fun h => absurd h Bool.false_ne_true), hc,
        ih hs (Nat.le_of_succ_le_succ hn), List.length_cons, Nat.succ_sub_succ]
      rcases lib.expandOnce rule (n - s.length) false t leaves with e | p <;> rfl

theorem expandOnce_chars {free : Bool} {n leaves : ℕ} (hne : s ≠ [])
    (hs : ∀ c ∈ s, isSpace c = false)
    (hhere : free = true → lib.expansionHere (s ++ t) = none) (hn : (s ++ t).length ≤ n) :
    lib.expandOnce rule n free (s ++ t) leaves =
      (lib.expandOnce rule (n - s.length) false t leaves).map fun p => (s ++ p.1, p.2) := by
  obtain ⟨c, s, rfl⟩ := List.exists_cons_of_ne_nil hne
  obtain ⟨hc, hs⟩ := List.forall_mem_cons.mp hs
  have hhere : free = true → lib.expansionHere (c :: (s ++ t)) = none := hhere
  rcases n with - | n
  · cases hn
  · rw [List.cons_append, expandOnce_cons rule hhere, hc,
      expandOnce_inside rule hs (Nat.le_of_succ_le_succ hn), List.length_cons, Nat.succ_sub_succ]
    rcases lib.expandOnce rule (n - s.length) false t leaves with e | p <;> rfl

/-- A quantifier is replaced. -/
theorem expandOnce_quantifier {n leaves : ℕ} {one : Bool} {selector : Text} (hs : s ≠ [])
    (hhere : lib.expansionHere (s ++ t) = some (one, selector, t)) :
    lib.expandOnce rule (n + 1) true (s ++ t) leaves =
      (lib.replaceMatch rule one selector leaves).bind fun r =>
        (lib.expandOnce rule n false t r.2).map fun p => (r.1 ++ p.1, p.2) := by
  obtain ⟨c, s, rfl⟩ := List.exists_cons_of_ne_nil hs
  rw [List.cons_append] at hhere ⊢
  rw [Library.expandOnce, if_pos rfl, hhere]
  dsimp only
  rcases lib.replaceMatch rule one selector leaves with e | ⟨replacement, leaves⟩
  · rfl
  · refine Eq.trans (b := (lib.expandOnce rule n false t leaves).bind fun p =>
      .ok (replacement ++ p.1, p.2)) rfl ?_
    refine Eq.trans ?_ (b := (lib.expandOnce rule n false t leaves).map fun p =>
      (replacement ++ p.1, p.2)) rfl
    rcases lib.expandOnce rule n false t leaves with e | p <;> rfl

/-- The characters of a token that is no quantifier are not spaces. -/
theorem Spells.isSpace_eq_false {token : Tok Leaf} (hvalid : ValidToken token)
    (hquantifier : ∀ one selector, token ≠ .name (.quantified one selector))
    (h : Spells token s) : ∀ c ∈ s, isSpace c = false := by
  rcases token with - | - | o | ⟨name | ⟨one, selector⟩⟩
  · obtain rfl : s = ['('] := h
    intro c hc
    obtain rfl := List.mem_singleton.mp hc
    decide
  · obtain rfl : s = [')'] := h
    intro c hc
    obtain rfl := List.mem_singleton.mp hc
    decide
  · have h : s.map Char.toLower = opWord o := h
    exact fun c hc => isSpace_of_isPlainChar (isPlainChar_of_lower (opWord_isAlphanum o) h c hc)
  · obtain rfl : s = name := h
    have hname : IsName s := hvalid _ rfl
    exact fun c hc => isSpace_of_isPlainChar (hname.plain c hc)
  · exact absurd rfl (hquantifier one selector)

/-- The numbers of selections that the selectors stand for are added up, or one of them is
refused. -/
def countLeaves (lib : Library F O) (rule : Rule O) :
    List (Tok Leaf) → ℕ → Except ConditionIssue ℕ
  | [], leaves => .ok leaves
  | .name (.quantified one selector) :: tokens, leaves =>
    (lib.replaceMatch rule one selector leaves).bind fun r => countLeaves lib rule tokens r.2
  | _ :: tokens, leaves => countLeaves lib rule tokens leaves

/-- The group in place of a leaf. -/
def atom (lib : Library F O) (rule : Rule O) : Leaf → Cond Leaf .atom
  | .plain name => .name (.plain name)
  | .quantified one selector => joined one (lib.selectorNames rule selector)

/-- The tokens after a round. -/
def expandTokens (lib : Library F O) (rule : Rule O) (tokens : List (Tok Leaf)) :
    List (Tok Leaf) := tokens.flatMap (Cond.substToken (atom lib rule))

/-- A token that is no quantifier is kept. -/
theorem plain_token {token : Tok Leaf}
    (hquantifier : ∀ one selector, token ≠ .name (.quantified one selector)) (lib : Library F O)
    (rule : Rule O) (tokens : List (Tok Leaf)) (leaves : ℕ) :
    countLeaves lib rule (token :: tokens) leaves = countLeaves lib rule tokens leaves ∧
      expandTokens lib rule (token :: tokens) = token :: expandTokens lib rule tokens ∧
      selectors (token :: tokens) = selectors tokens ∧ afterToken token ≠ .free := by
  rcases token with - | - | o | ⟨name | ⟨one, selector⟩⟩
  · exact ⟨rfl, rfl, rfl, Before.noConfusion⟩
  · exact ⟨rfl, rfl, rfl, Before.noConfusion⟩
  · exact ⟨rfl, rfl, rfl, Before.noConfusion⟩
  · exact ⟨rfl, rfl, rfl, Before.noConfusion⟩
  · exact absurd rfl (hquantifier one selector)

/-- What a round makes of a laid out text: an error, or a text that spells the expanded
tokens. -/
def Expands (lib : Library F O) (rule : Rule O) (before : Before) (tokens : List (Tok Leaf))
    (t : Text) (leaves : ℕ) (result : Except ConditionIssue (Text × ℕ)) : Prop :=
  (∃ e, countLeaves lib rule tokens leaves = .error e ∧ result = .error e) ∨
    ∃ m t', countLeaves lib rule tokens leaves = .ok m ∧ result = .ok (t', m) ∧
      Laid before (expandTokens lib rule tokens) t' ∧ (selectors tokens = [] → t' = t)

theorem replaceMatch_ok {rule : Rule O} {one : Bool} {selector : Text} {leaves : ℕ} {r : Text × ℕ}
    (h : lib.replaceMatch rule one selector leaves = .ok r) :
    lib.selectorNames rule selector ≠ [] ∧
      r.1 = expandedText one (lib.selectorNames rule selector) := by
  unfold Library.replaceMatch at h
  dsimp only at h
  split_ifs at h with hempty
  rw [← Except.ok.inj h]
  exact ⟨hempty, rfl⟩

/-- **A round replaces exactly the quantifiers.** -/
theorem expandOnce_laid (hlib : lib.Letters) {rule : Rule O}
    (hlaid : Laid before tokens t) (hwell : WellFormed tokens)
    (hselected : ∀ selector ∈ selectors tokens, ∀ name ∈ lib.selectorNames rule selector, IsName name)
    {n : ℕ} (hn : t.length ≤ n) (leaves : ℕ) :
    Expands lib rule before tokens t leaves
      (lib.expandOnce rule n (decide (before = .free)) t leaves) := by
  induction hlaid generalizing n leaves with
  | nil before =>
    refine .inr ⟨leaves, [], rfl, ?_, .nil before, fun _ => rfl⟩
    rcases n with - | n <;> rfl
  | @space before tokens c t hc _ ih =>
    rcases n with - | n
    · cases hn
    · have hround : lib.expandOnce rule (n + 1) (decide (before = .free)) (c :: t) leaves =
          (lib.expandOnce rule n true t leaves).map fun p => (c :: p.1, p.2) := by
        rw [expandOnce_cons rule fun _ => expansionHere_of_head hlib (.inl hc), hc]
      rw [hround]
      rcases ih hwell hselected (Nat.le_of_succ_le_succ hn) leaves with ⟨e, hcount, hresult⟩ |
        ⟨m, t', hcount, hresult, hlaid, hsame⟩
      · rw [decide_eq_true rfl] at hresult
        exact .inl ⟨e, hcount, by rw [hresult]; rfl⟩
      · rw [decide_eq_true rfl] at hresult
        refine .inr ⟨m, c :: t', hcount, by rw [hresult]; rfl, .space hc hlaid, fun h => ?_⟩
        rw [hsame h]
  | @token before token tokens s t hallows hspells hlaid ih =>
    have hvalid := hwell.head
    obtain ⟨c, s₀, hs, -⟩ := hspells.head hvalid
    have hne : s ≠ [] := by
      rw [hs]
      exact List.cons_ne_nil c s₀
    by_cases hquantifier : ∃ one selector, token = .name (.quantified one selector)
    · obtain ⟨one, selector, rfl⟩ := hquantifier
      have hfree : before = .free := by
        rcases before with - | - | - | - <;> first | rfl | cases hallows
      subst hfree
      rcases n with - | n
      · rw [hs] at hn
        cases hn
      · have hhere := expansionHere_quantifier hlib (hvalid _ rfl) hspells hlaid
        rw [decide_eq_true rfl, expandOnce_quantifier rule hne hhere]
        have hn' : t.length ≤ n := by
          rw [hs, List.cons_append, List.length_cons, List.length_append] at hn
          omega
        rcases hmatch : lib.replaceMatch rule one selector leaves with e | r
        · refine .inl ⟨e, ?_, rfl⟩
          rw [countLeaves, hmatch]
          rfl
        · obtain ⟨hnames, htext⟩ := replaceMatch_ok hmatch
          have hcount : countLeaves lib rule (.name (.quantified one selector) :: tokens) leaves =
              countLeaves lib rule tokens r.2 := by
            rw [countLeaves, hmatch]
            rfl
          have hexpand : (Except.ok r : Except ConditionIssue (Text × ℕ)).bind (fun r =>
              (lib.expandOnce rule n false t r.2).map fun p => (r.1 ++ p.1, p.2)) =
              (lib.expandOnce rule n false t r.2).map fun p => (r.1 ++ p.1, p.2) := rfl
          rw [hexpand]
          rcases ih hwell.tail (fun selector hmem => hselected selector (.tail _ hmem))
            hn' r.2 with ⟨e, hcount', hresult⟩ |
            ⟨m, t', hcount', hresult, hlaid', -⟩
          · have hresult : lib.expandOnce rule n false t r.2 = .error e := hresult
            refine .inl ⟨e, hcount.trans hcount', ?_⟩
            rw [hresult]
            rfl
          · have hresult : lib.expandOnce rule n false t r.2 = .ok (t', m) := hresult
            refine .inr ⟨m, r.1 ++ t', hcount.trans hcount', ?_, ?_, fun h => by cases h⟩
            · rw [hresult]
              rfl
            · rw [htext]
              exact laid_joined one hnames (hselected selector (.head _)) hlaid'
    · have hquantifier : ∀ one selector, token ≠ .name (.quantified one selector) :=
        fun one selector h => hquantifier ⟨one, selector, h⟩
      obtain ⟨hcount, hexpand, hselectors, hafter⟩ := plain_token hquantifier lib rule tokens leaves
      have hn' : t.length ≤ n - s.length := by
        rw [List.length_append] at hn
        omega
      have hround : lib.expandOnce rule n (decide (before = .free)) (s ++ t) leaves =
          (lib.expandOnce rule (n - s.length) false t leaves).map fun p => (s ++ p.1, p.2) :=
        expandOnce_chars rule hne (hspells.isSpace_eq_false hvalid hquantifier)
          (fun _ => expansionHere_token hlib hwell hquantifier hspells hlaid) hn
      have ih := ih hwell.tail (hselectors ▸ hselected) hn' leaves
      rw [decide_eq_false hafter] at ih
      rw [hround]
      rcases ih with ⟨e, hcount', hresult⟩ | ⟨m, t', hcount', hresult, hlaid', hsame⟩
      · refine .inl ⟨e, hcount.trans hcount', ?_⟩
        rw [hresult]
        rfl
      · refine .inr ⟨m, s ++ t', hcount.trans hcount', ?_, ?_, fun h => ?_⟩
        · rw [hresult]
          rfl
        · rw [hexpand]
          exact .token hallows hspells hlaid'
        · rw [hsame (hselectors ▸ h)]

end Round

/-! ### What is left -/

section Left

variable {F O : Type} {lib : Library F O} {before : Before} {tokens : List (Tok Leaf)} {s t : Text}

theorem hasExpansion_inside (hs : ∀ c ∈ s, isSpace c = false) :
    lib.hasExpansion false (s ++ t) = lib.hasExpansion false t := by
  induction s with
  | nil => rfl
  | cons c s ih =>
    obtain ⟨hc, hs⟩ := List.forall_mem_cons.mp hs
    rw [List.cons_append, Library.hasExpansion, Bool.false_and, Bool.false_or, hc, ih hs]

/-- No quantifier is left where none is spelled. -/
theorem hasExpansion_laid (hlib : lib.Letters) (hlaid : Laid before tokens t)
    (hwell : WellFormed tokens) (hnone : selectors tokens = []) :
    lib.hasExpansion (decide (before = .free)) t = false := by
  induction hlaid with
  | nil => rfl
  | @space before tokens c t hc _ ih =>
    rw [Library.hasExpansion, expansionHere_of_head hlib (.inl hc), hc, Option.isSome_none,
      Bool.and_false, Bool.false_or]
    exact ih hwell hnone
  | @token before token tokens s t hallows hspells hlaid ih =>
    have hquantifier : ∀ one selector, token ≠ .name (.quantified one selector) := by
      rintro one selector rfl
      cases hnone
    obtain ⟨c, s', rfl, hc⟩ := hspells.head hwell.head
    have hs := hspells.isSpace_eq_false hwell.head hquantifier
    have hhere := expansionHere_token hlib hwell hquantifier hspells hlaid
    have hafter : afterToken token ≠ .free ∧ selectors tokens = [] := by
      rcases token with - | - | o | ⟨name | ⟨one, selector⟩⟩
      · exact ⟨Before.noConfusion, hnone⟩
      · exact ⟨Before.noConfusion, hnone⟩
      · exact ⟨Before.noConfusion, hnone⟩
      · exact ⟨Before.noConfusion, hnone⟩
      · exact absurd rfl (hquantifier one selector)
    have ih := ih hwell.tail hafter.2
    rw [decide_eq_false hafter.1] at ih
    rw [List.cons_append] at hhere ⊢
    rw [Library.hasExpansion, hhere, hc, Option.isSome_none, Bool.and_false, Bool.false_or,
      hasExpansion_inside fun d hd => hs d (List.mem_cons_of_mem c hd), ih]

/-- The text of a leaf that is a name. -/
def Leaf.text : Leaf → Text
  | .plain name => name
  | .quantified _ selector => selector

/-- The word of a connective, up to what bounds it. -/
theorem wordHere_word (hlib : lib.Letters) {word : String}
    (hword : ∀ a ∈ word.toList, a.isAlphanum = true) (hs : s.map Char.toLower = word.toList)
    (ht : Bounded t) : lib.wordHere word (s ++ t) = some t := by
  rw [Library.wordHere, afterWord_append hlib t hword hs]
  dsimp only
  rw [if_neg]
  rcases t with - | ⟨c, t⟩
  · exact Bool.false_ne_true
  · rw [List.head?_cons, Option.any_some]
    rcases ht c rfl with h | rfl | rfl
    · rw [isWord_of_isSpace hlib h]
      exact Bool.false_ne_true
    · rw [Library.isWord, hlib.isAlnum _ (by decide)]
      decide
    · rw [Library.isWord, hlib.isAlnum _ (by decide)]
      decide

/-- Another word than the one that stands there. -/
theorem wordHere_other (hlib : lib.Letters) {word : String}
    (hword : ∀ a ∈ word.toList, a.isAlphanum = true)
    (hlower : word.toList.map Char.toLower = word.toList)
    (hs : ∀ c ∈ s, isPlainChar c = true) (ht : Bounded t)
    (hne : s.map Char.toLower ≠ word.toList) : lib.wordHere word (s ++ t) = none := by
  rw [Library.wordHere]
  cases hafter : lib.afterWord word.toList (s ++ t) with
  | none => rfl
  | some rest =>
    obtain ⟨w, s', rfl, rfl, hw⟩ := afterWord_plain hlib hword hs ht hafter
    rcases s' with - | ⟨c, s'⟩
    · rw [List.append_nil, hw, hlower] at hne
      exact absurd rfl hne
    · dsimp only
      rw [if_pos]
      rw [List.cons_append, List.head?_cons, Option.any_some]
      exact isWord_of_isPlainChar hlib (hs c (by simp))

theorem operatorHere_word (hlib : lib.Letters) {o : Op} (hs : s.map Char.toLower = opWord o)
    (ht : Bounded t) : lib.operatorHere (s ++ t) = some (o, t) := by
  have hplain := isPlainChar_of_lower (opWord_isAlphanum o) hs
  rw [Library.operatorHere, operatorWords]
  rcases o with - | - | -
  · have hand := wordHere_other hlib (opWord_isAlphanum .and) (by decide) hplain ht
      (hs ▸ (by decide : opWord .or ≠ opWord .and))
    have hor := wordHere_word hlib (opWord_isAlphanum .or) hs ht
    simp only [List.findSome?_cons, hand, hor, Option.map_none, Option.map_some]
  · have hand := wordHere_word hlib (opWord_isAlphanum .and) hs ht
    simp only [List.findSome?_cons, hand, Option.map_some]
  · have hand := wordHere_other hlib (opWord_isAlphanum .and) (by decide) hplain ht
      (hs ▸ (by decide : opWord .not ≠ opWord .and))
    have hor := wordHere_other hlib (opWord_isAlphanum .or) (by decide) hplain ht
      (hs ▸ (by decide : opWord .not ≠ opWord .or))
    have hnot := wordHere_word hlib (opWord_isAlphanum .not) hs ht
    simp only [List.findSome?_cons, hand, hor, hnot, Option.map_none, Option.map_some]

theorem operatorHere_name (hlib : lib.Letters) (hname : IsName s) (ht : Bounded t) :
    lib.operatorHere (s ++ t) = none := by
  have hword : ∀ (word : String) (o : Op), word.toList = opWord o →
      lib.wordHere word (s ++ t) = none := by
    intro word o hwo
    refine wordHere_other hlib (hwo ▸ opWord_isAlphanum o) ?_ hname.plain ht
      (hwo ▸ hname.noOperator o)
    rw [hwo]
    rcases o with - | - | - <;> decide
  rw [Library.operatorHere, operatorWords]
  simp only [List.findSome?_cons, hword "and" .and rfl, hword "or" .or rfl, hword "not" .not rfl,
    Option.map_none, List.findSome?_nil]

theorem nameToken_name (hlib : lib.Letters) (hname : IsName s) : lib.nameToken s = .name s := by
  have hlower := hlib.lower s fun c hc => toNat_lt_of_isPlainChar (hname.plain c hc)
  have hand := hname.noOperator .and
  have hor := hname.noOperator .or
  have hnot := hname.noOperator .not
  rw [Library.nameToken, operatorWords, hlower]
  have hfind : [("and", Op.and), ("or", Op.or), ("not", Op.not)].find? (fun entry =>
      decide (entry.1.toList = s.map Char.toLower)) = none := by
    refine List.find?_eq_none.mpr fun entry hentry => ?_
    simp only [List.mem_cons, List.not_mem_nil, or_false] at hentry
    rcases hentry with rfl | rfl | rfl
    · exact fun h => hand (of_decide_eq_true h).symm
    · exact fun h => hor (of_decide_eq_true h).symm
    · exact fun h => hnot (of_decide_eq_true h).symm
  rw [hfind]

/-- A connective and a name are read by the tokenizer. -/
theorem conditionTokens_op (hlib : lib.Letters) {o : Op} (hs : s.map Char.toLower = opWord o)
    (ht : Bounded t) (n : ℕ) : lib.conditionTokens (n + 1) false (s ++ t) =
      .op o :: lib.conditionTokens n true t := by
  have hhere := operatorHere_word hlib hs ht
  have hplain := isPlainChar_of_lower (opWord_isAlphanum o) hs
  rcases s with - | ⟨c, s⟩
  · rcases o with - | - | - <;> cases hs
  · have hc := hplain c (.head _)
    rw [List.cons_append] at hhere ⊢
    rw [Library.conditionTokens, if_neg, if_neg, if_neg Bool.false_ne_true, hhere]
    · rintro rfl
      exact absurd hc (by decide)
    · rintro rfl
      exact absurd hc (by decide)

theorem conditionTokens_name (hlib : lib.Letters) (hname : IsName s) (ht : Bounded t) (n : ℕ) :
    ∃ inWord, lib.conditionTokens (n + 1) false (s ++ t) =
      .name s :: lib.conditionTokens n inWord t := by
  have hhere := operatorHere_name hlib hname ht
  have hchars : ∀ c ∈ s, lib.isNameChar c = true := fun c hc => by
    have hplain := hname.plain c hc
    rw [isNameChar_ascii hlib (toNat_lt_of_isPlainChar hplain), hplain, Bool.true_or]
  obtain ⟨htake, hdrop⟩ := nameChars_append hlib hchars ht
  have htoken := nameToken_name hlib hname
  have hplain := hname.plain
  rcases s with - | ⟨c, s⟩
  · exact absurd rfl hname.nonempty
  · have hc := hplain c (.head _)
    have hc' := hchars c (.head _)
    rw [List.cons_append] at hhere htake hdrop ⊢
    rw [List.takeWhile_cons_of_pos hc'] at htake
    rw [List.dropWhile_cons_of_pos hc'] at hdrop
    refine ⟨(c :: s).getLast?.any lib.isWord, ?_⟩
    rw [Library.conditionTokens, if_neg, if_neg, if_neg Bool.false_ne_true, hhere]
    · dsimp only
      rw [if_pos hc', htake, hdrop, htoken]
    · rintro rfl
      exact absurd hc (by decide)
    · rintro rfl
      exact absurd hc (by decide)

/-- **The tokenizer finds the tokens of a laid out text.** -/
theorem conditionTokens_laid (hlib : lib.Letters) (hlaid : Laid before tokens t)
    (hwell : WellFormed tokens) (hnone : selectors tokens = []) {n : ℕ} (hn : t.length ≤ n)
    {inWord : Bool} (hin : before = .free ∨ before = .paren → inWord = false) :
    lib.conditionTokens n inWord t = tokens.map (Tok.map Leaf.text) := by
  induction hlaid generalizing n inWord with
  | nil => rcases n with - | n <;> rfl
  | @space before tokens c t hc _ ih =>
    rcases n with - | n
    · cases hn
    · have hoperator : (if inWord then none else lib.operatorHere (c :: t)) = none := by
        split_ifs
        · rfl
        · have hword : ∀ (word : String), word.toList ≠ [] →
              (∀ a ∈ word.toList, a.isAlphanum = true) → lib.wordHere word (c :: t) = none := by
            intro word hne hword
            rw [Library.wordHere, afterWord_space hlib hne hword hc]
          rw [Library.operatorHere, operatorWords]
          simp only [List.findSome?_cons, hword "and" (by decide) (opWord_isAlphanum .and),
            hword "or" (by decide) (opWord_isAlphanum .or),
            hword "not" (by decide) (opWord_isAlphanum .not), Option.map_none, List.findSome?_nil]
      rw [Library.conditionTokens, if_neg, if_neg, hoperator]
      · dsimp only
        rw [isNameChar_of_isSpace hlib hc, if_neg Bool.false_ne_true, isWord_of_isSpace hlib hc]
        exact ih hwell hnone (Nat.le_of_succ_le_succ hn) fun _ => rfl
      · rintro rfl
        exact absurd hc (by decide)
      · rintro rfl
        exact absurd hc (by decide)
  | @token before token tokens s t hallows hspells hlaid ih =>
    obtain ⟨c, s', hs, -⟩ := hspells.head hwell.head
    rcases n with - | n
    · rw [hs] at hn
      cases hn
    · have hn' : t.length ≤ n := by
        rw [hs, List.cons_append, List.length_cons, List.length_append] at hn
        omega
      rcases token with - | - | o | ⟨name | ⟨one, selector⟩⟩
      · obtain rfl : s = ['('] := hspells
        show lib.conditionTokens (n + 1) inWord ('(' :: t) = _
        rw [Library.conditionTokens, if_pos rfl, ih hwell.tail hnone hn' fun _ => rfl]
        rfl
      · obtain rfl : s = [')'] := hspells
        show lib.conditionTokens (n + 1) inWord (')' :: t) = _
        rw [Library.conditionTokens, if_neg (by decide), if_pos rfl,
          ih hwell.tail hnone hn' fun _ => rfl]
        rfl
      · have hbefore : before = .free ∨ before = .paren := by
          rcases before with - | - | - | - <;> first | exact .inl rfl | exact .inr rfl | cases hallows
        rw [hin hbefore, conditionTokens_op hlib hspells (hlaid.bounded (.inl rfl)),
          ih hwell.tail hnone hn' fun h => by rcases h with h | h <;> cases h]
        rfl
      · have hbefore : before = .free ∨ before = .paren := by
          rcases before with - | - | - | - <;> first | exact .inl rfl | exact .inr rfl | cases hallows
        obtain rfl : s = name := hspells
        obtain ⟨inWord', htokens⟩ := conditionTokens_name hlib (hwell.head _ rfl)
          (hlaid.bounded (.inl rfl)) n
        rw [hin hbefore, htokens,
          ih hwell.tail hnone hn' fun h => by rcases h with h | h <;> cases h]
        rfl
      · cases hnone

end Left

/-! ### The whole expansion -/

section Expansion

variable {F O : Type} {lib : Library F O} {rule : Rule O} {before : Before}
  {tokens : List (Tok Leaf)} {t : Text}

theorem WellFormed.append {xs ys : List (Tok Leaf)} (hxs : WellFormed xs) (hys : WellFormed ys)
    (hhead : ∀ leaf, ys.head? ≠ some (.name leaf)) : WellFormed (xs ++ ys) := by
  induction hxs with
  | nil => exact hys
  | @name leaf tokens hvalid hnext _ ih =>
    refine .name hvalid (fun leaf' => ?_) ih
    rcases tokens with - | ⟨token, tokens⟩
    · exact hhead leaf'
    · exact hnext leaf'
  | other hno _ ih => exact .other hno ih

/-- The tokens of a condition with valid leaves. -/
theorem wellFormed_tokens {l : Level} (c : Cond Leaf l)
    (h : ∀ leaf, .name leaf ∈ c.tokens → leaf.Valid) : WellFormed c.tokens := by
  induction c with
  | name leaf => exact .name (h leaf (List.mem_singleton.mpr rfl)) (fun _ => nofun) .nil
  | group c ih =>
    have hinner : WellFormed (c.tokens ++ [.rparen]) :=
      (ih fun leaf hleaf => h leaf (.tail _ (List.mem_append_left _ hleaf))).append
        (.other (fun _ h => by cases h) .nil) fun _ h => by cases h
    exact .other (fun _ h => by cases h) hinner
  | nots count c ih =>
    have hinner := ih fun leaf hleaf => h leaf (List.mem_append_right _ hleaf)
    rw [Cond.tokens]
    induction count with
    | zero => exact hinner
    | succ count ih' =>
      rw [List.replicate_succ, List.cons_append]
      refine .other (fun _ h => by cases h) (ih' fun leaf hleaf => h leaf ?_)
      rw [Cond.tokens, List.replicate_succ, List.cons_append]
      exact .tail _ hleaf
  | factor c ih => exact ih h
  | and left right ihLeft ihRight =>
    refine (ihLeft fun leaf hleaf => h leaf (List.mem_append_left _ hleaf)).append
      (.other (fun _ h => by cases h) (ihRight fun leaf hleaf => h leaf ?_)) fun _ h => by cases h
    exact List.mem_append_right _ (.tail _ hleaf)
  | term c ih => exact ih h
  | or left right ihLeft ihRight =>
    refine (ihLeft fun leaf hleaf => h leaf (List.mem_append_left _ hleaf)).append
      (.other (fun _ h => by cases h) (ihRight fun leaf hleaf => h leaf ?_)) fun _ h => by cases h
    exact List.mem_append_right _ (.tail _ hleaf)

/-- The value of a group. -/
theorem value_joined (one : Bool) {names : List Text} (hne : names ≠ []) (v : Leaf → Bool) :
    (joined one names).value boolAlgebra v = if one then names.any fun name => v (.plain name)
      else names.all fun name => v (.plain name) := by
  rcases names with - | ⟨name, - | ⟨name', names⟩⟩
  · exact absurd rfl hne
  · rcases one with - | - <;> simp [joined, Cond.value]
  · rcases one with - | -
    · simp only [joined, Bool.false_eq_true, if_false, Cond.value, Cond.value_allOf, List.all_map,
        List.all_cons]
      rfl
    · simp only [joined, if_true, Cond.value, Cond.value_anyOf, List.any_map, List.any_cons]
      rfl

/-- The leaves of a group are its names. -/
theorem mem_joined {one : Bool} {names : List Text} (hne : names ≠ []) {leaf : Leaf}
    (h : .name leaf ∈ (joined one names).tokens) : ∃ name ∈ names, leaf = .plain name := by
  rcases names with - | ⟨name, - | ⟨name', names⟩⟩
  · exact absurd rfl hne
  · simp only [joined, Cond.tokens, List.mem_singleton, Tok.name.injEq] at h
    exact ⟨name, List.mem_singleton.mpr rfl, h⟩
  · rcases one with - | -
    · simpa [joined, Cond.tokens, Cond.tokens_allOf, eq_comm] using h
    · simpa [joined, Cond.tokens, Cond.tokens_anyOf, eq_comm] using h

variable {tokens : List (Tok Leaf)}

theorem selectors_eq_nil
    (h : ∀ one selector, .name (.quantified one selector) ∉ tokens) : selectors tokens = [] := by
  induction tokens with
  | nil => rfl
  | cons token tokens ih =>
    have htail := ih fun one selector hmem => h one selector (.tail _ hmem)
    rcases token with - | - | o | ⟨name | ⟨one, selector⟩⟩
    · exact htail
    · exact htail
    · exact htail
    · exact htail
    · exact absurd (.head _) (h one selector)

theorem mem_selectors {one : Bool} {selector : Text}
    (h : .name (.quantified one selector) ∈ tokens) : selector ∈ selectors tokens := by
  induction tokens with
  | nil => cases h
  | cons token tokens ih =>
    rcases List.mem_cons.mp h with rfl | h
    · exact .head _
    · have hmem := ih h
      rcases token with - | - | o | ⟨name | ⟨one', selector'⟩⟩
      · exact hmem
      · exact hmem
      · exact hmem
      · exact hmem
      · exact .tail _ hmem

/-- Without quantifiers nothing is counted. -/
theorem countLeaves_of_selectors (lib : Library F O) (rule : Rule O)
    (h : selectors tokens = []) (leaves : ℕ) : countLeaves lib rule tokens leaves = .ok leaves := by
  induction tokens with
  | nil => rfl
  | cons token tokens ih =>
    rcases token with - | - | o | ⟨name | ⟨one, selector⟩⟩
    · exact ih h
    · exact ih h
    · exact ih h
    · exact ih h
    · cases h

/-- The selectors that are not refused. -/
theorem countLeaves_iff (lib : Library F O) (rule : Rule O) (tokens : List (Tok Leaf)) {leaves : ℕ}
    (hleaves : leaves ≤ 200) : (∃ m, countLeaves lib rule tokens leaves = .ok m) ↔
      (∀ selector ∈ selectors tokens, lib.selectorNames rule selector ≠ [] ∧
        (lib.selectorNames rule selector).length ≤ 100) ∧
      leaves + ((selectors tokens).map fun selector =>
        (lib.selectorNames rule selector).length).sum ≤ 200 := by
  induction tokens generalizing leaves with
  | nil => simpa [countLeaves, selectors] using hleaves
  | cons token tokens ih =>
    rcases token with - | - | o | ⟨name | ⟨one, selector⟩⟩
    · exact ih hleaves
    · exact ih hleaves
    · exact ih hleaves
    · exact ih hleaves
    · rw [countLeaves, selectors, List.forall_mem_cons, List.map_cons, List.sum_cons,
        ← Nat.add_assoc, Library.replaceMatch]
      split_ifs with hempty hlarge hsum
      · refine iff_of_false (fun ⟨m, h⟩ => by cases h) fun h => h.1.1.1 hempty
      · refine iff_of_false (fun ⟨m, h⟩ => by cases h) fun h => ?_
        have := h.1.1.2
        omega
      · refine iff_of_false (fun ⟨m, h⟩ => by cases h) fun h => ?_
        have := h.2
        omega
      · show (∃ m, countLeaves lib rule tokens
          (leaves + (lib.selectorNames rule selector).length) = .ok m) ↔ _
        rw [ih (Nat.not_lt.mp hsum)]
        exact ⟨fun h => ⟨⟨⟨hempty, Nat.not_lt.mp hlarge⟩, h.1⟩, h.2⟩, fun h => ⟨h.1.2, h.2⟩⟩

theorem within_iff (tokens : List (Tok Leaf)) :
    lib.Within rule tokens ↔ ∃ m, countLeaves lib rule tokens 0 = .ok m := by
  rw [countLeaves_iff lib rule tokens (Nat.zero_le 200), Nat.zero_add]
  constructor
  · exact fun h => ⟨fun selector hmem => ⟨h.some selector hmem, h.each selector hmem⟩, h.all⟩
  · exact fun h => ⟨fun selector hmem => (h.1 selector hmem).1,
      fun selector hmem => (h.1 selector hmem).2, h.2⟩

/-- What a selector stands for, among names. -/
theorem mem_selectorNames_iff (hlib : lib.Letters) (rule : Rule O) {selector name : Text}
    (hselector : IsSelector selector) (hname : IsName name) :
    name ∈ lib.selectorNames rule selector ↔ lib.StandsFor rule selector name := by
  have hlower : lib.lower selector = selector.map Char.toLower := by
    refine hlib.lower selector fun c hc => ?_
    rcases hselector.chars c hc with hplain | rfl
    · exact toNat_lt_of_isPlainChar hplain
    · decide
  unfold Library.selectorNames Library.StandsFor selectorMatches
  by_cases hthem : selector = "them".toList
  · have hlow : lib.lower selector = "them".toList := by rw [hlower, hthem]; decide
    rw [if_pos hthem, if_pos hlow, if_pos hthem, List.mem_filter, Bool.not_eq_true',
      ← Bool.not_eq_true, List.isPrefixOf_iff_prefix]
  · rw [if_neg hthem, if_neg hthem]
    by_cases hstar : '*' ∈ selector
    · -- a selector with a star is no spelling of `them`
      have hlow : lib.lower selector ≠ "them".toList := by
        intro h
        rw [hlower] at h
        exact absurd (h ▸ List.mem_map_of_mem hstar) (by decide)
      rw [if_neg (not_not.mpr hstar), if_neg hlow, List.mem_filter]
      refine and_congr_right fun _ => Glob.run_eq_true_iff _ (fun c hc => ?_) fun r hr => ?_
      · refine decide_eq_true ?_
        rintro rfl
        exact absurd (hname.plain _ hc) (by decide)
      · rw [Bool.or_eq_true, decide_eq_true_eq, decide_eq_true_eq, or_iff_left_iff_imp]
        rintro rfl
        exact absurd (hname.plain _ (hr.subset (List.mem_singleton.mpr rfl))) (by decide)
    · have hletters : selector.map (fun c => if c = '*' then Glob.Piece.star else .lit c) =
          selector.map .lit := by
        refine List.map_congr_left fun c hc => if_neg ?_
        rintro rfl
        exact hstar hc
      rw [if_pos hstar, hletters, Glob.matches_letters_iff]
      have hcandidates : selector ∈ (if lib.lower selector = "them".toList then
          (lib.blockNames rule).filter fun name => !("filter".toList.isPrefixOf (lib.lower name))
          else lib.blockNames rule) ↔ selector ∈ lib.blockNames rule := by
        split_ifs with hlow
        · rw [List.mem_filter, hlow, and_iff_left_iff_imp]
          exact fun _ => by decide
        · rfl
      constructor
      · intro h
        by_cases hmem : selector ∈ lib.blockNames rule
        · rw [if_pos (hcandidates.mpr hmem)] at h
          obtain rfl := List.mem_singleton.mp h
          exact ⟨hmem, rfl⟩
        · rw [if_neg (mt hcandidates.mp hmem)] at h
          cases h
      · rintro ⟨hmem, rfl⟩
        rw [if_pos (hcandidates.mpr hmem)]
        exact List.mem_singleton.mpr rfl

/-- The leaves after a round are names, of the condition or of the selections. -/
theorem mem_expandTokens (hsome : ∀ selector ∈ selectors tokens, lib.selectorNames rule selector ≠ [])
    {leaf : Leaf} (h : .name leaf ∈ expandTokens lib rule tokens) : ∃ name, leaf = .plain name ∧
      (.name (.plain name) ∈ tokens ∨
        ∃ selector ∈ selectors tokens, name ∈ lib.selectorNames rule selector) := by
  obtain ⟨token, htoken, hleaf⟩ := List.mem_flatMap.mp h
  rcases token with - | - | o | ⟨name | ⟨one, selector⟩⟩
  · cases List.mem_singleton.mp hleaf
  · cases List.mem_singleton.mp hleaf
  · cases List.mem_singleton.mp hleaf
  · have heq : leaf = .plain name := Tok.name.inj (List.mem_singleton.mp hleaf)
    exact ⟨name, heq, .inl htoken⟩
  · have hmem := mem_selectors htoken
    obtain ⟨name, hname, rfl⟩ := mem_joined (hsome selector hmem) hleaf
    exact ⟨name, rfl, .inr ⟨selector, hmem, hname⟩⟩

/-- A spelled condition is not empty. -/
theorem Laid.ne_nil (hwell : WellFormed tokens) (hne : tokens ≠ []) (h : Laid before tokens t) :
    t ≠ [] := by
  cases h with
  | nil => exact absurd rfl hne
  | space => exact List.cons_ne_nil _ _
  | token _ hspells _ =>
    obtain ⟨c, s', rfl, -⟩ := hspells.head hwell.head
    exact List.cons_ne_nil _ _

/-- The second round changes nothing. -/
theorem expandRounds_laid (hlib : lib.Letters) (hlaid : Laid .free tokens t)
    (hwell : WellFormed tokens)
    (hselected : ∀ selector ∈ selectors tokens, ∀ name ∈ lib.selectorNames rule selector, IsName name)
    (hexpanded : lib.Within rule tokens → WellFormed (expandTokens lib rule tokens) ∧
      selectors (expandTokens lib rule tokens) = []) :
    (¬ lib.Within rule tokens ∧ (lib.expandRounds rule 8 t 0).2.isSome) ∨
      ∃ t', lib.Within rule tokens ∧ lib.expandRounds rule 8 t 0 = (t', none) ∧
        Laid .free (expandTokens lib rule tokens) t' := by
  have hround := expandOnce_laid hlib hlaid hwell hselected (Nat.le_refl t.length) 0
  rw [decide_eq_true rfl] at hround
  rcases hround with ⟨e, hcount, hresult⟩ | ⟨m, t', hcount, hresult, hlaid', -⟩
  · refine .inl ⟨fun h => ?_, ?_⟩
    · obtain ⟨m, hm⟩ := (within_iff tokens).mp h
      cases hcount.symm.trans hm
    · rw [Library.expandRounds, hresult]
      rfl
  · have hwithin : lib.Within rule tokens := (within_iff tokens).mpr ⟨m, hcount⟩
    obtain ⟨hwell', hnone⟩ := hexpanded hwithin
    refine .inr ⟨t', hwithin, ?_, hlaid'⟩
    rw [Library.expandRounds, hresult]
    dsimp only
    split_ifs with hsame
    · rw [hsame]
    · have hselected' : ∀ selector ∈ selectors (expandTokens lib rule tokens),
          ∀ name ∈ lib.selectorNames rule selector, IsName name := by
        intro selector hmem
        rw [hnone] at hmem
        cases hmem
      have hround := expandOnce_laid hlib hlaid' hwell' hselected' (Nat.le_refl t'.length) m
      rw [decide_eq_true rfl] at hround
      rcases hround with ⟨e, hcount, -⟩ | ⟨m', t'', -, hresult, -, hsame⟩
      · rw [countLeaves_of_selectors lib rule hnone] at hcount
        cases hcount
      · rw [Library.expandRounds, hresult, hsame hnone]
        dsimp only
        rw [if_pos rfl]

/-- The tokens of a text that spells a condition without quantifiers are evaluated right. -/
theorem eval_laid (hlib : lib.Letters) {c : Cond Leaf .sum} (hlaid : Laid .free c.tokens t)
    (hwell : WellFormed c.tokens) (hnone : selectors c.tokens = []) (hstraight : c.Straight) :
    ∃ rpn, lib.conditionRpn t = some rpn ∧ ∀ verdict : Text → Verdict,
      (eval verdictAlgebra SigmaError.indexError .valueError (fun name => .ok (verdict name)) rpn).map
          Verdict.matched =
        .ok (c.value boolAlgebra fun leaf => (verdict leaf.text).matched) := by
  have htokens : lib.conditionTokens t.length false t = (c.map Leaf.text).tokens := by
    rw [conditionTokens_laid hlib hlaid hwell hnone (Nat.le_refl _) fun _ => rfl, Cond.tokens_map]
  have hd : (c.map Leaf.text).Straight := (Cond.straight_map _ c).mpr hstraight
  refine ⟨(c.map Leaf.text).code, ?_, fun verdict => ?_⟩
  · rw [Library.conditionRpn, htokens, ← toRpn_tokens]
    rcases h : (c.map Leaf.text).tokens with - | ⟨token, tokens⟩
    · exact absurd h (Cond.tokens_ne_nil _)
    · rfl
  · have heval : (eval verdictAlgebra SigmaError.indexError .valueError
        (fun name => .ok (verdict name)) (c.map Leaf.text).code).map Verdict.matched =
        eval boolAlgebra SigmaError.indexError .valueError
          (fun name => .ok (verdict name).matched) (c.map Leaf.text).code :=
      (eval_map hom_matched _).symm
    rw [heval, eval_code, if_pos hd.lead, hd.reading_eq, Cond.value_map]

/-- A quantifier has the value of the group in its place. -/
theorem value_atom {v : Leaf → Bool} {leaf : Leaf}
    (hleaf : ∀ one selector, leaf = .quantified one selector → lib.selectorNames rule selector ≠ []) :
    (atom lib rule leaf).value boolAlgebra v =
      leafValue (lib.selectorNames rule) (fun name => v (.plain name)) leaf := by
  rcases leaf with name | ⟨one, selector⟩
  · rfl
  · exact value_joined one (hleaf one selector rfl) v

/-- **The expansion keeps the meaning of a condition.**  Its quantifiers range over the
selections they stand for. -/
theorem expansion_keeps_meaning (hlib : lib.Letters) (rule : Rule O) (c : Cond Leaf .sum)
    (hleaves : ∀ leaf, .name leaf ∈ c.tokens → leaf.Valid)
    (hselected : ∀ selector ∈ selectors c.tokens, ∀ name ∈ lib.selectorNames rule selector,
      IsName name)
    (hlaid : Laid .free c.tokens (lib.condition rule)) (hstraight : c.Straight) :
    (lib.Within rule c.tokens → lib.KeepsMeaning rule (lib.selectorNames rule) c) ∧
      (¬ lib.Within rule c.tokens → (lib.expandConditionTerms rule).2.isSome) ∧
      ∀ selector name, IsSelector selector → IsName name →
        (name ∈ lib.selectorNames rule selector ↔ lib.StandsFor rule selector name) := by
  have hwell := wellFormed_tokens c hleaves
  have htokens : expandTokens lib rule c.tokens = (c.subst (atom lib rule)).tokens :=
    (Cond.tokens_subst _ c).symm
  have hexpanded : lib.Within rule c.tokens → WellFormed (expandTokens lib rule c.tokens) ∧
        selectors (expandTokens lib rule c.tokens) = [] := by
    intro hwithin
    refine ⟨?_, selectors_eq_nil fun one selector h => ?_⟩
    · rw [htokens]
      refine wellFormed_tokens _ fun leaf hleaf => ?_
      rw [← htokens] at hleaf
      obtain ⟨name, rfl, hname | ⟨selector, hselector, hname⟩⟩ :=
        mem_expandTokens hwithin.some hleaf
      · exact hleaves _ hname
      · exact hselected selector hselector name hname
    · obtain ⟨name, hname, -⟩ := mem_expandTokens hwithin.some h
      cases hname
  have hcondition : lib.condition rule ≠ [] := hlaid.ne_nil hwell (Cond.tokens_ne_nil c)
  have hrounds := expandRounds_laid hlib hlaid hwell hselected hexpanded
  refine ⟨fun hwithin => ?_, fun hwithin => ?_, fun selector name hselector hname =>
    mem_selectorNames_iff hlib rule hselector hname⟩
  · obtain ⟨hwell', hnone⟩ := hexpanded hwithin
    rcases hrounds with ⟨h, -⟩ | ⟨t', -, hresult, hlaid'⟩
    · exact absurd hwithin h
    · have hleft := hasExpansion_laid hlib hlaid' hwell' hnone
      rw [decide_eq_true rfl] at hleft
      rw [htokens] at hlaid' hwell' hnone
      have hstraight' : (c.subst (atom lib rule)).Straight := hstraight.subst fun leaf => by
        rcases leaf with name | ⟨one, selector⟩
        · exact trivial
        · exact single_joined one _
      obtain ⟨rpn, hrpn, heval⟩ := eval_laid hlib hlaid' hwell' hnone hstraight'
      refine ⟨t', rpn, ?_, hrpn, fun verdict => ?_⟩
      · rw [Library.expandConditionTerms, if_neg hcondition, hresult]
        dsimp only
        rw [hleft, if_neg Bool.false_ne_true]
      · rw [heval, Cond.value_subst]
        refine congrArg _ (Cond.value_congr _ fun leaf hleaf => ?_)
        refine value_atom fun one selector hquantified => ?_
        subst hquantified
        exact hwithin.some selector (mem_selectors hleaf)
  · rcases hrounds with ⟨-, h⟩ | ⟨t', h, -⟩
    · rw [Library.expandConditionTerms, if_neg hcondition]
      rcases hresult : lib.expandRounds rule 8 (lib.condition rule) 0 with ⟨expanded, - | issue⟩
      · rw [hresult] at h
        cases h
      · rfl
    · exact absurd h hwithin

end Expansion

/-! ### Selections that filter -/

theorem asciiLibrary_letters : asciiLibrary.Letters where
  isAlnum _ _ := rfl
  sameLetter _ _ _ _ := rfl
  lower _ _ := rfl
  space_isAlnum c hc := by
    by_contra h
    have hspace := isSpace_of_isPlainChar
      (Bool.or_eq_true_iff.mpr (.inl ((Bool.not_eq_false _).mp h)))
    exact absurd (hc.symm.trans hspace) (by decide)
  space_sameLetter a c hc ha := by
    refine decide_eq_false fun h => ?_
    have hspace := isSpace_of_isPlainChar
      (Bool.or_eq_true_iff.mpr (.inl (Url.isAlphanum_of_toLower h ha)))
    exact absurd (hc.symm.trans hspace) (by decide)

/-- A rule with two selections and one that filters. -/
def filterRule (condition : String) : Rule Empty where
  logsource := []
  detection := (.str "condition".toList, .scalar (.str condition.toList)) ::
    ["sel_a", "sel_b", "filter_main"].map fun name => (.str name.toList,
      .map [(.str "CommandLine|contains".toList, .scalar (.str "mimikatz".toList))])
  detection_nodup := by simp [Scalar.text?]

/-- `1 of sel_* and not filter_main`. -/
def selNotFilter : Cond Leaf .sum :=
  .term (.and (.factor (.nots 0 (.name (.quantified true "sel_*".toList))))
    (.nots 1 (.name (.plain "filter_main".toList))))

theorem isName_of_plain {name : Text}
    (h : (name ≠ [] ∧ name.all isPlainChar = true) ∧ name.map Char.toLower ≠ opWord .or ∧
      name.map Char.toLower ≠ opWord .and ∧ name.map Char.toLower ≠ opWord .not) : IsName name :=
  ⟨h.1.1, List.all_eq_true.mp h.1.2, fun o => by
    rcases o with - | - | -
    exacts [h.2.1, h.2.2.1, h.2.2.2]⟩

theorem selNotFilter_keepsMeaning :
    asciiLibrary.KeepsMeaning (filterRule "1 of sel_* and not filter_main")
      (asciiLibrary.selectorNames (filterRule "1 of sel_* and not filter_main")) selNotFilter := by
  have hnames : asciiLibrary.selectorNames (filterRule "1 of sel_* and not filter_main")
      "sel_*".toList = ["sel_a".toList, "sel_b".toList] := by decide +kernel
  have hselectors : selectors selNotFilter.tokens = ["sel_*".toList] := rfl
  refine (expansion_keeps_meaning asciiLibrary_letters _ selNotFilter ?_ ?_ ?_ ?_).1 ?_
  · intro leaf hleaf
    simp only [selNotFilter, Cond.tokens, List.replicate_zero, List.nil_append, List.replicate_one,
      List.mem_append, List.mem_cons, List.not_mem_nil, or_false, Tok.name.injEq, reduceCtorEq,
      false_or] at hleaf
    rcases hleaf with rfl | rfl
    · exact ⟨by decide, fun c hc => of_decide_eq_true (List.all_eq_true.mp (by decide :
        ("sel_*".toList.all fun c => decide (isPlainChar c = true ∨ c = '*')) = true) c hc),
        by decide⟩
    · exact isName_of_plain (by decide)
  · rw [hselectors]
    intro selector hselector name hname
    obtain rfl := List.mem_singleton.mp hselector
    rw [hnames] at hname
    rcases List.mem_cons.mp hname with rfl | hname
    · exact isName_of_plain (by decide)
    · obtain rfl := List.mem_singleton.mp hname
      exact isName_of_plain (by decide)
  · have htext : asciiLibrary.condition (filterRule "1 of sel_* and not filter_main") =
        (['1'] ++ [' '] ++ "of".toList ++ [' '] ++ "sel_*".toList) ++ (' ' :: ("and".toList ++
          (' ' :: ("not".toList ++ (' ' :: ("filter_main".toList ++ [])))))) := by
      decide +kernel
    have hgap : IsGap [' '] := ⟨List.cons_ne_nil _ _, List.all_eq_true.mp (by decide)⟩
    have hspace : isSpace ' ' = true := by decide
    rw [htext]
    refine .token rfl ⟨['1'], [' '], "of".toList, [' '], by decide, hgap, by decide, hgap, rfl⟩ ?_
    refine .space hspace (.token rfl (show Spells (.op .and) "and".toList from ?_) ?_)
    · show "and".toList.map Char.toLower = opWord .and
      decide
    refine .space hspace (.token rfl (show Spells (.op .not) "not".toList from ?_) ?_)
    · show "not".toList.map Char.toLower = opWord .not
      decide
    exact .space hspace (.token rfl rfl (.nil _))
  · exact Cond.Single.straight ⟨⟨Nat.zero_le 1, trivial⟩, ⟨Nat.le_refl 1, trivial⟩⟩
  · refine ⟨?_, ?_, ?_⟩
    · rw [hselectors]
      intro selector hselector
      rw [List.mem_singleton.mp hselector, hnames]
      exact List.cons_ne_nil _ _
    · rw [hselectors]
      intro selector hselector
      rw [List.mem_singleton.mp hselector, hnames]
      decide
    · rw [hselectors, List.map_singleton, hnames]
      decide

/-- The selections that match a selector, all of them for `them`. -/
def Library.matchingNames {F O : Type} (lib : Library F O) (rule : Rule O) (selector : Text) :
    List Text := selectorMatches selector (lib.blockNames rule)

/-- **`all of them` does not ask for the selections that filter.** -/
theorem allOfThem_not_keepsMeaning : ¬ asciiLibrary.KeepsMeaning (filterRule "all of them")
      (asciiLibrary.matchingNames (filterRule "all of them"))
      (.term (.factor (.nots 0 (.name (.quantified false "them".toList))))) := by
  rintro ⟨expanded, rpn, hexpanded, hrpn, heval⟩
  have hresult : asciiLibrary.expandConditionTerms (filterRule "all of them") =
      ("(sel_a and sel_b)".toList, none) := by decide +kernel
  obtain rfl : "(sel_a and sel_b)".toList = expanded :=
    congrArg Prod.fst (hresult.symm.trans hexpanded)
  have hcode : asciiLibrary.conditionRpn "(sel_a and sel_b)".toList =
      some [.name "sel_a".toList, .name "sel_b".toList, .op .and] := by decide +kernel
  obtain rfl := Option.some.inj (hcode.symm.trans hrpn)
  have hvalue := heval fun name => ⟨name ≠ "filter_main".toList, [], []⟩
  have htrue : (Cond.term (.factor (.nots 0 (.name (Leaf.quantified false "them".toList))))).value
      boolAlgebra (leafValue (asciiLibrary.matchingNames (filterRule "all of them")) fun name =>
        decide (name ≠ "filter_main".toList)) = false := by decide +kernel
  exact absurd (hvalue.trans (congrArg Except.ok htrue)) (by decide +kernel)

end Kairon.Sigma

/-
Kairon/Lvm/Escape.lean

Which errors escape the metadata parser.

It promises a subclass of its own base error for whatever an image holds.  The
label, the descriptor lists, the metadata area and the checksums keep that
promise.  Five places do not: the UUID of the physical volume is decoded as
ASCII, the text as UTF-8, a run of digits goes to `int`, sections are parsed by
recursion, and one message prints a sum of extents, which may be too long to
print.  `parse_documented_iff` says exactly when none of them is hit.
-/
import Kairon.Lvm.Access

namespace Kairon.Lvm

open Search (Text isSpace)
open Settle

/-! ### Escaping errors -/

section

variable {α β : Type}

/-- An error that is none of the parser's own. -/
def Escapes (r : Except Failure α) : Prop := ∃ f, r = .error f ∧ ∀ e, f ≠ .metadata e

/-- A result or an error of the parser's own. -/
def Documented (r : Except Failure α) : Prop :=
  (∃ a, r = .ok a) ∨ ∃ e, r = .error (.metadata e)

theorem documented_iff_not_escapes (r : Except Failure α) : Documented r ↔ ¬ Escapes r := by
  cases r with
  | ok a => exact iff_of_true (.inl ⟨a, rfl⟩) (by simp [Escapes])
  | error f =>
    cases f with
    | metadata e =>
      refine iff_of_true (.inr ⟨e, rfl⟩) ?_
      rintro ⟨f, hf, hne⟩
      cases hf
      exact hne e rfl
    | unicodeDecodeError => exact iff_of_false (by simp [Documented]) (by simp [Escapes])
    | valueError | recursionError => exact iff_of_false (by simp [Documented]) (by simp [Escapes])

@[simp] theorem not_escapes_ok (a : α) : ¬ Escapes (.ok a : Except Failure α) := by
  simp [Escapes]

@[simp] theorem not_escapes_pure (a : α) : ¬ Escapes (pure a : Except Failure α) :=
  not_escapes_ok a

@[simp] theorem not_escapes_metadata (e : MetadataError) :
    ¬ Escapes (.error (.metadata e) : Except Failure α) := by
  rintro ⟨f, hf, hne⟩
  cases hf
  exact hne e rfl

@[simp] theorem not_escapes_malformed (fault : TextFault) :
    ¬ Escapes (malformed fault : Except Failure α) := not_escapes_metadata _

@[simp] theorem not_escapes_invalidLabel (fault : LabelFault) :
    ¬ Escapes (invalidLabel fault : Except Failure α) := not_escapes_metadata _

@[simp] theorem not_escapes_missingField (context : Context) (fault : FieldFault) :
    ¬ Escapes (missingField context fault : Except Failure α) := not_escapes_metadata _

@[simp] theorem not_escapes_inconsistent (context : Context) (fault : ConsistencyFault) :
    ¬ Escapes (inconsistent context fault : Except Failure α) := not_escapes_metadata _

@[simp] theorem escapes_unicode :
    Escapes (.error .unicodeDecodeError : Except Failure α) := ⟨_, rfl, by simp⟩

@[simp] theorem escapes_value : Escapes (.error .valueError : Except Failure α) :=
  ⟨_, rfl, by simp⟩

variable {f : α → Except Failure β}

/-- A step escapes, or the one before it returns and the rest escapes. -/
theorem escapes_bind {x : Except Failure α} :
    Escapes (x >>= f) ↔ Escapes x ∨ ∃ a, x = .ok a ∧ Escapes (f a) := by
  cases x with
  | error e => simp [Escapes, bind, Except.bind]
  | ok a => simp [bind, Except.bind]

theorem not_escapes_bind {x : Except Failure α} (hx : ¬ Escapes x)
    (hf : ∀ a, x = .ok a → ¬ Escapes (f a)) : ¬ Escapes (x >>= f) := by
  rw [escapes_bind]
  rintro (h | ⟨a, ha, h⟩)
  · exact hx h
  · exact hf a ha h

/-- A loop escapes at some element, and returns on those before it. -/
theorem escapes_mapM {as : List α} :
    Escapes (as.mapM f) ↔ ∃ before a after, as = before ++ a :: after ∧
      (∀ b ∈ before, ∃ v, f b = .ok v) ∧ Escapes (f a) := by
  induction as with
  | nil =>
    refine iff_of_false (by simp [pure, Except.pure]) ?_
    rintro ⟨before, a, after, h, -⟩
    simp at h
  | cons a as ih =>
    rw [List.mapM_cons, escapes_bind]
    constructor
    · rintro (h | ⟨v, hv, h⟩)
      · exact ⟨[], a, as, rfl, by simp, h⟩
      · obtain h | ⟨vs, -, h⟩ := escapes_bind.1 h
        · obtain ⟨before, b, after, rfl, hbefore, hb⟩ := ih.1 h
          refine ⟨a :: before, b, after, rfl, ?_, hb⟩
          intro c hc
          obtain rfl | hc := List.mem_cons.1 hc
          · exact ⟨v, hv⟩
          · exact hbefore c hc
        · exact absurd h (not_escapes_pure _)
    · rintro ⟨before, b, after, h, hbefore, hb⟩
      cases before with
      | nil =>
        cases h
        exact .inl hb
      | cons c before =>
        cases h
        obtain ⟨v, hv⟩ := hbefore a (by simp)
        refine .inr ⟨v, hv, escapes_bind.2 (.inl (ih.2 ?_))⟩
        exact ⟨before, b, after, rfl, fun d hd => hbefore d (by simp [hd]), hb⟩

end

/-! ### The fixed structures -/

theorem not_escapes_scanLabel (firstSectors : Bytes) (numbers : List ℕ)
    (last : Option LabelFault) : ¬ Escapes (scanLabel firstSectors numbers last) := by
  induction numbers generalizing last with
  | nil => simp [scanLabel]
  | cons number numbers ih =>
    rw [scanLabel]
    split
    · simp
    · split
      · simp
      · exact ih _

theorem not_escapes_parseDiskLocations (n : ℕ) (data : Bytes) :
    ¬ Escapes (parseDiskLocations n data) := by
  induction n generalizing data with
  | zero => simp [parseDiskLocations]
  | succ n ih =>
    rw [parseDiskLocations]
    split
    · simp
    split
    · simp
    · exact not_escapes_bind (ih _) fun a _ => by simp

/-- The header escapes on a UUID that is not ASCII. -/
theorem escapes_parsePvHeader (header : Bytes) : Escapes (parsePvHeader header) ↔
      56 ≤ header.length ∧ ∃ b ∈ header.take 32, 128 ≤ b := by
  rw [parsePvHeader]
  by_cases hshort : header.length < 56
  · rw [if_pos hshort]
    exact iff_of_false (by simp) (by omega)
  rw [if_neg hshort, escapes_bind]
  constructor
  · rintro (h | ⟨uuid, -, h⟩)
    · rw [formatLvmUuid] at h
      split at h
      · rename_i hany
        exact ⟨by omega, by simpa using hany⟩
      · dsimp only at h
        split at h
        · exact absurd h (by simp)
        · exact absurd h (by simp)
    · -- behind the uuid nothing is decoded
      refine absurd h (not_escapes_bind (not_escapes_parseDiskLocations _ _) fun a _ => ?_)
      refine not_escapes_bind (not_escapes_parseDiskLocations _ _) fun b _ => ?_
      obtain ⟨areas, rest⟩ := b
      cases areas with
      | nil => simp
      | cons area areas => simp
  · rintro ⟨-, hbyte⟩
    left
    rw [formatLvmUuid, if_pos (by simpa using hbyte)]
    simp

theorem not_escapes_parseMdaHeader (mda : Bytes) : ¬ Escapes (parseMdaHeader mda) := by
  rw [parseMdaHeader]
  split
  · simp
  split
  · simp
  split
  · simp
  split
  · simp
  dsimp only
  split
  · simp
  · simp

theorem not_escapes_readMetadataText (read : ℤ → ℤ → Bytes) (header : PhysicalVolumeHeader) :
    ¬ Escapes (readMetadataText read header) := by
  rw [readMetadataText.eq_def]
  split
  · simp
  refine not_escapes_bind (not_escapes_parseMdaHeader _) fun mda _ => ?_
  split
  · simp
  split
  · simp
  refine not_escapes_bind ?_ fun location _ => not_escapes_bind ?_ fun _ _ => by simp
  · rw [selectActiveLocation]
    split
    · simp
    split
    · simp
    · simp
  · rw [verifyMetadataTextChecksum]
    split
    · simp
    · simp

/-! ### Numbers of the text -/

section

variable (py : Interpreter)

/-- A run of digits begins here, and `int` does not read it. -/
def Interpreter.BadNumberAt (c : Char) (t : Text) : Prop :=
  punctuation c = none ∧ c ≠ '"' ∧
    (py.isDigit c = true ∨ (c = '-' ∧ t.head?.any py.isDigit = true)) ∧
    c :: t.takeWhile py.isDigit ≠ ['-'] ∧ py.parseInt (c :: t.takeWhile py.isDigit) = none

/-- The tokenizer comes from one place of a text to another. -/
inductive Interpreter.Scans : Text → Text → Prop
  | here (t : Text) : Scans t t
  | space {c : Char} {t rest : Text} (hc : isSpace c = true) (h : Scans t rest) :
      Scans (c :: t) rest
  | comment {t rest : Text} (hc : isSpace '#' = false) (h : Scans (afterLine t) rest) :
      Scans ('#' :: t) rest
  | token {c : Char} {t t' rest : Text} {token : Token} (hc : isSpace c = false) (hne : c ≠ '#')
      (htoken : py.nextToken c t = .ok (token, t')) (h : Scans t' rest) : Scans (c :: t) rest

/-- The tokenizer comes to a run of digits that `int` does not read. -/
def Interpreter.BadNumber (text : Text) : Prop :=
  ∃ c t, py.Scans text (c :: t) ∧ isSpace c = false ∧ c ≠ '#' ∧ py.BadNumberAt c t

end

theorem not_escapes_readString (t : Text) : ¬ Escapes (readString t) := by
  induction t using readString.induct with
  | case1 | case2 => simp [readString]
  | case3 c t ih =>
    rw [readString]
    exact not_escapes_bind ih fun a _ => by simp
  | case4 t => simp [readString]
  | case5 c t h1 h2 h3 ih =>
    rw [readString]
    · exact not_escapes_bind ih fun a _ => by simp
    · exact h1
    · exact h2
    · exact h3

theorem length_readString {t s rest : Text} (h : readString t = .ok (s, rest)) :
    rest.length ≤ t.length := by
  induction t using readString.induct generalizing s rest with
  | case1 => cases h
  | case2 => cases h
  | case3 c t ih =>
    rw [readString] at h
    obtain ⟨⟨s', rest'⟩, hread, h⟩ := bind_eq_ok.1 h
    cases h
    have hlen := ih hread
    simp only [List.length_cons]
    omega
  | case4 t =>
    cases h
    simp
  | case5 c t h1 h2 h3 ih =>
    rw [readString] at h
    · obtain ⟨⟨s', rest'⟩, hread, h⟩ := bind_eq_ok.1 h
      cases h
      have hlen := ih hread
      simp only [List.length_cons]
      omega
    · exact h1
    · exact h2
    · exact h3

section

variable {py : Interpreter}

theorem escapes_intToken (raw : Text) (hne : raw ≠ []) :
    Escapes (py.intToken raw) ↔ raw ≠ ['-'] ∧ py.parseInt raw = none := by
  rw [Interpreter.intToken]
  by_cases hminus : raw = ['-']
  · simp [hminus]
  · rw [if_neg (by simp [hne, hminus])]
    cases py.parseInt raw with
    | none => simp [hminus]
    | some n => simp

theorem escapes_nextToken (c : Char) (t : Text) :
    Escapes (py.nextToken c t) ↔ py.BadNumberAt c t := by
  rw [Interpreter.nextToken, Interpreter.BadNumberAt]
  cases punctuation c with
  | some token => simp
  | none =>
    by_cases hquote : c = '"'
    · rw [if_pos hquote]
      refine iff_of_false (not_escapes_bind (not_escapes_readString t) fun a _ => by simp) ?_
      exact fun h => h.2.1 hquote
    · rw [if_neg hquote]
      by_cases hdigit : py.isDigit c = true ∨ (c = '-' ∧ t.head?.any py.isDigit = true)
      · rw [if_pos hdigit, escapes_bind, escapes_intToken _ (by simp)]
        simp [hquote, hdigit]
      · rw [if_neg hdigit]
        refine iff_of_false ?_ fun h => hdigit h.2.2.1
        by_cases hident : isIdentChar c = true
        · rw [if_pos hident]
          exact not_escapes_ok _
        · rw [if_neg hident]
          exact not_escapes_malformed _

theorem length_nextToken {c : Char} {t rest : Text} {token : Token}
    (h : py.nextToken c t = .ok (token, rest)) : rest.length ≤ t.length := by
  rw [Interpreter.nextToken] at h
  split at h
  · cases h
    exact le_rfl
  split at h
  · obtain ⟨⟨s, rest'⟩, hread, h⟩ := bind_eq_ok.1 h
    cases h
    exact length_readString hread
  split at h
  · obtain ⟨token', -, h⟩ := bind_eq_ok.1 h
    cases h
    exact (List.dropWhile_sublist _).length_le
  split at h
  · cases h
    exact (List.dropWhile_sublist _).length_le
  · cases h

theorem length_afterLine (t : Text) : (afterLine t).length ≤ t.length := by
  rw [afterLine, List.length_tail]
  have h : (t.dropWhile fun c => decide (c ≠ '\n')).length ≤ t.length :=
    (List.dropWhile_sublist _).length_le
  omega

/-- The tokenizer escapes exactly on a number that `int` does not read. -/
theorem escapes_tokens {n : ℕ} {text : Text} (hn : text.length ≤ n) :
    Escapes (py.tokens n text) ↔ py.BadNumber text := by
  induction n generalizing text with
  | zero =>
    obtain rfl : text = [] := List.length_eq_zero_iff.1 (by omega)
    refine iff_of_false (by simp [Interpreter.tokens]) ?_
    rintro ⟨c, t, hscan, -⟩
    cases hscan
  | succ n ih =>
    cases text with
    | nil =>
      refine iff_of_false (by simp [Interpreter.tokens]) ?_
      rintro ⟨c, t, hscan, -⟩
      cases hscan
    | cons c t =>
      have hlen : t.length ≤ n := by simpa using hn
      rw [Interpreter.tokens]
      by_cases hspace : isSpace c = true
      · rw [if_pos hspace, ih hlen]
        constructor
        · rintro ⟨c', t', hscan, hrest⟩
          exact ⟨c', t', .space hspace hscan, hrest⟩
        · rintro ⟨c', t', hscan, hrest⟩
          cases hscan with
          | here => exact absurd hspace (by simp [hrest.1])
          | space _ h => exact ⟨c', t', h, hrest⟩
          | comment hc _ | token hc _ _ _ => exact absurd hspace (by simp [hc])
      rw [if_neg hspace]
      have hspace' : isSpace c = false := by simpa using hspace
      by_cases hhash : c = '#'
      · subst hhash
        rw [if_pos rfl, ih ((length_afterLine t).trans hlen)]
        constructor
        · rintro ⟨c', t', hscan, hrest⟩
          exact ⟨c', t', .comment hspace' hscan, hrest⟩
        · rintro ⟨c', t', hscan, hrest⟩
          cases hscan with
          | here => exact absurd rfl hrest.2.1
          | space hc _ => exact absurd hc hspace
          | comment _ h => exact ⟨c', t', h, hrest⟩
          | token _ hne _ _ => exact absurd rfl hne
      · rw [if_neg hhash, escapes_bind, escapes_nextToken]
        constructor
        · rintro (hbad | ⟨⟨token, rest⟩, htoken, h⟩)
          · exact ⟨c, t, .here _, hspace', hhash, hbad⟩
          · obtain h | ⟨tail, -, h⟩ := escapes_bind.1 h
            · obtain ⟨c', t', hscan, hrest⟩ :=
                (ih ((length_nextToken htoken).trans hlen)).1 h
              exact ⟨c', t', .token hspace' hhash htoken hscan, hrest⟩
            · exact absurd h (not_escapes_pure _)
        · rintro ⟨c', t', hscan, hrest⟩
          cases hscan with
          | here => exact .inl hrest.2.2
          | space hc _ => exact absurd hc hspace
          | comment _ _ => exact absurd rfl hhash
          | token _ _ htoken h =>
            refine .inr ⟨_, htoken, escapes_bind.2 (.inl ?_)⟩
            exact (ih ((length_nextToken htoken).trans hlen)).2 ⟨c', t', h, hrest⟩

end

/-! ### Nested sections -/

/-- The parser comes to the opening of one section more than there is room
for.  The second argument counts the sections that are open. -/
inductive TooDeep (room : ℕ) : ℕ → List Token → Prop
  | here {name : Text} {rest : List Token} : TooDeep room room (.ident name :: .lbrace :: rest)
  | assign {depth : ℕ} {name : Text} {value : ConfigValue} {rest rest' : List Token}
      (hvalue : parseValue rest = .ok (value, rest')) (h : TooDeep room depth rest') :
      TooDeep room depth (.ident name :: .equals :: rest)
  | opens {depth : ℕ} {name : Text} {rest : List Token} (h : TooDeep room (depth + 1) rest) :
      TooDeep room depth (.ident name :: .lbrace :: rest)
  | closes {depth : ℕ} {rest : List Token} (h : TooDeep room depth rest) :
      TooDeep room (depth + 1) (.rbrace :: rest)

/-- A step of the parser fails in a documented way or returns with at most so
many tokens left. -/
def Shrinks {α : Type} (bound : ℕ) (r : Except Failure (α × List Token)) : Prop :=
  ¬ Escapes r ∧ ∀ a rest, r = .ok (a, rest) → rest.length ≤ bound

section

variable {α β : Type} {bound : ℕ}

theorem shrinks_malformed (fault : TextFault) :
    Shrinks bound (malformed fault : Except Failure (α × List Token)) :=
  ⟨not_escapes_malformed fault, fun _ _ h => by cases h⟩

theorem shrinks_ok {a : α} {rest : List Token} (h : rest.length ≤ bound) :
    Shrinks bound (.ok (a, rest)) := by
  refine ⟨not_escapes_ok _, fun a' rest' h' => ?_⟩
  cases h'
  exact h

theorem Shrinks.map {r : Except Failure (α × List Token)} {k : ℕ} (h : Shrinks k r)
    (hk : k ≤ bound) (f : α → β) : Shrinks bound (r >>= fun p => pure (f p.1, p.2)) := by
  refine ⟨not_escapes_bind h.1 fun p _ => not_escapes_pure _, fun b rest hr => ?_⟩
  obtain ⟨⟨a, rest'⟩, hrest, hr⟩ := bind_eq_ok.1 hr
  cases hr
  exact (h.2 _ _ hrest).trans hk

end

theorem shrinks_parseElements (tokens : List Token) :
    Shrinks tokens.length (parseElements tokens) := by
  induction tokens using parseElements.induct with
  | case1 => exact shrinks_malformed _
  | case2 n rest => exact shrinks_ok (by simp only [List.length_cons]; omega)
  | case3 n rest ih => exact ih.map (by simp only [List.length_cons]; omega) _
  | case4 s rest => exact shrinks_ok (by simp only [List.length_cons]; omega)
  | case5 s rest ih => exact ih.map (by simp only [List.length_cons]; omega) _
  | case6 | case7 => exact shrinks_malformed _
  | case8 | case9 | case10 =>
    rw [parseElements]
    · exact shrinks_malformed _
    all_goals assumption

theorem shrinks_parseValue (tokens : List Token) : Shrinks tokens.length (parseValue tokens) := by
  rw [parseValue.eq_def]
  split
  · exact shrinks_ok (by simp)
  · exact shrinks_ok (by simp)
  · exact shrinks_ok (by simp only [List.length_cons]; omega)
  · exact (shrinks_parseElements _).map (by simp) _
  · exact shrinks_malformed _
  · exact shrinks_malformed _

/-- What the result of a section says about the room: with `depth` sections
open, the parser runs out of it exactly if the result is no documented one, and
where it returns, exactly if it does behind the section. -/
def Fits (room depth : ℕ) (tokens : List Token) (r : Except Failure (Section × List Token)) :
    Prop :=
  (Escapes r → TooDeep room depth tokens) ∧
    (∀ e, r = .error (.metadata e) → ¬ TooDeep room depth tokens) ∧
      ∀ entries rest, r = .ok (entries, rest) → (rest = [] ∨ ∃ t, rest = .rbrace :: t) ∧
        rest.length ≤ tokens.length ∧ (TooDeep room depth tokens ↔ TooDeep room depth rest)

variable {room depth : ℕ}

variable {tokens : List Token}

theorem fits_malformed (h : ¬ TooDeep room depth tokens)
    (fault : TextFault) : Fits room depth tokens (malformed fault) :=
  ⟨fun hesc => absurd hesc (not_escapes_malformed fault), fun _ _ => h, fun _ _ hr => by cases hr⟩

theorem Fits.of_iff {tokens rest : List Token}
    {r : Except Failure (Section × List Token)} (h : Fits room depth rest r)
    (hlen : rest.length ≤ tokens.length)
    (hiff : TooDeep room depth tokens ↔ TooDeep room depth rest) : Fits room depth tokens r := by
  refine ⟨fun hesc => hiff.2 (h.1 hesc), fun e he => mt hiff.1 (h.2.1 e he), ?_⟩
  intro entries rest' hr
  obtain ⟨hend, hle, hrest⟩ := h.2.2 entries rest' hr
  exact ⟨hend, hle.trans hlen, hiff.trans hrest⟩

theorem fits_ok (entries : Section) (h : tokens = [] ∨ ∃ t, tokens = .rbrace :: t) :
    Fits room depth tokens (.ok (entries, tokens)) := by
  refine ⟨fun hesc => absurd hesc (not_escapes_ok _), fun e he => (by cases he), ?_⟩
  intro entries' rest hr
  cases hr
  exact ⟨h, le_rfl, Iff.rfl⟩

variable {rest : List Token}

theorem tooDeep_opens {name : Text} : TooDeep room depth (.ident name :: .lbrace :: rest) ↔
      depth = room ∨ TooDeep room (depth + 1) rest := by
  constructor
  · intro h
    cases h with
    | here => exact .inl rfl
    | opens h => exact .inr h
  · rintro (rfl | h)
    · exact .here
    · exact .opens h

theorem tooDeep_assign {name : Text} {value : ConfigValue}
    {rest rest' : List Token} (hvalue : parseValue rest = .ok (value, rest')) :
    TooDeep room depth (.ident name :: .equals :: rest) ↔ TooDeep room depth rest' := by
  constructor
  · intro h
    cases h with
    | assign hvalue' h =>
      rw [hvalue] at hvalue'
      cases hvalue'
      exact h
  · exact .assign hvalue

theorem tooDeep_closes : TooDeep room (depth + 1) (.rbrace :: rest) ↔ TooDeep room depth rest := by
  constructor
  · intro h
    cases h with
    | closes h => exact h
  · exact .closes

/-- A statement with a value keeps the sections that are open. -/
theorem fits_assign {name : Text}
    {next : ConfigValue × List Token → Except Failure (Section × List Token)}
    (hnext : ∀ value rest', rest'.length ≤ rest.length →
      Fits room depth rest' (next (value, rest'))) :
    Fits room depth (.ident name :: .equals :: rest) (parseValue rest >>= next) := by
  obtain ⟨hesc, hshrinks⟩ := shrinks_parseValue rest
  cases hvalue : parseValue rest with
  | ok p =>
    obtain ⟨value, rest'⟩ := p
    have hlen := hshrinks value rest' hvalue
    refine (hnext value rest' hlen).of_iff ?_ (tooDeep_assign hvalue)
    simp only [List.length_cons]
    omega
  | error f =>
    have hstuck : ¬ TooDeep room depth (.ident name :: .equals :: rest) := by
      intro h
      cases h with
      | assign hvalue' h => simp [hvalue] at hvalue'
    rw [hvalue] at hesc
    refine ⟨fun h => absurd (escapes_bind.1 h) ?_, fun _ _ => hstuck, fun _ _ h => by cases h⟩
    rintro (h | ⟨a, h, -⟩)
    · exact hesc h
    · cases h

/-- A section inside: its own statements with one more section open, then the
brace, then the statements behind it. -/
theorem fits_body {name : Text} {inner : Except Failure (Section × List Token)}
    {next : Section → List Token → Except Failure (Section × List Token)}
    (hdepth : depth ≠ room) (hinner : Fits room (depth + 1) rest inner)
    (hnext : ∀ nested rest', rest'.length ≤ rest.length →
      Fits room depth rest' (next nested rest')) :
    Fits room depth (.ident name :: .lbrace :: rest) (do
      let (nested, rest) ← inner
      let rest ← expectBrace rest
      next nested rest) := by
  have hopens : TooDeep room depth (.ident name :: .lbrace :: rest) ↔
      TooDeep room (depth + 1) rest := by simp [tooDeep_opens, hdepth]
  cases inner with
  | error f =>
    refine ⟨fun h => ?_, fun e he => ?_, fun _ _ h => by cases h⟩
    · obtain ⟨g, hg, hne⟩ := h
      cases hg
      exact hopens.2 (hinner.1 ⟨f, rfl, hne⟩)
    · cases he
      exact mt hopens.1 (hinner.2.1 e rfl)
  | ok p =>
    obtain ⟨nested, rest'⟩ := p
    obtain ⟨hend, hlen, hiff⟩ := hinner.2.2 nested rest' rfl
    obtain rfl | ⟨t, rfl⟩ := hend
    · refine fits_malformed ?_ _
      rw [hopens, hiff]
      intro h
      cases h
    · rw [tooDeep_closes] at hiff
      rw [List.length_cons] at hlen
      refine (hnext nested t (by omega)).of_iff ?_ (hopens.trans hiff)
      simp only [List.length_cons]
      omega

/-- The parser of a section runs out of room exactly where `TooDeep` says.  By
induction on the bound of the tokens: a section inside is parsed with one more
open, and the statements behind it with the same room again. -/
theorem fits_parseStatements {n free room depth : ℕ} {entries : Section}
    (hn : tokens.length ≤ n) (hroom : depth + free = room) :
    Fits room depth tokens (parseStatements n free entries tokens) := by
  induction n generalizing free depth entries tokens with
  | zero =>
    obtain rfl : tokens = [] := List.length_eq_zero_iff.1 (by omega)
    exact fits_ok entries (.inl rfl)
  | succ n ih =>
    cases tokens with
    | nil => exact fits_ok entries (.inl rfl)
    | cons token rest =>
      rw [List.length_cons] at hn
      cases token with
      | ident name =>
        cases rest with
        | nil => exact fits_malformed (fun h => by cases h) _
        | cons second rest =>
          rw [List.length_cons] at hn
          cases second with
          | equals =>
            exact fits_assign fun value rest' hlen => ih (by omega) hroom
          | lbrace =>
            cases free with
            | zero =>
              obtain rfl : depth = room := by omega
              refine ⟨fun _ => .here, fun e he => ?_, fun entries' rest' h => ?_⟩
              · cases he
              · cases h
            | succ free =>
              have hinner : Fits room (depth + 1) rest
                  (parseStatements n free [] rest) := ih (by omega) (by omega)
              have hnext : ∀ nested (rest' : List Token),
                  rest'.length ≤ rest.length → Fits room depth rest'
                    (parseStatements n (free + 1)
                      (Dict.set name (.body nested) entries) rest') :=
                fun nested rest' hlen => ih (by omega) hroom
              exact fits_body (by omega) hinner hnext
          | ident | int | string | rbrace | lbracket | rbracket | comma =>
            exact fits_malformed (fun h => by cases h) _
      | rbrace => exact fits_ok entries (.inr ⟨rest, rfl⟩)
      | int | string | lbrace | lbracket | rbracket | equals | comma =>
        exact fits_malformed (fun h => by cases h) _

/-- The document escapes exactly on sections nested too deep. -/
theorem escapes_parseDocument (room : ℕ) (tokens : List Token) :
    Escapes (parseDocument room tokens) ↔ TooDeep room 0 tokens := by
  have hfits : Fits room 0 tokens (parseStatements tokens.length room [] tokens) :=
    fits_parseStatements le_rfl (by omega)
  rw [parseDocument, escapes_bind]
  constructor
  · rintro (h | ⟨⟨entries, rest⟩, -, h⟩)
    · exact hfits.1 h
    · cases rest with
      | nil => exact absurd h (not_escapes_pure _)
      | cons token rest => exact absurd h (not_escapes_malformed _)
  · intro hdeep
    left
    rcases hr : parseStatements tokens.length room [] tokens with f | ⟨entries, rest⟩
    · refine ⟨f, rfl, ?_⟩
      rintro e rfl
      exact hfits.2.1 e hr hdeep
    · obtain ⟨hend, -, hiff⟩ := hfits.2.2 entries rest hr
      have hrest := hiff.1 hdeep
      obtain rfl | ⟨t, rfl⟩ := hend
      · cases hrest
      · cases hrest

/-! ### The volume group -/

/-- The first place where segments do not follow each other: the extent that is
expected, and the one that is found. -/
def firstGap : ℤ → List LinearSegment → Option (ℤ × ℤ)
  | _, [] => none
  | expected, s :: ss =>
    if s.startExtent ≠ expected then some (expected, s.startExtent)
    else firstGap (expected + s.extentCount) ss

section

variable (py : Interpreter)

/-- The segments of an entry are read, and the message about their first gap
cannot be printed. -/
def Interpreter.UnprintableGap (knownPvNames : List Text) (entry : Text × ConfigValue) : Prop :=
  ∃ body id count segments gap, entry.2.body? = some body ∧
    requireString (.logicalVolume entry.1) body "id" = .ok id ∧
    requireInt (.logicalVolume entry.1) body "segment_count" = .ok count ∧ 0 < count ∧
    buildSegments entry.1 body knownPvNames 1 count.toNat = .ok segments ∧
    firstGap 0 (sortSegments segments) = some gap ∧
    ¬ (py.printable gap.1 = true ∧ py.printable gap.2 = true)

/-- The document declares a logical volume with such a gap, behind others that
are built. -/
def Interpreter.BadMessage (document : Section) : Prop :=
  ∃ vgName vgBody id extentSize physicalVolumes before entry after,
    findVolumeGroupSection document = .ok (vgName, vgBody) ∧
    requireString (.volumeGroup vgName) vgBody "id" = .ok id ∧
    requireInt (.volumeGroup vgName) vgBody "extent_size" = .ok extentSize ∧ 0 < extentSize ∧
    buildPhysicalVolumes vgBody vgName (extentSize * 512) = .ok physicalVolumes ∧
    requireSection (.volumeGroup vgName) vgBody "logical_volumes" = .ok (before ++ entry :: after) ∧
    (∀ e ∈ before, ∃ lv,
      py.buildLogicalVolume (physicalVolumes.map PhysicalVolume.name) e = .ok lv) ∧
    py.UnprintableGap (physicalVolumes.map PhysicalVolume.name) entry

end

theorem not_escapes_requireAs {α : Type} (read : ConfigValue → Option α) (context : Context)
    (entries : Section) (key : String) : ¬ Escapes (requireAs read context entries key) := by
  rw [requireAs]
  split
  · simp
  · split
    · simp
    · simp

theorem not_escapes_requireInt (context : Context) (entries : Section) (key : String) :
    ¬ Escapes (requireInt context entries key) := not_escapes_requireAs _ _ _ _

theorem not_escapes_requireString (context : Context) (entries : Section) (key : String) :
    ¬ Escapes (requireString context entries key) := not_escapes_requireAs _ _ _ _

theorem not_escapes_requireSection (context : Context) (entries : Section) (key : String) :
    ¬ Escapes (requireSection context entries key) := not_escapes_requireAs _ _ _ _

theorem not_escapes_findVolumeGroupSection (document : Section) :
    ¬ Escapes (findVolumeGroupSection document) := by
  rw [findVolumeGroupSection]
  split
  · simp
  · simp
  · simp

theorem not_escapes_buildPhysicalVolumes (vgBody : Section) (vgName : Text) (extentSize : ℤ) :
    ¬ Escapes (buildPhysicalVolumes vgBody vgName extentSize) := by
  rw [buildPhysicalVolumes]
  refine not_escapes_bind (not_escapes_requireSection _ _ _) fun entries _ => ?_
  refine not_escapes_bind ?_ fun volumes _ => ?_
  · rw [escapes_mapM]
    rintro ⟨before, entry, after, -, -, h⟩
    revert h
    rw [buildPhysicalVolume]
    split
    · simp
    refine not_escapes_bind (not_escapes_requireString _ _ _) fun id _ => ?_
    refine not_escapes_bind (not_escapes_requireInt _ _ _) fun devSize _ => ?_
    refine not_escapes_bind (not_escapes_requireInt _ _ _) fun peStart _ => ?_
    refine not_escapes_bind (not_escapes_requireInt _ _ _) fun peCount _ => ?_
    split
    · simp
    · simp
  · cases volumes with
    | nil => simp
    | cons pv pvs => simp

theorem not_escapes_buildLinearSegment (lvName : Text) (index : ℕ) (body : Section)
    (knownPvNames : List Text) : ¬ Escapes (buildLinearSegment lvName index body knownPvNames) := by
  rw [buildLinearSegment]
  refine not_escapes_bind (not_escapes_requireInt _ _ _) fun startExtent _ => ?_
  refine not_escapes_bind (not_escapes_requireInt _ _ _) fun extentCount _ => ?_
  refine not_escapes_bind (not_escapes_requireString _ _ _) fun segmentType _ => ?_
  refine not_escapes_bind (not_escapes_requireInt _ _ _) fun stripeCount _ => ?_
  split
  · simp
  split
  · simp
  split
  · simp
  split
  · simp
  split
  · simp
  split
  · simp
  split
  · simp
  · simp

theorem not_escapes_buildSegments (lvName : Text) (lvBody : Section) (knownPvNames : List Text)
    (index count : ℕ) : ¬ Escapes (buildSegments lvName lvBody knownPvNames index count) := by
  induction count generalizing index with
  | zero => simp [buildSegments]
  | succ count ih =>
    rw [buildSegments]
    split
    · simp
    refine not_escapes_bind (not_escapes_buildLinearSegment _ _ _ _) fun s _ => ?_
    exact not_escapes_bind (ih _) fun ss _ => not_escapes_pure _

section

variable {py : Interpreter}

theorem escapes_checkContiguous (lvName : Text) (expected : ℤ) (segments : List LinearSegment) :
    Escapes (py.checkContiguous lvName expected segments) ↔
      ∃ gap, firstGap expected segments = some gap ∧
        ¬ (py.printable gap.1 = true ∧ py.printable gap.2 = true) := by
  induction segments generalizing expected with
  | nil => simp [Interpreter.checkContiguous, firstGap]
  | cons s ss ih =>
    rw [Interpreter.checkContiguous, firstGap]
    by_cases hgap : s.startExtent ≠ expected
    · rw [if_pos hgap, if_pos hgap]
      split
      · rename_i hprint
        refine iff_of_false (not_escapes_inconsistent _ _) ?_
        rintro ⟨gap, hgap', hnot⟩
        cases hgap'
        exact hnot hprint
      · rename_i hprint
        exact iff_of_true escapes_value ⟨_, rfl, hprint⟩
    · rw [if_neg hgap, if_neg hgap]
      exact ih _

theorem escapes_buildLogicalVolume (knownPvNames : List Text) (entry : Text × ConfigValue) :
    Escapes (py.buildLogicalVolume knownPvNames entry) ↔ py.UnprintableGap knownPvNames entry := by
  rw [Interpreter.buildLogicalVolume]
  constructor
  · intro h
    split at h
    · exact absurd h (not_escapes_malformed _)
    rename_i body hbody
    obtain h | ⟨id, hid, h⟩ := escapes_bind.1 h
    · exact absurd h (not_escapes_requireString _ _ _)
    obtain h | ⟨count, hcount, h⟩ := escapes_bind.1 h
    · exact absurd h (not_escapes_requireInt _ _ _)
    split at h
    · exact absurd h (not_escapes_missingField _ _)
    rename_i hpos
    obtain h | ⟨segments, hsegments, h⟩ := escapes_bind.1 h
    · exact absurd h (not_escapes_buildSegments _ _ _ _ _)
    obtain h | ⟨_, -, h⟩ := escapes_bind.1 h
    · obtain ⟨gap, hgap, hprint⟩ := (escapes_checkContiguous _ _ _).1 h
      exact ⟨body, id, count, segments, gap, hbody, hid, hcount, by omega, hsegments, hgap, hprint⟩
    · exact absurd h (not_escapes_pure _)
  · rintro ⟨body, id, count, segments, gap, hbody, hid, hcount, hpos, hsegments, hgap⟩
    rw [hbody]
    dsimp only
    refine escapes_bind.2 (.inr ⟨id, hid, escapes_bind.2 (.inr ⟨count, hcount, ?_⟩)⟩)
    rw [if_neg (by omega)]
    refine escapes_bind.2 (.inr ⟨segments, hsegments, escapes_bind.2 (.inl ?_)⟩)
    exact (escapes_checkContiguous _ _ _).2 ⟨gap, hgap⟩

theorem escapes_buildVolumeGroup (document : Section) (area : MetadataArea) :
    Escapes (py.buildVolumeGroup document area) ↔ py.BadMessage document := by
  rw [Interpreter.buildVolumeGroup]
  constructor
  · intro h
    obtain h | ⟨⟨vgName, vgBody⟩, hfind, h⟩ := escapes_bind.1 h
    · exact absurd h (not_escapes_findVolumeGroupSection _)
    obtain h | ⟨id, hid, h⟩ := escapes_bind.1 h
    · exact absurd h (not_escapes_requireString _ _ _)
    obtain h | ⟨extentSize, hsize, h⟩ := escapes_bind.1 h
    · exact absurd h (not_escapes_requireInt _ _ _)
    split at h
    · exact absurd h (not_escapes_inconsistent _ _)
    rename_i hpos
    obtain h | ⟨pvs, hpvs, h⟩ := escapes_bind.1 h
    · exact absurd h (not_escapes_buildPhysicalVolumes _ _ _)
    obtain h | ⟨lvs, -, h⟩ := escapes_bind.1 h
    · obtain h | ⟨entries, hentries, h⟩ := escapes_bind.1 h
      · exact absurd h (not_escapes_requireSection _ _ _)
      obtain h | ⟨volumes, -, h⟩ := escapes_bind.1 h
      · obtain ⟨before, entry, after, rfl, hbefore, hentry⟩ := escapes_mapM.1 h
        exact ⟨vgName, vgBody, id, extentSize, pvs, before, entry, after, hfind, hid, hsize,
          by omega, hpvs, hentries, hbefore, (escapes_buildLogicalVolume _ _).1 hentry⟩
      · cases volumes with
        | nil => exact absurd h (not_escapes_missingField _ _)
        | cons lv lvs => exact absurd h (not_escapes_pure _)
    · exact absurd h (not_escapes_pure _)
  · rintro ⟨vgName, vgBody, id, extentSize, pvs, before, entry, after, hfind, hid, hsize, hpos,
      hpvs, hentries, hbefore, hentry⟩
    refine escapes_bind.2 (.inr ⟨_, hfind, escapes_bind.2 (.inr ⟨id, hid, ?_⟩)⟩)
    refine escapes_bind.2 (.inr ⟨extentSize, hsize, ?_⟩)
    rw [if_neg (by omega)]
    refine escapes_bind.2 (.inr ⟨pvs, hpvs, escapes_bind.2 (.inl ?_)⟩)
    refine escapes_bind.2 (.inr ⟨_, hentries, escapes_bind.2 (.inl ?_)⟩)
    exact escapes_mapM.2 ⟨before, entry, after, rfl, hbefore,
      (escapes_buildLogicalVolume _ _).2 hentry⟩

end

/-! ### The parser as a whole -/

/-- The header of the physical volume holds an ASCII UUID, if it is long enough
to hold one. -/
def AsciiUuid (header : Bytes) : Prop := 56 ≤ header.length → ∀ b ∈ header.take 32, b < 128

/-- The metadata text is UTF-8, `int` reads its numbers, its sections nest
within the recursion limit, and no message about it is too long to print. -/
def Interpreter.PlainText (py : Interpreter) (bytes : Bytes) : Prop :=
  ∃ text, decodeUtf8 bytes = some text ∧ ¬ py.BadNumber (rstripNul text) ∧
    ∀ tokens, py.tokens (rstripNul text).length (rstripNul text) = .ok tokens →
      ¬ TooDeep py.nesting 0 tokens ∧
        ∀ document, parseDocument py.nesting tokens = .ok document → ¬ py.BadMessage document

section

variable {py : Interpreter} {read : ℤ → ℤ → Bytes}

theorem escapes_readPvHeader : Escapes (readPvHeader read) ↔
    ∃ label, parseLabel (read 0 2048) = .ok label ∧
      ¬ AsciiUuid (read (label.labelSector * 512 + label.pvHeaderOffset) 1024) := by
  have hascii : ∀ header, Escapes (parsePvHeader header) ↔ ¬ AsciiUuid header := by
    intro header
    rw [escapes_parsePvHeader, AsciiUuid]
    simp only [Classical.not_imp, not_forall, UInt8.not_lt]
  rw [readPvHeader, escapes_bind]
  constructor
  · rintro (h | ⟨label, hlabel, h⟩)
    · exact absurd h (not_escapes_scanLabel _ _ _)
    · exact ⟨label, hlabel, (hascii _).1 h⟩
  · rintro ⟨label, hlabel, h⟩
    exact .inr ⟨label, hlabel, (hascii _).2 h⟩

theorem escapes_readVolumeGroup (uuid : Text) (area : MetadataArea) (bytes : Bytes) :
    Escapes (py.readVolumeGroup uuid area bytes) ↔ ¬ py.PlainText bytes := by
  rw [Interpreter.readVolumeGroup]
  cases hdecode : decodeUtf8 bytes with
  | none =>
    refine iff_of_true escapes_unicode ?_
    rintro ⟨text, htext, -⟩
    simp [hdecode] at htext
  | some text =>
    have hplain : py.PlainText bytes ↔ ¬ py.BadNumber (rstripNul text) ∧
        ∀ tokens, py.tokens (rstripNul text).length (rstripNul text) = .ok tokens →
          ¬ TooDeep py.nesting 0 tokens ∧ ∀ document,
            parseDocument py.nesting tokens = .ok document → ¬ py.BadMessage document := by
      constructor
      · rintro ⟨text', htext, h⟩
        cases hdecode.symm.trans htext
        exact h
      · exact fun h => ⟨text, hdecode, h⟩
    rw [hplain]
    constructor
    · rintro h ⟨hnumber, hrest⟩
      obtain h | ⟨document, hdocument, h⟩ := escapes_bind.1 h
      · obtain h | ⟨tokens, htokens, h⟩ := escapes_bind.1 h
        · exact hnumber ((escapes_tokens le_rfl).1 h)
        · exact (hrest tokens htokens).1 ((escapes_parseDocument _ _).1 h)
      · obtain ⟨tokens, htokens, hparse⟩ := bind_eq_ok.1 hdocument
        obtain h | ⟨vg, -, h⟩ := escapes_bind.1 h
        · exact (hrest tokens htokens).2 document hparse ((escapes_buildVolumeGroup _ _).1 h)
        · split at h
          · exact not_escapes_inconsistent _ _ h
          · exact not_escapes_pure _ h
    · intro h
      by_contra hesc
      refine h ⟨fun hnumber => hesc ?_, fun tokens htokens => ⟨fun hdeep => hesc ?_,
        fun document hparse hmessage => hesc ?_⟩⟩
      · exact escapes_bind.2 (.inl (escapes_bind.2 (.inl ((escapes_tokens le_rfl).2 hnumber))))
      · refine escapes_bind.2 (.inl (escapes_bind.2 (.inr ⟨tokens, htokens, ?_⟩)))
        exact (escapes_parseDocument _ _).2 hdeep
      · refine escapes_bind.2 (.inr ⟨document, bind_eq_ok.2 ⟨tokens, htokens, hparse⟩, ?_⟩)
        exact escapes_bind.2 (.inl ((escapes_buildVolumeGroup _ _).2 hmessage))

/-- The parser returns a volume group or raises an error of its own exactly if
the UUID it comes to is ASCII and the text it comes to is plain. -/
theorem parse_documented_iff (py : Interpreter) (read : ℤ → ℤ → Bytes) :
    Documented (py.parsePhysicalVolumeMetadata read) ↔
      (∀ label, parseLabel (read 0 2048) = .ok label →
        AsciiUuid (read (label.labelSector * 512 + label.pvHeaderOffset) 1024)) ∧
      ∀ header area bytes, readPvHeader read = .ok header →
        readMetadataText read header = .ok (area, bytes) → py.PlainText bytes := by
  rw [documented_iff_not_escapes, Interpreter.parsePhysicalVolumeMetadata]
  constructor
  · intro hesc
    constructor
    · intro label hlabel
      by_contra hascii
      exact hesc (escapes_bind.2 (.inl (escapes_readPvHeader.2 ⟨label, hlabel, hascii⟩)))
    · intro header area bytes hheader htext
      by_contra hplain
      refine hesc (escapes_bind.2 (.inr ⟨header, hheader, ?_⟩))
      refine escapes_bind.2 (.inr ⟨(area, bytes), htext, ?_⟩)
      exact (escapes_readVolumeGroup _ _ _).2 hplain
  · rintro ⟨hascii, hplain⟩ h
    obtain h | ⟨header, hheader, h⟩ := escapes_bind.1 h
    · obtain ⟨label, hlabel, h⟩ := escapes_readPvHeader.1 h
      exact h (hascii label hlabel)
    obtain h | ⟨⟨area, bytes⟩, htext, h⟩ := escapes_bind.1 h
    · exact not_escapes_readMetadataText _ _ h
    · exact (escapes_readVolumeGroup _ _ _).1 h (hplain header area bytes hheader htext)

end

/-- A label in the first sector, and a header whose UUID is no ASCII. -/
def foreignUuidImage : Image :=
  Image.ofBytes (asciiBytes "LABELONE" ++ leBytes 12 0 ++ leBytes 4 32 ++ asciiBytes "LVM2 001" ++
    List.replicate 32 0xE9 ++ leBytes 1984 0)

/-- The decoder's own error escapes the parser. -/
theorem foreign_uuid_escapes :
    ¬ Documented (asciiInterpreter.parsePhysicalVolumeMetadata foreignUuidImage.read) := by
  have hparse : asciiInterpreter.parsePhysicalVolumeMetadata foreignUuidImage.read =
      .error .unicodeDecodeError := by decide +kernel
  rw [hparse]
  simp [Documented]

end Kairon.Lvm

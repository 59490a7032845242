/-
Kairon/Search/Safety.lean

What can go wrong when a query is analysed and evaluated.

Every conversion of the search language is guarded except one: a timestamp is
read under a `try`, but shifted to UTC outside it.  A timestamp without a date
in UTC (`¬ InCalendar`) therefore escapes as an `OverflowError` or a
`ValueError`, from analysis when it stands in the query and from evaluation
when it stands in the document.  Everything else is a `QuerySyntaxError` or
`False`.

The conditions are stated over the order in which the source gets there:
analysis visits every leaf from left to right and stops at the first one it
refuses, evaluation stops wherever `any` and `all` stop.  For the latter, the
meaning of the parts before is given by a total function (`satisfies`), which
compares timestamps as instants.
-/
import Kairon.Search.Print
import Kairon.Search.Calendar
import Kairon.Search.Query

namespace Kairon.Search

open Settle

section

variable {F : Type} (p : Platform F)

/-! ### Tests of a query -/

/-- A field, an operator and a value, as one leaf asks of one indexed field. -/
structure Test where
  spec : FieldSpec
  operator : Text
  value : Text

mutual

/-- The tests, in the order in which the query is built. -/
def Node.tests : Node → List Test
  | .predicate field operator value => field.specs.map fun spec => ⟨spec, operator, value⟩
  | .not child => child.tests
  | .bool _ children => testsOf children
  | .text _ => []
  | .exists _ => []

def testsOf : List Node → List Test
  | [] => []
  | n :: ns => n.tests ++ testsOf ns

end

/-- One of the operators of the language. -/
def KnownOperator (operator : Text) : Prop :=
  (boundOf operator).isSome = true ∨ operator = [':']

/-- The wildcards of a value are ones the field can be searched with. -/
def WildcardsAllowed (spec : FieldSpec) (value : Text) : Prop :=
  hasWildcard value = true →
    spec.wildcard = true ∧ (value.head? = some '*' → spec.leadingWildcard = true)

/-- A test that can be put to the index. -/
def Accepts (t : Test) : Prop :=
  match t.spec.kind with
  | .numeric => (p.textNumber t.value).isSome = true ∧ KnownOperator t.operator
  | .date => (∃ d, p.parseDate t.value = some d ∧ d.InCalendar) ∧ KnownOperator t.operator
  | _ => t.operator = [':'] ∧ WildcardsAllowed t.spec t.value

/-- A test on a timestamp that has no date in UTC. -/
def Escapes (t : Test) : Prop :=
  t.spec.kind = .date ∧ ∃ d, p.parseDate t.value = some d ∧ ¬ d.InCalendar

@[simp] theorem boundOf_colon : boundOf [':'] = none := by decide

@[simp] theorem ok_bind {ε α β : Type} (a : α) (f : α → Except ε β) :
    (Except.ok a >>= f) = f a := rfl

@[simp] theorem error_bind {ε α β : Type} (e : ε) (f : α → Except ε β) :
    (Except.error e >>= f) = .error e := rfl

variable {p} {Q : Type}

variable {spec : FieldSpec}

theorem coerceValue_numeric {value : Text} {y : Num}
    (hkind : spec.kind = .numeric) (hy : p.textNumber value = some y) :
    coerceValue p spec value = .ok (.number y) := by
  simp only [coerceValue, hkind, hy]

theorem coerceValue_date {value : Text} {d : PyDateTime}
    (hkind : spec.kind = .date) (hd : p.parseDate value = some d) (hcal : d.InCalendar) :
    coerceValue p spec value = .ok (.date (.ofStamp d.shifted hcal.2)) := by
  simp only [coerceValue, hkind, hd, PyDateTime.astimezoneUtc_ok hcal]
  rfl

theorem coerceValue_text {value : Text} (hkind : spec.kind ≠ .numeric ∧ spec.kind ≠ .date) :
    coerceValue p spec value = .ok (.text value) := by
  unfold coerceValue
  split
  · exact absurd ‹_› hkind.1
  · exact absurd ‹_› hkind.2
  · rfl

/-- Numbers and timestamps are compared or looked up as they are. -/
theorem queryForSpec_typed {operator value : Text} {o : Operand}
    (hkind : spec.kind = .numeric ∨ spec.kind = .date)
    (ho : coerceValue p spec value = .ok o) :
    (KnownOperator operator → ∃ c : Clause Q, queryForSpec p operator value spec = .ok c) ∧
    (¬ KnownOperator operator →
      ∃ q, queryForSpec (Q := Q) p operator value spec = .error (.query q)) := by
  constructor
  · rintro (hbound | rfl)
    · obtain ⟨b, hb⟩ := Option.isSome_iff_exists.1 hbound
      exact ⟨.range spec.path b o, by simp [queryForSpec, ho, hb, hkind]⟩
    · exact ⟨.term spec.path o, by simp [queryForSpec, ho, hkind]⟩
  · intro hop
    have hbound : boundOf operator = none := by
      rw [← Option.not_isSome_iff_eq_none]
      exact fun h => hop (.inl h)
    have hcolon : operator ≠ [':'] := fun h => hop (.inr h)
    exact ⟨.operatorUnsupported operator, by simp [queryForSpec, ho, hbound, hcolon]⟩

/-- Other values are looked up, with wildcards where the field allows them. -/
theorem queryForSpec_literal {operator value : Text}
    (hkind : spec.kind ≠ .numeric ∧ spec.kind ≠ .date) :
    (operator = [':'] ∧ WildcardsAllowed spec value →
      ∃ c : Clause Q, queryForSpec p operator value spec = .ok c) ∧
    (¬ (operator = [':'] ∧ WildcardsAllowed spec value) →
      ∃ q, queryForSpec (Q := Q) p operator value spec = .error (.query q)) := by
  obtain ⟨hnum, hdate⟩ := hkind
  by_cases hcolon : operator = [':']
  · subst hcolon
    by_cases hallowed : WildcardsAllowed spec value
    · refine ⟨fun _ => ?_, fun h => absurd ⟨rfl, hallowed⟩ h⟩
      by_cases hw : hasWildcard value = true
      · obtain ⟨hcan, hlead⟩ := hallowed hw
        have hno : ¬ (value.head? = some '*' ∧ spec.leadingWildcard = false) := by
          rintro ⟨hhead, hfalse⟩
          rw [hlead hhead] at hfalse
          cases hfalse
        exact ⟨.wildcard spec.path value, by
          simp [queryForSpec, coerceValue_text, hnum, hdate, hw, hcan, hno]⟩
      · by_cases htext : spec.kind = .text
        · exact ⟨.matchPhrase spec.path value, by
            simp [queryForSpec, coerceValue_text, hw, htext]⟩
        · exact ⟨.term spec.path (.text value), by
            simp [queryForSpec, coerceValue_text, hnum, hdate, hw, htext]⟩
    · refine ⟨fun h => absurd h.2 hallowed, fun _ => ?_⟩
      obtain ⟨hw, hnot⟩ := Classical.not_imp.1 hallowed
      by_cases hcan : spec.wildcard = true
      · obtain ⟨hhead, hlead⟩ := Classical.not_imp.1 fun h => hnot ⟨hcan, h⟩
        exact ⟨.leadingWildcardsUnsupported spec.path, by
          simp [queryForSpec, coerceValue_text, hnum, hdate, hw, hcan, hhead, hlead]⟩
      · exact ⟨.wildcardsUnsupported spec.path, by
          simp [queryForSpec, coerceValue_text, hnum, hdate, hw, hcan]⟩
  · refine ⟨fun h => absurd h.1 hcolon, fun _ => ?_⟩
    cases hbound : boundOf operator with
    | none =>
      exact ⟨.operatorUnsupported operator, by
        simp [queryForSpec, coerceValue_text, hnum, hdate, hbound, hcolon]⟩
    | some b =>
      exact ⟨.operatorUnsupportedFor operator spec.path, by
        simp [queryForSpec, coerceValue_text, hnum, hdate, hbound]⟩

theorem queryForSpec_accepts {t : Test} (h : Accepts p t) :
    ∃ c : Clause Q, queryForSpec p t.operator t.value t.spec = .ok c := by
  unfold Accepts at h
  split at h
  · next hkind =>
      obtain ⟨y, hy⟩ := Option.isSome_iff_exists.1 h.1
      exact (queryForSpec_typed (.inl hkind) (coerceValue_numeric hkind hy)).1 h.2
  · next hkind =>
      obtain ⟨⟨d, hd, hcal⟩, hop⟩ := h
      exact (queryForSpec_typed (.inr hkind) (coerceValue_date hkind hd hcal)).1 hop
  · next hnum hdate => exact (queryForSpec_literal ⟨hnum, hdate⟩).1 h

theorem queryForSpec_refuses {t : Test} (hacc : ¬ Accepts p t) (hesc : ¬ Escapes p t) :
    ∃ q, queryForSpec (Q := Q) p t.operator t.value t.spec = .error (.query q) := by
  unfold Accepts at hacc
  split at hacc
  · next hkind =>
      cases hy : p.textNumber t.value with
      | none =>
        exact ⟨.notNumeric t.value t.spec.path, by simp [queryForSpec, coerceValue, hkind, hy]⟩
      | some y =>
        refine (queryForSpec_typed (.inl hkind) (coerceValue_numeric hkind hy)).2 fun hop => ?_
        exact hacc ⟨by rw [hy]; rfl, hop⟩
  · next hkind =>
      cases hd : p.parseDate t.value with
      | none =>
        exact ⟨.notTimestamp t.value t.spec.path, by simp [queryForSpec, coerceValue, hkind, hd]⟩
      | some d =>
        by_cases hcal : d.InCalendar
        · refine (queryForSpec_typed (.inr hkind) (coerceValue_date hkind hd hcal)).2
            fun hop => ?_
          exact hacc ⟨⟨d, hd, hcal⟩, hop⟩
        · exact absurd ⟨hkind, d, hd, hcal⟩ hesc
  · next hnum hdate => exact (queryForSpec_literal ⟨hnum, hdate⟩).2 hacc

/-- An error that is not reported as one of the query. -/
def PyError.Escaped (e : PyError) : Prop := e = .valueError ∨ e = .overflowError

theorem coerceValue_escapes {t : Test} (h : Escapes p t) :
    ∃ e, coerceValue p t.spec t.value = .error e ∧ e.Escaped := by
  obtain ⟨hkind, d, hd, hcal⟩ := h
  unfold coerceValue
  rw [hkind]
  simp only [hd]
  obtain he | he := PyDateTime.astimezoneUtc_error hcal
  · exact ⟨.valueError, by rw [he]; rfl, .inl rfl⟩
  · exact ⟨.overflowError, by rw [he]; rfl, .inr rfl⟩

theorem queryForSpec_escapes {t : Test} (h : Escapes p t) :
    ∃ e, queryForSpec (Q := Q) p t.operator t.value t.spec = .error e ∧ e.Escaped := by
  obtain ⟨e, he, hescaped⟩ := coerceValue_escapes h
  exact ⟨e, by rw [queryForSpec, he]; rfl, hescaped⟩

/-! ### Analysis -/

/-- A result or an error of the query. -/
def Safe {α : Type} (r : Except PyError α) : Prop := ∀ e, r = .error e → ∃ q, e = .query q

theorem safe_ok {α : Type} (a : α) : Safe (.ok a) := by
  intro e h
  cases h

theorem safe_query {α : Type} (q : QuerySyntaxError) : Safe (.error (.query q) : Except PyError α) := by
  rintro e ⟨⟩
  exact ⟨q, rfl⟩

theorem not_safe_escaped {α : Type} {e : PyError} (h : e.Escaped) :
    ¬ Safe (.error e : Except PyError α) := by
  intro hsafe
  obtain ⟨q, rfl⟩ := hsafe e rfl
  obtain h | h := h
  · cases h
  · cases h

theorem safe_map {α β : Type} {f : α → β} {r : Except PyError α} : Safe (r.map f) ↔ Safe r := by
  cases r with
  | ok a => exact iff_of_true (safe_ok _) (safe_ok _)
  | error e => exact ⟨fun h e' he => h e' (by cases he; rfl), fun h e' he => h e' (by cases he; rfl)⟩

variable (p Q) in
/-- The tests put to the index one after the other. -/
def runTests : List Test → Except PyError Unit
  | [] => .ok ()
  | t :: ts => do
      let _ ← queryForSpec (Q := Q) p t.operator t.value t.spec
      runTests ts

theorem runTests_append (ts ts' : List Test) :
    runTests p Q (ts ++ ts') = runTests p Q ts >>= fun _ => runTests p Q ts' := by
  induction ts with
  | nil => rfl
  | cons t ts ih =>
    rw [List.cons_append, runTests, runTests, ih]
    cases queryForSpec (Q := Q) p t.operator t.value t.spec with
    | error e => rfl
    | ok c => rfl

theorem mapM_queryForSpec (operator value : Text) (specs : List FieldSpec) :
    (specs.mapM (queryForSpec (Q := Q) p operator value)).map (fun _ => ()) =
      runTests p Q (specs.map fun spec => ⟨spec, operator, value⟩) := by
  induction specs with
  | nil => rfl
  | cons spec specs ih =>
    rw [List.mapM_cons, List.map_cons, runTests, ← ih]
    cases queryForSpec (Q := Q) p operator value spec with
    | error e => rfl
    | ok c =>
      simp only [ok_bind]
      cases specs.mapM (queryForSpec (Q := Q) p operator value) with
      | error e => rfl
      | ok cs => rfl

/-- What follows a part of the query does not change how it fails. -/
theorem map_bind_const {α β : Type} (r : Except PyError α) (f : α → Except PyError β)
    (s : Except PyError Unit) (h : ∀ a, (f a).map (fun _ => ()) = s) :
    (r >>= f).map (fun _ => ()) = r.map (fun _ => ()) >>= fun _ => s := by
  cases r with
  | error e => rfl
  | ok a => exact h a

mutual

/-- Building a query is putting its tests to the index. -/
theorem buildQuery_eq_runTests (builder : Text → Q) : ∀ n : Node,
    (buildQuery p builder n).map (fun _ => ()) = runTests p Q n.tests
  | .text _ => rfl
  | .exists _ => rfl
  | .predicate field operator value => by
      rw [buildQuery, map_bind_const _ _ (.ok ()) (fun _ => rfl), mapM_queryForSpec, Node.tests]
      cases runTests p Q (field.specs.map fun spec => ⟨spec, operator, value⟩) with
      | error e => rfl
      | ok c => rfl
  | .not child => by
      rw [buildQuery, map_bind_const _ _ (.ok ()) (fun _ => rfl),
        buildQuery_eq_runTests builder child, Node.tests]
      cases runTests p Q child.tests with
      | error e => rfl
      | ok c => rfl
  | .bool op children => by
      have h : (buildQuery p builder (.bool op children)).map (fun _ => ()) =
          (buildQueries p builder children).map (fun _ => ()) := by
        cases op with
        | and | or =>
          rw [buildQuery]
          cases buildQueries p builder children with
          | error e => rfl
          | ok cs => rfl
      rw [h, buildQueries_eq_runTests builder children, Node.tests]

theorem buildQueries_eq_runTests (builder : Text → Q) : ∀ ns : List Node,
    (buildQueries p builder ns).map (fun _ => ()) = runTests p Q (testsOf ns)
  | [] => rfl
  | n :: ns => by
      rw [buildQueries, testsOf, runTests_append, ← buildQuery_eq_runTests builder n,
        ← buildQueries_eq_runTests builder ns]
      cases buildQuery p builder n with
      | error e => rfl
      | ok c =>
        cases buildQueries p builder ns with
        | error e => rfl
        | ok cs => rfl

end

variable (p) in
/-- No test that is reached has a timestamp without a date in UTC: a test is
reached when all before it are accepted. -/
def NoneEscapes (ts : List Test) : Prop :=
  ∀ before t, (before ++ [t]) <+: ts → (∀ s ∈ before, Accepts p s) → ¬ Escapes p t

theorem noneEscapes_nil : NoneEscapes p [] := by
  intro before t h
  simp at h

theorem noneEscapes_cons {t : Test} {ts : List Test} :
    NoneEscapes p (t :: ts) ↔ ¬ Escapes p t ∧ (Accepts p t → NoneEscapes p ts) := by
  constructor
  · intro h
    refine ⟨h [] t ⟨ts, rfl⟩ (by simp), fun hacc before s hpre hbefore => ?_⟩
    refine h (t :: before) s (by simpa using hpre) fun s' hs' => ?_
    obtain rfl | hs' := List.mem_cons.1 hs'
    · exact hacc
    · exact hbefore s' hs'
  · rintro ⟨hesc, hrest⟩ before s hpre hbefore
    obtain - | ⟨b, before⟩ := before
    · obtain rfl : s = t := by simpa using hpre
      exact hesc
    · obtain ⟨rfl, hpre'⟩ : b = t ∧ (before ++ [s]) <+: ts := List.cons_prefix_cons.1 hpre
      exact hrest (hbefore b (by simp)) before s hpre' fun s' hs' => hbefore s' (by simp [hs'])

theorem runTests_safe (ts : List Test) : Safe (runTests p Q ts) ↔ NoneEscapes p ts := by
  induction ts with
  | nil => exact iff_of_true (safe_ok ()) noneEscapes_nil
  | cons t ts ih =>
    rw [noneEscapes_cons, runTests]
    by_cases hesc : Escapes p t
    · obtain ⟨e, he, hescaped⟩ := queryForSpec_escapes (Q := Q) hesc
      rw [he]
      exact iff_of_false (not_safe_escaped hescaped) fun h => h.1 hesc
    by_cases hacc : Accepts p t
    · obtain ⟨c, hc⟩ := queryForSpec_accepts (Q := Q) hacc
      rw [hc, ok_bind, ih]
      exact ⟨fun h => ⟨hesc, fun _ => h⟩, fun h => h.2 hacc⟩
    · obtain ⟨q, hq⟩ := queryForSpec_refuses (Q := Q) hacc hesc
      rw [hq]
      exact iff_of_true (safe_query q) ⟨hesc, fun h => absurd h hacc⟩

/-- The tests of a query that has been built were all accepted. -/
theorem accepts_of_runTests {ts : List Test} (h : runTests p Q ts = .ok ()) :
    ∀ t ∈ ts, Accepts p t := by
  induction ts with
  | nil => simp
  | cons t ts ih =>
    by_cases hacc : Accepts p t
    · obtain ⟨c, hc⟩ := queryForSpec_accepts (Q := Q) hacc
      rw [runTests, hc, ok_bind] at h
      simpa [hacc] using ih h
    · by_cases hesc : Escapes p t
      · obtain ⟨e, he, -⟩ := queryForSpec_escapes (Q := Q) hesc
        rw [runTests, he] at h
        cases h
      · obtain ⟨q, hq⟩ := queryForSpec_refuses (Q := Q) hacc hesc
        rw [runTests, hq] at h
        cases h

variable (p) in
/-- The tree of a text that is a query of the language. -/
def ParsesTo (query : Text) (ast : Node) : Prop :=
  strip query ≠ [] ∧ queryHasAdvancedSyntax p (strip query) = true ∧
    ∃ tokens, tokenize (strip query) = .ok tokens ∧ parse tokens = .ok ast

theorem ParsesTo.unique {query : Text} {n n' : Node} (h : ParsesTo p query n)
    (h' : ParsesTo p query n') : n = n' := by
  obtain ⟨-, -, ts, hts, hn⟩ := h
  obtain ⟨-, -, ts', hts', hn'⟩ := h'
  rw [hts] at hts'
  cases hts'
  rw [hn] at hn'
  cases hn'
  rfl

/-- The analysis of a query that can be built. -/
theorem ParsesTo.analyze_ok {builder : Text → Q} {query : Text} {ast : Node} {c : Clause Q}
    (h : ParsesTo p query ast) (hc : buildQuery p builder ast = .ok c) :
    analyzeQuerySyntax p builder query =
      .ok ⟨if hasTextTerms ast = true ∧ collectFilters ast ≠ [] then .mixed else .advanced,
        strip query, collectFilters ast, some ast, c⟩ := by
  obtain ⟨hne, hadv, tokens, htokens, hparse⟩ := h
  simp only [analyzeQuerySyntax, if_neg hne, hadv, htokens, Except.mapError, hparse, hc, ok_bind]
  rfl

theorem ParsesTo.analyze_error {builder : Text → Q} {query : Text} {ast : Node} {e : PyError}
    (h : ParsesTo p query ast) (hc : buildQuery p builder ast = .error e) :
    analyzeQuerySyntax p builder query = .error e := by
  obtain ⟨hne, hadv, tokens, htokens, hparse⟩ := h
  simp only [analyzeQuerySyntax, if_neg hne, hadv, htokens, Except.mapError, hparse, hc, ok_bind]
  rfl

/-- What analysis does: texts that are no queries are searched for as they
are, queries are built, and the rest is refused. -/
theorem analyzeQuerySyntax_cases (builder : Text → Q) (query : Text) :
    ((∃ info, analyzeQuerySyntax p builder query = .ok info ∧ info.ast = none) ∧
      ∀ ast, ¬ ParsesTo p query ast) ∨
    ((∃ q, analyzeQuerySyntax p builder query = .error (.query q)) ∧
      ∀ ast, ¬ ParsesTo p query ast) ∨
    ∃ ast, ParsesTo p query ast ∧
      (∀ e, buildQuery p builder ast = .error e → analyzeQuerySyntax p builder query = .error e) ∧
      (∀ c, buildQuery p builder ast = .ok c →
        ∃ info, analyzeQuerySyntax p builder query = .ok info ∧ info.ast = some ast ∧
          info.query = c) := by
  by_cases hempty : strip query = []
  · refine .inl ⟨⟨_, if_pos hempty, rfl⟩, fun ast h => h.1 hempty⟩
  cases hadv : queryHasAdvancedSyntax p (strip query) with
  | false =>
    refine .inl ⟨⟨⟨.plain, strip query, [], none, .textQuery (builder (strip query))⟩, ?_, rfl⟩,
      fun ast h => ?_⟩
    · simp [analyzeQuerySyntax, hempty, hadv]
    · rw [h.2.1] at hadv
      cases hadv
  | true =>
    cases htokens : tokenize (strip query) with
    | error e =>
      refine .inr (.inl ⟨⟨e, ?_⟩, ?_⟩)
      · simp [analyzeQuerySyntax, hempty, hadv, htokens, Except.mapError]
      · rintro ast ⟨-, -, ts, hts, -⟩
        rw [hts] at htokens
        cases htokens
    | ok tokens =>
      cases hast : parse tokens with
      | error e =>
        cases e with
        | outOfFuel => exact absurd hast (parse_ne_outOfFuel tokens)
        | query q =>
          refine .inr (.inl ⟨⟨q, ?_⟩, ?_⟩)
          · simp [analyzeQuerySyntax, hempty, hadv, htokens, hast, Except.mapError, PyError.ofParse]
          · rintro ast ⟨-, -, ts, hts, hts'⟩
            rw [htokens] at hts
            cases hts
            rw [hast] at hts'
            cases hts'
      | ok ast =>
        have hparses : ParsesTo p query ast := ⟨hempty, hadv, tokens, htokens, hast⟩
        exact .inr (.inr ⟨ast, hparses, fun e he => hparses.analyze_error he,
          fun c hc => ⟨_, hparses.analyze_ok hc, rfl, rfl⟩⟩)

/-! ### Evaluation -/

variable (p) in
/-- The instant a text stands for, if it has a date in UTC. -/
def Platform.instant (s : Text) : Option ℤ :=
  (p.parseDate s).bind fun d => if d.InCalendar then some d.shifted else none

variable (p) in
/-- The meaning of a test on a value that is not null. -/
def satisfiesValue (t : Test) (candidate : Json F) : Bool :=
  match boundOf t.operator with
  | some bound =>
    if t.spec.kind = .date then
      match p.instant (p.normalizeString candidate), p.instant t.value with
      | some x, some y => bound.holds x y
      | _, _ => false
    else
      match p.candidateNumber candidate, p.textNumber t.value with
      | some x, some y => bound.holds x y
      | _, _ => false
  | none =>
    if hasWildcard t.value then matchString p (p.normalizeString candidate) t.value
    else if t.spec.kind ≠ .numeric then
      p.lower (p.normalizeString candidate) = p.lower t.value
    else p.normalizeString candidate = t.value

variable (p) in
/-- The meaning of a test on a value. -/
def satisfies (t : Test) : Json F → Bool
  | .null => false
  | candidate => satisfiesValue p t candidate

variable (p) in
/-- A comparison with a value that reads as a timestamp without a date in
UTC. -/
def BreaksValue (t : Test) (candidate : Json F) : Prop :=
  (boundOf t.operator).isSome = true ∧ t.spec.kind = .date ∧
    ∃ d, p.parseDate (p.normalizeString candidate) = some d ∧ ¬ d.InCalendar

variable (p) in
/-- The same, for a value that can be null. -/
def Breaks (t : Test) : Json F → Prop
  | .null => False
  | candidate => BreaksValue p t candidate

theorem stamp_ofStamp {t : ℤ} (h : InYears t) : ((UtcDateTime.ofStamp t h).stamp : ℤ) = t := by
  have hpos : 0 ≤ t := le_trans (by decide) h.1
  have hdiv : t.toNat / dayMicros * dayMicros + t.toNat % dayMicros = t.toNat :=
    Nat.div_add_mod' t.toNat dayMicros
  show ((t.toNat / dayMicros * dayMicros + t.toNat % dayMicros : ℕ) : ℤ) = t
  rw [hdiv]
  exact Int.toNat_of_nonneg hpos

/-- Comparing ISO forms is comparing instants. -/
theorem holds_isoformat (bound : Bound) {t u : ℤ} (ht : InYears t) (hu : InYears u) :
    bound.holds (UtcDateTime.ofStamp t ht).isoformat (UtcDateTime.ofStamp u hu).isoformat =
      bound.holds t u := by
  have ht' := stamp_ofStamp ht
  have hu' := stamp_ofStamp hu
  generalize UtcDateTime.ofStamp t ht = a at ht' ⊢
  generalize UtcDateTime.ofStamp u hu = b at hu' ⊢
  subst ht' hu'
  cases bound with
  | gt => simp [Bound.holds, UtcDateTime.isoformat_lt_iff]
  | gte => simp [Bound.holds, UtcDateTime.isoformat_le_iff]
  | lt => simp [Bound.holds, UtcDateTime.isoformat_lt_iff]
  | lte => simp [Bound.holds, UtcDateTime.isoformat_le_iff]

theorem Platform.instant_eq {s : Text} {d : PyDateTime} (hd : p.parseDate s = some d) :
    p.instant s = if d.InCalendar then some d.shifted else none := by
  rw [instant, hd]
  rfl

theorem settles_evaluateValue {t : Test} (hacc : Accepts p t) (candidate : Json F) :
    Settles (evaluateValue p t.spec t.operator t.value candidate) (BreaksValue p t candidate)
      (satisfiesValue p t candidate) := by
  unfold evaluateValue satisfiesValue BreaksValue
  cases hbound : boundOf t.operator with
  | none =>
    refine .inr ⟨by simp, ?_⟩
    simp only
    split
    · rfl
    · split
      · rfl
      · rfl
  | some bound =>
    simp only [Option.isSome_some, true_and]
    by_cases hdate : t.spec.kind = .date
    · -- timestamps: the value of the test has a date in UTC, that of the document may not
      simp only [Accepts, hdate] at hacc
      obtain ⟨⟨d, hd, hcal⟩, -⟩ := hacc
      rw [coerceValue_date hdate hd hcal, ok_bind, p.instant_eq hd, if_pos hcal]
      simp only [candidateOperand, if_pos hdate]
      cases hc : p.parseDate (p.normalizeString candidate) with
      | none =>
        refine .inr ⟨by simp, ?_⟩
        simp only [Platform.instant, hc]
        rfl
      | some c =>
        rw [p.instant_eq hc]
        by_cases hccal : c.InCalendar
        · refine .inr ⟨by simp [hccal], ?_⟩
          simp only [PyDateTime.astimezoneUtc_ok hccal, if_pos hccal]
          exact congrArg Except.ok (holds_isoformat bound hccal.2 hcal.2)
        · refine .inl ⟨⟨hdate, c, rfl, hccal⟩, ?_⟩
          obtain he | he := PyDateTime.astimezoneUtc_error hccal
          · exact ⟨.valueError, by simp only [he]; rfl⟩
          · exact ⟨.overflowError, by simp only [he]; rfl⟩
    · -- numbers: a comparison is only accepted on them
      refine .inr ⟨fun h => hdate h.1, ?_⟩
      have hnum : t.spec.kind = .numeric := by
        by_contra hne
        unfold Accepts at hacc
        split at hacc
        · exact hne ‹_›
        · exact hdate ‹_›
        · rw [hacc.1, boundOf_colon] at hbound
          cases hbound
      simp only [Accepts, hnum] at hacc
      obtain ⟨y, hy⟩ := Option.isSome_iff_exists.1 hacc.1
      rw [coerceValue_numeric hnum hy, ok_bind]
      simp only [candidateOperand, if_neg hdate, ok_bind, hy]
      cases p.candidateNumber candidate with
      | none => rfl
      | some x => rfl

theorem settles_evaluateSpec {t : Test} (hacc : Accepts p t) (candidate : Json F) :
    Settles (evaluateSpec p t.spec t.operator t.value candidate) (Breaks p t candidate)
      (satisfies p t candidate) := by
  cases candidate with
  | null => exact .inr ⟨id, rfl⟩
  | bool b | int n | float x | str s | arr items | obj fields => exact settles_evaluateValue hacc _

/-! ### Comparisons of timestamps -/

variable {operator expected : Text}

theorem evaluateSpec_eq {candidate : Json F} (h : candidate ≠ .null) :
    evaluateSpec p spec operator expected candidate =
      evaluateValue p spec operator expected candidate := by
  cases candidate with
  | null => exact absurd rfl h
  | bool b => rfl
  | int n => rfl
  | float x => rfl
  | str s => rfl
  | arr items => rfl
  | obj fields => rfl

/-- A comparison on a date field answers whether the instants are so related
if both of them have a date in UTC, and raises otherwise. -/
theorem evaluateSpec_date_iff {bound : Bound}
    {candidate : Json F} {d e : PyDateTime} (hkind : spec.kind = .date)
    (hbound : boundOf operator = some bound) (hpresent : candidate ≠ .null)
    (he : p.parseDate expected = some e)
    (hd : p.parseDate (p.normalizeString candidate) = some d) :
    evaluateSpec p spec operator expected candidate = .ok (bound.holds d.shifted e.shifted) ↔
      d.InCalendar ∧ e.InCalendar := by
  rw [evaluateSpec_eq hpresent, evaluateValue, hbound]
  by_cases hecal : e.InCalendar
  · simp only [coerceValue_date hkind he hecal, ok_bind, candidateOperand, if_pos hkind, hd]
    by_cases hdcal : d.InCalendar
    · refine iff_of_true ?_ ⟨hdcal, hecal⟩
      rw [PyDateTime.astimezoneUtc_ok hdcal]
      exact congrArg Except.ok (holds_isoformat bound hdcal.2 hecal.2)
    · refine iff_of_false (fun h => ?_) fun h => hdcal h.1
      obtain hraise | hraise := PyDateTime.astimezoneUtc_error hdcal
      · rw [hraise] at h
        cases h
      · rw [hraise] at h
        cases h
  · -- the bound itself is read first
    refine iff_of_false (fun h => ?_) fun h => hecal h.2
    obtain ⟨o, ho, -⟩ := bind_eq_ok.1 h
    simp only [coerceValue, hkind, he] at ho
    obtain hraise | hraise := PyDateTime.astimezoneUtc_error hecal
    · rw [hraise] at ho
      cases ho
    · rw [hraise] at ho
      cases ho

variable (p) in
/-- **Dates compare chronologically**: the ISO forms of any two UTC datetimes
are ordered as the instants are, and so a comparison on a date field answers
whether the instants are so related, exactly when both have a date in UTC. -/
theorem dates_compare_chronologically :
    (∀ a b : UtcDateTime, (a.isoformat < b.isoformat ↔ a.stamp < b.stamp) ∧
      (a.isoformat ≤ b.isoformat ↔ a.stamp ≤ b.stamp)) ∧
    ∀ (spec : FieldSpec) (operator expected : Text) (bound : Bound) (candidate : Json F)
      (d e : PyDateTime), spec.kind = .date → boundOf operator = some bound →
      candidate ≠ .null → p.parseDate expected = some e →
      p.parseDate (p.normalizeString candidate) = some d →
      (evaluateSpec p spec operator expected candidate = .ok (bound.holds d.shifted e.shifted) ↔
        d.InCalendar ∧ e.InCalendar) :=
  ⟨fun _ _ => ⟨UtcDateTime.isoformat_lt_iff, UtcDateTime.isoformat_le_iff⟩,
    fun _ _ _ _ _ _ _ hkind hbound hpresent he hd =>
      evaluateSpec_date_iff hkind hbound hpresent he hd⟩

/-- One second after midnight in UTC, written an hour east of Greenwich. -/
def secondAfterMidnight : PyDateTime :=
  ⟨730120, 3601000000, some 3600000000, by decide, by decide, by decide⟩

/-- Midnight in UTC. -/
def midnight : PyDateTime := ⟨730120, 0, some 0, by decide, by decide, by decide⟩

/-- The last second of the year 9999, an hour west of Greenwich. -/
def lastSecondWest : PyDateTime :=
  ⟨maxOrdinal, 86399000000, some (-3600000000), by decide, by decide, by decide⟩

set_option maxRecDepth 4000 in
theorem midnight_compared :
    evaluateSpec asciiPlatform (date "@timestamp") ">".toList "2000-01-01T00:00:00+00:00".toList
        (.str "2000-01-01T01:00:01+01:00".toList) =
      .ok (Bound.gt.holds secondAfterMidnight.shifted midnight.shifted) :=
  ((dates_compare_chronologically asciiPlatform).2 (date "@timestamp") ">".toList
    "2000-01-01T00:00:00+00:00".toList .gt (.str "2000-01-01T01:00:01+01:00".toList)
    secondAfterMidnight midnight rfl (by decide) (by simp) rfl rfl).2 ⟨by decide, by decide⟩

set_option maxRecDepth 4000 in
/-- A document's timestamp in the year 10000 of UTC is later than the bound,
and is not found to be. -/
theorem lastSecondWest_not_compared :
    asciiPlatform.parseDate "2000-01-01T00:00:00+00:00".toList = some midnight ∧
    asciiPlatform.parseDate "9999-12-31T23:59:59-01:00".toList = some lastSecondWest ∧
    Bound.gt.holds lastSecondWest.shifted midnight.shifted = true ∧
    evaluateSpec asciiPlatform (date "@timestamp") ">".toList "2000-01-01T00:00:00+00:00".toList
        (.str "9999-12-31T23:59:59-01:00".toList) = .error .overflowError :=
  ⟨rfl, rfl, by decide, rfl⟩

section Document

variable (p) (payload : List (Text × Json F)) (haystack : Text)

/-- The meaning of a leaf on a document. -/
def leafHolds : Node → Bool
  | .text value => decide (p.lower value <:+: haystack)
  | .exists field => field.specs.any fun spec => !(iterValues payload spec.path).isEmpty
  | .predicate field operator value =>
    field.specs.any fun spec =>
      (iterValues payload spec.path).any (satisfies p ⟨spec, operator, value⟩)
  | _ => false

mutual

/-- A comparison that breaks is reached: the specs and values before it do
not satisfy the leaf, and no operand before it has settled an AND or an OR. -/
def Node.Fails : Node → Prop
  | .predicate field operator value =>
    FailsUntil true
      (fun spec => FailsUntil true (Breaks p ⟨spec, operator, value⟩)
        (satisfies p ⟨spec, operator, value⟩) (iterValues payload spec.path))
      (fun spec => (iterValues payload spec.path).any (satisfies p ⟨spec, operator, value⟩))
      field.specs
  | .not child => child.Fails
  | .bool .or children => AnyFails children
  | .bool .and children => AllFails children
  | .text _ => False
  | .exists _ => False

def AnyFails : List Node → Prop
  | [] => False
  | n :: ns => n.Fails ∨ (n.meaning (leafHolds p payload haystack) = false ∧ AnyFails ns)

def AllFails : List Node → Prop
  | [] => False
  | n :: ns => n.Fails ∨ (n.meaning (leafHolds p payload haystack) = true ∧ AllFails ns)

end

variable {p}

mutual

/-- Evaluation of a query that was built gives the meaning of the query, or
reaches a comparison that breaks. -/
theorem settles_evaluate : ∀ n : Node, (∀ t ∈ n.tests, Accepts p t) →
    Settles (evaluate p payload haystack n) (n.Fails p payload haystack)
      (n.meaning (leafHolds p payload haystack))
  | .text _, _ => .inr ⟨id, rfl⟩
  | .exists _, _ => .inr ⟨id, rfl⟩
  | .predicate field operator value, hacc => by
      refine settles_anyOk fun spec hspec => settles_anyOk fun candidate _ => ?_
      have htest : Accepts p ⟨spec, operator, value⟩ :=
        hacc _ (by simpa [Node.tests] using hspec)
      exact settles_evaluateSpec htest candidate
  | .not child, hacc => (settles_evaluate child hacc).not
  | .bool .or children, hacc => (settles_evaluateOf children hacc).1
  | .bool .and children, hacc => (settles_evaluateOf children hacc).2

theorem settles_evaluateOf : ∀ ns : List Node, (∀ t ∈ testsOf ns, Accepts p t) →
    Settles (evaluateAny p payload haystack ns) (AnyFails p payload haystack ns)
      (meaningAny (leafHolds p payload haystack) ns) ∧
    Settles (evaluateAll p payload haystack ns) (AllFails p payload haystack ns)
      (meaningAll (leafHolds p payload haystack) ns)
  | [], _ => ⟨.inr ⟨id, rfl⟩, .inr ⟨id, rfl⟩⟩
  | n :: ns, hacc => by
      have hn := settles_evaluate n fun t ht => hacc t (by simp [testsOf, ht])
      obtain ⟨hany, hall⟩ := settles_evaluateOf ns fun t ht => hacc t (by simp [testsOf, ht])
      exact ⟨hn.or hany, hn.and hall⟩

end

end Document

/-! ### Both together -/

/-- No timestamp of the query that analysis reaches is without a date in
UTC. -/
def QuerySafe (p : Platform F) (query : Text) : Prop :=
  ∀ ast, ParsesTo p query ast → NoneEscapes p ast.tests

/-- No timestamp of the document that evaluation reaches is without a date in
UTC. -/
def DocumentSafe (p : Platform F) (query : Text) (payload : List (Text × Json F))
    (haystack : Text) : Prop :=
  ∀ ast, ParsesTo p query ast → ¬ ast.Fails p payload haystack

/-- Analysis returns or raises a `QuerySyntaxError` exactly when every
timestamp it reaches has a date in UTC, and evaluation returns a boolean
exactly when every timestamp it reaches has one. -/
theorem failure_safe_iff (p : Platform F) (builder : Text → Q) (query : Text) :
    (Safe (analyzeQuerySyntax p builder query) ↔ QuerySafe p query) ∧
    ∀ info, analyzeQuerySyntax p builder query = .ok info → ∀ payload haystack,
      (∃ b, evaluateQuerySyntax p info payload haystack = .ok b) ↔
        DocumentSafe p query payload haystack := by
  obtain ⟨⟨info, hinfo, hnone⟩, hno⟩ | ⟨⟨q, hq⟩, hno⟩ | ⟨ast, hast, herror, hok⟩ :=
    analyzeQuerySyntax_cases (p := p) builder query
  · rw [hinfo]
    refine ⟨iff_of_true (safe_ok info) fun ast h => absurd h (hno ast), ?_⟩
    rintro info' ⟨⟩ payload haystack
    refine iff_of_true ?_ fun ast h => absurd h (hno ast)
    simp [evaluateQuerySyntax, hnone]
  · rw [hq]
    refine ⟨iff_of_true (safe_query q) fun ast h => absurd h (hno ast), ?_⟩
    intro info h
    cases h
  · have hbuild := buildQuery_eq_runTests (p := p) builder ast
    have hsafe : QuerySafe p query ↔ Safe (buildQuery p builder ast) := by
      rw [← safe_map (f := fun _ => ()), hbuild, runTests_safe]
      exact ⟨fun h => h ast hast, fun h ast' hast' => hast.unique hast' ▸ h⟩
    cases hc : buildQuery p builder ast with
    | error e =>
      rw [herror e hc, hsafe, hc]
      refine ⟨⟨fun h e' he => h e' (by cases he; rfl), fun h e' he => h e' (by cases he; rfl)⟩, ?_⟩
      intro info h
      cases h
    | ok c =>
      obtain ⟨info, hinfo, hsome, -⟩ := hok c hc
      rw [hinfo, hsafe, hc]
      refine ⟨iff_of_true (safe_ok _) (safe_ok _), ?_⟩
      rintro info' ⟨⟩ payload haystack
      rw [hc] at hbuild
      have hsettles := settles_evaluate payload haystack ast
        (accepts_of_runTests (Q := Q) hbuild.symm)
      rw [evaluateQuerySyntax, hsome]
      refine hsettles.ok_iff.trans ?_
      exact ⟨fun h ast' hast' => hast.unique hast' ▸ h, fun h => h ast hast⟩

end

/-- The last second of the year 9999, an hour west of Greenwich, is in the
year 10000 in UTC. -/
theorem year_ten_thousand_escapes :
    analyzeQuerySyntax asciiPlatform id "@timestamp>\"9999-12-31T23:59:59-01:00\"".toList =
      .error .overflowError ∧
    ¬ Safe (analyzeQuerySyntax asciiPlatform id
      "@timestamp>\"9999-12-31T23:59:59-01:00\"".toList) := by
  have h : analyzeQuerySyntax asciiPlatform id
      "@timestamp>\"9999-12-31T23:59:59-01:00\"".toList = .error .overflowError := by
    rfl
  exact ⟨h, h ▸ not_safe_escaped (.inr rfl)⟩

end Kairon.Search

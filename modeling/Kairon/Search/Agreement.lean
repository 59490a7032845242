/-
Kairon/Search/Agreement.lean

When the two back ends of the search language agree.

Evaluation in memory compares spellings where the index compares values: a
number or a timestamp after `:` is looked up as text.  It also reads values
that no index of the field holds (lists in lists, objects, booleans among
numbers), truncates floats printed without a point, and lets neither `*` nor
`?` stand for a newline.  `Faithful` says, for one test and one value, that
none of this happens; `back_ends_agree` lifts it to whole queries.
-/
import Kairon.Search.Reference

namespace Kairon.Search

open Glob Settle

section

variable {F : Type} (p : Platform F)

/-! ### One value -/

/-- A number that evaluation in memory reads as it is written. -/
def ReadAsWritten : Json F → Prop
  | .int _ => True
  | .float x => '.' ∈ p.floatStr x ∨ p.floatNum x = none ∨ ∃ n : ℤ, p.floatNum x = some (.ofInt n)
  | .str s => '.' ∈ s ∨ (p.parseInt s).isSome = true ∨ p.parseFloat s = none
  | _ => False

/-- The condition for a number. -/
def FaithfulNumber (t : Test) (v : Json F) : Prop :=
  if (boundOf t.operator).isSome then ReadAsWritten p v
  else hasWildcard t.value = false ∧
    (p.normalizeString v = t.value ↔ p.number v = p.textNumber t.value)

/-- The condition for a timestamp. -/
def FaithfulDate (t : Test) (v : Json F) : Prop :=
  ∃ s, v = .str s ∧ if (boundOf t.operator).isSome then ∀ d, p.parseDate s = some d → d.InCalendar
    else hasWildcard t.value = false ∧
      (p.lower s = p.lower t.value ↔ p.instant s = p.instant t.value)

/-- The condition for a keyword. -/
def FaithfulKeyword (t : Test) (v : Json F) : Prop :=
  (p.keywordText v).isSome = true ∧ (hasWildcard t.value = true → '\n' ∉ p.normalizeString v)

/-- Evaluation in memory reads the value as the index does. -/
def Faithful (t : Test) (v : Json F) : Prop :=
  match t.spec.kind with
  | .numeric => FaithfulNumber p t v
  | .date => FaithfulDate p t v
  | _ => FaithfulKeyword p t v

variable {p}

variable {v : Json F}

theorem satisfies_present {t : Test} (h : v.present = true) :
    satisfies p t v = satisfiesValue p t v := by
  cases v with
  | null => cases h
  | bool b => rfl
  | int n => rfl
  | float x => rfl
  | str s => rfl
  | arr items => rfl
  | obj fields => rfl

theorem satisfies_absent {t : Test} (h : ¬ v.present = true) : satisfies p t v = false := by
  cases v with
  | null => rfl
  | bool b | int n | float x | str s | arr items | obj fields => exact absurd rfl h

theorem trunc_ofInt (n : ℤ) : Num.trunc (.ofInt n) = some n := by
  show some ((n : ℚ).num.tdiv (n : ℚ).den) = some n
  simp

/-- A number that is read as it is written is the number in the field. -/
theorem candidateNumber_eq (h : ReadAsWritten p v) : p.candidateNumber v = p.number v := by
  cases v with
  | int n => rfl
  | float x =>
    simp only [Platform.candidateNumber, Platform.number]
    split
    · rfl
    · next hpoint =>
        obtain hdot | hnone | ⟨n, hn⟩ := h
        · exact absurd hdot hpoint
        · rw [hnone]
          rfl
        · rw [hn]
          simp [trunc_ofInt]
  | str s =>
    simp only [Platform.candidateNumber, Platform.number, Platform.textNumber]
    split
    · next hpoint => rw [p.parseInt_point s hpoint, Option.map_none, Option.none_or]
    · next hpoint =>
        obtain hdot | hint | hfloat := h
        · exact absurd hdot hpoint
        · obtain ⟨n, hn⟩ := Option.isSome_iff_exists.1 hint
          rw [hn, Option.map_some, Option.some_or]
        · rw [hfloat, Option.or_none]
  | null | bool b | arr items | obj fields => exact absurd h id

/-- On a text without a newline, the pattern in memory is the pattern of the
index. -/
theorem matchString_iff {value expected : Text} (h : '\n' ∉ value) :
    matchString p value expected = true ↔ Glob.Matches p.sameLetter (pieces expected) value := by
  refine run_eq_true_iff p.sameLetter (fun c hc => ?_) fun r hr => ?_
  · exact decide_eq_true fun heq => h (heq ▸ hc)
  · have hno : r ≠ ['\n'] := by
      rintro rfl
      exact h (hr.subset (by simp))
    simp [hno]

/-- The text in memory and the text in the index differ in the case of `True`
and `False` only. -/
theorem keywordText_cases (h : (p.keywordText v).isSome = true) :
    ∃ t, p.keywordText v = some t ∧ p.lower (p.normalizeString v) = p.lower t ∧
      ∀ ps, Glob.Matches p.sameLetter ps (p.normalizeString v) ↔
        Glob.Matches p.sameLetter ps t := by
  cases v with
  | str s => exact ⟨s, rfl, rfl, fun _ => Iff.rfl⟩
  | int n => exact ⟨intStr n, rfl, rfl, fun _ => Iff.rfl⟩
  | float x => exact ⟨p.floatStr x, rfl, rfl, fun _ => Iff.rfl⟩
  | bool b =>
    cases b with
    | true =>
      refine ⟨"true".toList, rfl, p.lower_true, fun ps => ⟨?_, ?_⟩⟩
      · exact Glob.Matches.congr_head p.sameLetter p.sameLetter_t
      · exact Glob.Matches.congr_head p.sameLetter fun a => (p.sameLetter_t a).symm
    | false =>
      refine ⟨"false".toList, rfl, p.lower_false, fun ps => ⟨?_, ?_⟩⟩
      · exact Glob.Matches.congr_head p.sameLetter p.sameLetter_f
      · exact Glob.Matches.congr_head p.sameLetter fun a => (p.sameLetter_f a).symm
  | null => cases h
  | arr items => cases h
  | obj fields => cases h

section Value

variable {t : Test} {v : Json F}

theorem number_range {bound : Bound} {y : Num} (hkind : t.spec.kind = .numeric)
    (hbound : boundOf t.operator = some bound) (hy : p.textNumber t.value = some y)
    (h : FaithfulNumber p t v) :
    rangeMatches p bound (.number y) v ↔ satisfiesValue p t v = true := by
  rw [FaithfulNumber, hbound, Option.isSome_some, if_pos rfl] at h
  have hdate : t.spec.kind ≠ .date := by simp [hkind]
  simp only [satisfiesValue, hbound, if_neg hdate, candidateNumber_eq h, hy, rangeMatches]
  cases p.number v with
  | none => simp
  | some x => simp

theorem number_term {y : Num} (hkind : t.spec.kind = .numeric)
    (hbound : boundOf t.operator = none) (hy : p.textNumber t.value = some y)
    (h : FaithfulNumber p t v) :
    termMatches p (.number y) v ↔ satisfiesValue p t v = true := by
  rw [FaithfulNumber, hbound, if_neg (by simp)] at h
  obtain ⟨hw, hspelled⟩ := h
  rw [hy] at hspelled
  simp [satisfiesValue, hbound, hw, hkind, termMatches, hspelled]

theorem date_range {bound : Bound} {d : PyDateTime} (hkind : t.spec.kind = .date)
    (hbound : boundOf t.operator = some bound) (hd : p.parseDate t.value = some d)
    (hcal : d.InCalendar) (h : FaithfulDate p t v) :
    rangeMatches p bound (.date (.ofStamp d.shifted hcal.2)) v ↔ satisfiesValue p t v = true := by
  obtain ⟨s, rfl, -⟩ := h
  have hvalue : p.instant t.value = some d.shifted := by rw [p.instant_eq hd, if_pos hcal]
  simp only [satisfiesValue, hbound, if_pos hkind, hvalue, rangeMatches, Platform.instantOf,
    Platform.normalizeString, stamp_ofStamp]
  cases p.instant s with
  | none => simp
  | some x => simp

theorem date_term {d : PyDateTime} (hkind : t.spec.kind = .date)
    (hbound : boundOf t.operator = none) (hd : p.parseDate t.value = some d)
    (hcal : d.InCalendar) (h : FaithfulDate p t v) :
    termMatches p (.date (.ofStamp d.shifted hcal.2)) v ↔ satisfiesValue p t v = true := by
  obtain ⟨s, rfl, h⟩ := h
  rw [hbound, if_neg (by simp)] at h
  obtain ⟨hw, hspelled⟩ := h
  have hvalue : p.instant t.value = some d.shifted := by rw [p.instant_eq hd, if_pos hcal]
  rw [hvalue] at hspelled
  simp [satisfiesValue, hbound, hw, hkind, termMatches, Platform.instantOf,
    Platform.normalizeString, stamp_ofStamp, hspelled]

theorem keyword_wildcard (hbound : boundOf t.operator = none) (hw : hasWildcard t.value = true)
    (h : FaithfulKeyword p t v) :
    wildcardMatches p t.value v ↔ satisfiesValue p t v = true := by
  obtain ⟨htext, hline⟩ := h
  obtain ⟨s, hs, -, hglob⟩ := keywordText_cases htext
  simp only [satisfiesValue, hbound, hw, if_true, matchString_iff (hline hw), hglob,
    wildcardMatches, hs]
  simp

theorem keyword_term (hkind : t.spec.kind ≠ .numeric) (hbound : boundOf t.operator = none)
    (hw : hasWildcard t.value = false) (h : FaithfulKeyword p t v) :
    termMatches p (.text t.value) v ↔ satisfiesValue p t v = true := by
  obtain ⟨s, hs, hlower, -⟩ := keywordText_cases h.1
  simp [satisfiesValue, hbound, hw, hkind, termMatches, hs, hlower]

end Value

/-! ### One test -/

variable {Q : Type} {analyzer : Analyzer F Q} {payload : List (Text × Json F)}

/-- The clause of an accepted test. -/
theorem queryForSpec_eq_ok {t : Test} {c : Clause Q}
    (h : queryForSpec p t.operator t.value t.spec = .ok c) :
    ∃ o, coerceValue p t.spec t.value = .ok o ∧
      ((∃ bound, boundOf t.operator = some bound ∧ (t.spec.kind = .numeric ∨ t.spec.kind = .date) ∧
          c = .range t.spec.path bound o) ∨
       (boundOf t.operator = none ∧ (t.spec.kind = .numeric ∨ t.spec.kind = .date) ∧
          c = .term t.spec.path o) ∨
       (boundOf t.operator = none ∧ ¬ (t.spec.kind = .numeric ∨ t.spec.kind = .date) ∧
          hasWildcard t.value = true ∧ c = .wildcard t.spec.path t.value) ∨
       (t.spec.kind = .text ∧ c = .matchPhrase t.spec.path t.value) ∨
       (boundOf t.operator = none ∧ ¬ (t.spec.kind = .numeric ∨ t.spec.kind = .date) ∧
          hasWildcard t.value = false ∧ c = .term t.spec.path o)) := by
  rw [queryForSpec, bind_eq_ok] at h
  obtain ⟨o, ho, h⟩ := h
  refine ⟨o, ho, ?_⟩
  cases hbound : boundOf t.operator with
  | some bound =>
    simp only [hbound] at h
    split at h
    · next hkind =>
        cases h
        exact .inl ⟨bound, rfl, hkind, rfl⟩
    · cases h
  | none =>
    simp only [hbound] at h
    split at h
    · cases h
    split at h
    · next hkind =>
        cases h
        exact .inr (.inl ⟨rfl, hkind, rfl⟩)
    next hkind =>
    split at h
    · next hw =>
        split at h
        · cases h
        split at h
        · cases h
        · cases h
          exact .inr (.inr (.inl ⟨rfl, hkind, hw, rfl⟩))
    next hw =>
    have hw' : hasWildcard t.value = false := by simpa using hw
    split at h
    · next htext =>
        cases h
        exact .inr (.inr (.inr (.inl ⟨htext, rfl⟩)))
    · cases h
      exact .inr (.inr (.inr (.inr ⟨rfl, hkind, hw', rfl⟩)))

/-- A test agrees with its clause where every indexed value is read
faithfully. -/
theorem test_agrees {t : Test} {c : Clause Q} (hacc : Accepts p t)
    (h : queryForSpec p t.operator t.value t.spec = .ok c) (htext : t.spec.kind ≠ .text)
    (hf : ∀ v ∈ indexedValues payload t.spec.path, Faithful p t v) :
    c.Matches p analyzer payload ↔
      ∃ v ∈ indexedValues payload t.spec.path, satisfiesValue p t v = true := by
  obtain ⟨o, ho, hc⟩ := queryForSpec_eq_ok h
  -- numbers and timestamps: the operand is the value the test was accepted with
  have htyped : t.spec.kind = .numeric ∨ t.spec.kind = .date →
      (∀ bound, boundOf t.operator = some bound → ∀ v ∈ indexedValues payload t.spec.path,
        (rangeMatches p bound o v ↔ satisfiesValue p t v = true)) ∧
      (boundOf t.operator = none → ∀ v ∈ indexedValues payload t.spec.path,
        (termMatches p o v ↔ satisfiesValue p t v = true)) := by
    rintro (hkind | hkind)
    · simp only [Accepts, hkind] at hacc
      obtain ⟨y, hy⟩ := Option.isSome_iff_exists.1 hacc.1
      rw [coerceValue_numeric hkind hy] at ho
      cases ho
      have hf' : ∀ v ∈ indexedValues payload t.spec.path, FaithfulNumber p t v := by
        simpa only [Faithful, hkind] using hf
      exact ⟨fun bound hb v hv => number_range hkind hb hy (hf' v hv),
        fun hb v hv => number_term hkind hb hy (hf' v hv)⟩
    · simp only [Accepts, hkind] at hacc
      obtain ⟨⟨d, hd, hcal⟩, -⟩ := hacc
      rw [coerceValue_date hkind hd hcal] at ho
      cases ho
      have hf' : ∀ v ∈ indexedValues payload t.spec.path, FaithfulDate p t v := by
        simpa only [Faithful, hkind] using hf
      exact ⟨fun bound hb v hv => date_range hkind hb hd hcal (hf' v hv),
        fun hb v hv => date_term hkind hb hd hcal (hf' v hv)⟩
  have hkeyword : ¬ (t.spec.kind = .numeric ∨ t.spec.kind = .date) →
      ∀ v ∈ indexedValues payload t.spec.path, FaithfulKeyword p t v := by
    intro hkind v hv
    have hv := hf v hv
    unfold Faithful at hv
    split at hv
    · exact absurd (.inl ‹_›) hkind
    · exact absurd (.inr ‹_›) hkind
    · exact hv
  obtain ⟨bound, hbound, hkind, rfl⟩ | ⟨hbound, hkind, rfl⟩ | ⟨hbound, hkind, hw, rfl⟩ |
    ⟨htext', -⟩ | ⟨hbound, hkind, hw, rfl⟩ := hc
  · exact exists_congr fun v => and_congr_right fun hv => (htyped hkind).1 bound hbound v hv
  · exact exists_congr fun v => and_congr_right fun hv => (htyped hkind).2 hbound v hv
  · exact exists_congr fun v => and_congr_right fun hv =>
      keyword_wildcard hbound hw (hkeyword hkind v hv)
  · exact absurd htext' htext
  · obtain ⟨hnum, hdate⟩ : t.spec.kind ≠ .numeric ∧ t.spec.kind ≠ .date := by simpa using hkind
    rw [coerceValue_text ⟨hnum, hdate⟩] at ho
    cases ho
    exact exists_congr fun v => and_congr_right fun hv =>
      keyword_term hnum hbound hw (hkeyword hkind v hv)

/-- Nulls aside, evaluation in memory ranges over the indexed values. -/
theorem any_satisfies_iff {t : Test} (h : NoNestedLists (splitPath t.spec.path) (.obj payload)) :
    (iterValues payload t.spec.path).any (satisfies p t) = true ↔
      ∃ v ∈ indexedValues payload t.spec.path, satisfiesValue p t v = true := by
  rw [← iterValues_filter h, List.any_eq_true]
  refine exists_congr fun v => ?_
  rw [List.mem_filter, and_assoc]
  refine and_congr_right fun _ => ?_
  by_cases hv : v.present = true
  · rw [satisfies_present hv]
    exact ⟨fun h => ⟨hv, h⟩, fun h => h.2⟩
  · rw [satisfies_absent hv]
    exact iff_of_false (by simp) fun h => hv h.1

/-! ### Whole queries -/

variable (p payload) in
/-- The document holds what the leaves of a query ask for in a form that
evaluation in memory reads as the index does. -/
structure FaithfulTo (n : Node) : Prop where
  /-- Tested values are read faithfully. -/
  tests : ∀ t ∈ n.tests, NoNestedLists (splitPath t.spec.path) (.obj payload) ∧
    ∀ v ∈ indexedValues payload t.spec.path, Faithful p t v
  /-- A field that is asked for does not hold nulls only. -/
  fields : ∀ field, .exists field ∈ n.leaves →
    (∀ spec ∈ field.specs, NoNestedLists (splitPath spec.path) (.obj payload)) ∧
    ((∃ spec ∈ field.specs, iterValues payload spec.path ≠ []) →
      ∃ spec ∈ field.specs, ∃ v ∈ iterValues payload spec.path, v.present = true)

theorem exists_agrees {field : ParsedField}
    (hlists : ∀ spec ∈ field.specs, NoNestedLists (splitPath spec.path) (.obj payload))
    (hnulls : (∃ spec ∈ field.specs, iterValues payload spec.path ≠ []) →
      ∃ spec ∈ field.specs, ∃ v ∈ iterValues payload spec.path, v.present = true) :
    (∃ spec ∈ field.specs, indexedValues payload spec.path ≠ []) ↔
      ∃ spec ∈ field.specs, iterValues payload spec.path ≠ [] := by
  constructor
  · rintro ⟨spec, hspec, hne⟩
    refine ⟨spec, hspec, fun hempty => hne ?_⟩
    rw [← iterValues_filter (hlists spec hspec), hempty]
    rfl
  · intro h
    obtain ⟨spec, hspec, v, hv, hpresent⟩ := hnulls h
    refine ⟨spec, hspec, List.ne_nil_of_mem (a := v) ?_⟩
    rw [← iterValues_filter (hlists spec hspec), List.mem_filter]
    exact ⟨hv, hpresent⟩

theorem FaithfulTo.not {n : Node} (h : FaithfulTo p payload (.not n)) : FaithfulTo p payload n :=
  ⟨h.tests, h.fields⟩

theorem FaithfulTo.head {op : BoolOp} {n : Node} {ns : List Node}
    (h : FaithfulTo p payload (.bool op (n :: ns))) : FaithfulTo p payload n where
  tests t ht := h.tests t (List.mem_append_left _ ht)
  fields field hfield := h.fields field (List.mem_append_left _ hfield)

theorem FaithfulTo.tail {op : BoolOp} {n : Node} {ns : List Node}
    (h : FaithfulTo p payload (.bool op (n :: ns))) : FaithfulTo p payload (.bool op ns) where
  tests t ht := h.tests t (List.mem_append_right _ ht)
  fields field hfield := h.fields field (List.mem_append_right _ hfield)

theorem predicate_agrees {operator value : Text} {specs : List FieldSpec} {cs : List (Clause Q)}
    (h : specs.mapM (queryForSpec p operator value) = .ok cs)
    (htests : ∀ spec ∈ specs, Accepts p ⟨spec, operator, value⟩ ∧ spec.kind ≠ .text ∧
      NoNestedLists (splitPath spec.path) (.obj payload) ∧
      ∀ v ∈ indexedValues payload spec.path, Faithful p ⟨spec, operator, value⟩ v) :
    AnyMatches p analyzer payload cs ↔ ∃ spec ∈ specs,
      (iterValues payload spec.path).any (satisfies p ⟨spec, operator, value⟩) = true := by
  induction specs generalizing cs with
  | nil =>
    cases h
    simp [AnyMatches]
  | cons spec specs ih =>
    rw [List.mapM_cons, bind_eq_ok] at h
    obtain ⟨c, hc, h⟩ := h
    rw [bind_eq_ok] at h
    obtain ⟨cs', hcs', h⟩ := h
    cases h
    obtain ⟨hacc, htext, hlists, hf⟩ := htests spec (by simp)
    have hc' : queryForSpec p (Test.mk spec operator value).operator
        (Test.mk spec operator value).value (Test.mk spec operator value).spec = .ok c := hc
    rw [AnyMatches, ih hcs' fun s hs => htests s (by simp [hs]), test_agrees hacc hc' htext hf,
      ← any_satisfies_iff hlists]
    simp

section Trees

variable (analyzer) (haystack : Text) {builder : Text → Q}

mutual

theorem node_agrees : ∀ (n : Node) (c : Clause Q), buildQuery p builder n = .ok c →
    (∀ t ∈ n.tests, Accepts p t ∧ t.spec.kind ≠ .text) → hasTextTerms n = false →
    FaithfulTo p payload n →
    (c.Matches p analyzer payload ↔ n.meaning (leafHolds p payload haystack) = true)
  | .text _, _, _, _, htext, _ => by cases htext
  | .exists field, c, h, _, _, hf => by
      cases h
      obtain ⟨hlists, hnulls⟩ := hf.fields field (by simp [Node.leaves])
      rw [matches_shouldOf, anyMatches_map]
      refine (exists_agrees hlists hnulls).trans ?_
      simp [Node.meaning, leafHolds]
  | .predicate field operator value, c, h, hacc, _, hf => by
      rw [buildQuery, bind_eq_ok] at h
      obtain ⟨cs, hcs, h⟩ := h
      cases h
      rw [matches_shouldOf, predicate_agrees hcs]
      · simp [Node.meaning, leafHolds]
      · intro spec hspec
        have hmem : (⟨spec, operator, value⟩ : Test) ∈
            (Node.predicate field operator value).tests := by
          simpa [Node.tests] using hspec
        exact ⟨(hacc _ hmem).1, (hacc _ hmem).2, hf.tests _ hmem⟩
  | .not child, c, h, hacc, htext, hf => by
      rw [buildQuery, bind_eq_ok] at h
      obtain ⟨c', hc', h⟩ := h
      cases h
      have ih := node_agrees child c' hc' hacc htext hf.not
      simp [Clause.Matches, AnyMatches, Node.meaning, ih]
  | .bool .or children, c, h, hacc, htext, hf => by
      rw [buildQuery, bind_eq_ok] at h
      obtain ⟨cs, hcs, h⟩ := h
      cases h
      exact (nodes_agree .or children cs hcs hacc htext hf).1
  | .bool .and children, c, h, hacc, htext, hf => by
      rw [buildQuery, bind_eq_ok] at h
      obtain ⟨cs, hcs, h⟩ := h
      cases h
      exact (nodes_agree .and children cs hcs hacc htext hf).2

theorem nodes_agree (op : BoolOp) : ∀ (ns : List Node) (cs : List (Clause Q)),
    buildQueries p builder ns = .ok cs →
    (∀ t ∈ testsOf ns, Accepts p t ∧ t.spec.kind ≠ .text) → anyTextTerms ns = false →
    FaithfulTo p payload (.bool op ns) →
    (AnyMatches p analyzer payload cs ↔ meaningAny (leafHolds p payload haystack) ns = true) ∧
    (AllMatch p analyzer payload cs ↔ meaningAll (leafHolds p payload haystack) ns = true)
  | [], cs, h, _, _, _ => by
      cases h
      simp [AnyMatches, AllMatch, meaningAny, meaningAll]
  | n :: ns, cs, h, hacc, htext, hf => by
      rw [buildQueries, bind_eq_ok] at h
      obtain ⟨c, hc, h⟩ := h
      rw [bind_eq_ok] at h
      obtain ⟨cs', hcs', h⟩ := h
      cases h
      obtain ⟨hn, hns⟩ : hasTextTerms n = false ∧ anyTextTerms ns = false := by
        simpa [anyTextTerms] using htext
      have hhead := node_agrees n c hc (fun t ht => hacc t (List.mem_append_left _ ht)) hn hf.head
      obtain ⟨hany, hall⟩ := nodes_agree op ns cs' hcs'
        (fun t ht => hacc t (List.mem_append_right _ ht)) hns hf.tail
      simp [AnyMatches, AllMatch, meaningAny, meaningAll, hhead, hany, hall]

end

end Trees

/-! ### No error on a faithful document -/

theorem not_breaks {t : Test} (h : v.present = true → Faithful p t v) : ¬ Breaks p t v := by
  intro hbreaks
  have hpresent : v.present = true := by
    cases v with
    | null => exact absurd hbreaks id
    | bool b => rfl
    | int n => rfl
    | float x => rfl
    | str s => rfl
    | arr items => rfl
    | obj fields => rfl
  have hvalue : BreaksValue p t v := by
    cases v with
    | null => cases hpresent
    | bool b => exact hbreaks
    | int n => exact hbreaks
    | float x => exact hbreaks
    | str s => exact hbreaks
    | arr items => exact hbreaks
    | obj fields => exact hbreaks
  obtain ⟨hbound, hkind, d, hd, hcal⟩ := hvalue
  have hf : FaithfulDate p t v := by simpa only [Faithful, hkind] using h hpresent
  obtain ⟨s, rfl, hcalendar⟩ := hf
  rw [if_pos hbound] at hcalendar
  exact hcal (hcalendar d hd)

variable (haystack : Text)

mutual

theorem not_fails : ∀ n : Node,
    (∀ t ∈ n.tests, ∀ v ∈ iterValues payload t.spec.path, ¬ Breaks p t v) →
    ¬ n.Fails p payload haystack
  | .text _, _ => id
  | .exists _, _ => id
  | .predicate field operator value, h => by
      refine not_failsUntil fun spec hspec => not_failsUntil fun v hv => ?_
      exact h ⟨spec, operator, value⟩ (by simpa [Node.tests] using hspec) v hv
  | .not child, h => not_fails child h
  | .bool .or children, h => (not_fails_of children h).1
  | .bool .and children, h => (not_fails_of children h).2

theorem not_fails_of : ∀ ns : List Node,
    (∀ t ∈ testsOf ns, ∀ v ∈ iterValues payload t.spec.path, ¬ Breaks p t v) →
    ¬ AnyFails p payload haystack ns ∧ ¬ AllFails p payload haystack ns
  | [], _ => ⟨id, id⟩
  | n :: ns, h => by
      have hn := not_fails n fun t ht => h t (List.mem_append_left _ ht)
      obtain ⟨hany, hall⟩ := not_fails_of ns fun t ht => h t (List.mem_append_right _ ht)
      refine ⟨?_, ?_⟩
      · rintro (hfail | ⟨-, hfail⟩)
        · exact hn hfail
        · exact hany hfail
      · rintro (hfail | ⟨-, hfail⟩)
        · exact hn hfail
        · exact hall hfail

end

end

/-! ### A number, and the same number spelled differently -/

/-- A document with a risk score of 7. -/
def sevenDocument : List (Text × Json Empty) := [("risk_score".toList, .int 7)]

def riskScore : ParsedField := ⟨"risk_score".toList, [numeric "risk_score"]⟩

/-- `risk_score>=5 has:risk_score`. -/
def riskAst : Node :=
  .bool .and [.predicate riskScore ['>', '='] ['5'], .exists riskScore]

theorem sevenDocument_lists :
    NoNestedLists (splitPath "risk_score".toList) (.obj sevenDocument) := by
  intro w hw x hx
  obtain rfl : w = .int 7 := (Option.some.inj hw).symm
  obtain rfl : x = .int 7 := by simpa [flattenItem] using hx
  exact ⟨trivial, trivial⟩

theorem riskQuery_parses :
    ParsesTo asciiPlatform "risk_score>=5 has:risk_score".toList riskAst := by
  refine ⟨by decide +kernel, by decide +kernel,
    [⟨.word, "risk_score".toList, 0⟩, ⟨.op, ['>', '='], 10⟩, ⟨.word, ['5'], 12⟩,
      ⟨.word, "has".toList, 14⟩, ⟨.op, [':'], 17⟩, ⟨.word, "risk_score".toList, 18⟩],
    by decide +kernel, rfl⟩

theorem sevenQuery_parses : ParsesTo asciiPlatform "risk_score:007".toList
    (.predicate riskScore [':'] "007".toList) := by
  refine ⟨by decide +kernel, by decide +kernel,
    [⟨.word, "risk_score".toList, 0⟩, ⟨.op, [':'], 10⟩, ⟨.word, "007".toList, 11⟩],
    by decide +kernel, rfl⟩

end Kairon.Search

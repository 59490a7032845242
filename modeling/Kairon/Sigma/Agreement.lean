/-
Kairon/Sigma/Agreement.lean

The two evaluators against each other.

They part where the condition names something that compilation passes over: a
selection that is missing or of another kind.  On the rule itself such a name
does not match; on the compiled rule it has no clauses, and a selection without
clauses matches everything.  Where every operand of the condition is taken up,
the two agree on every document, failures included (`evaluations_agree`).
-/
import Kairon.Sigma.Evaluate

namespace Kairon.Sigma

open Search (Text Json strip)
open Rpn Settle

section

variable {F O : Type} {lib : Library F O} {document : Document F}

/-! ### Groups of clauses -/

/-- The group in front stays together. -/
theorem groupClauses_append {a : Option ℕ} {xs ys : List Clause} (hne : xs ≠ [])
    (hxs : ∀ x ∈ xs, x.alternative = a) (hys : ∀ y ∈ ys, y.alternative ≠ a) :
    groupClauses (xs ++ ys) = xs :: groupClauses ys := by
  obtain ⟨x, xs, rfl⟩ := List.exists_cons_of_ne_nil hne
  have hx : x.alternative = a := hxs x (by simp)
  -- the alternatives behind the first one are those of `ys`
  have hkeys : (((xs ++ ys).map Clause.alternative).filter fun b => !b == a) =
      ys.map Clause.alternative := by
    rw [List.map_append, List.filter_append]
    have hfront : ((xs.map Clause.alternative).filter fun b => !b == a) = [] := by
      rw [List.filter_eq_nil_iff]
      intro b hb
      obtain ⟨y, hy, rfl⟩ := List.mem_map.1 hb
      simp [hxs y (by simp [hy])]
    have hback : ((ys.map Clause.alternative).filter fun b => !b == a) =
        ys.map Clause.alternative := by
      rw [List.filter_eq_self]
      intro b hb
      obtain ⟨y, hy, rfl⟩ := List.mem_map.1 hb
      simpa using hys y hy
    rw [hfront, hback, List.nil_append]
  have hfirst : (x :: xs ++ ys).filter (fun clause => clause.alternative = a) = x :: xs := by
    rw [List.filter_append, List.filter_eq_self.2 fun y hy => by simp [hxs y hy],
      List.filter_eq_nil_iff.2 fun y hy => by simp [hys y hy], List.append_nil]
  have hrest : ∀ b ∈ (ys.map Clause.alternative).eraseDups,
      ((x :: xs ++ ys).filter fun clause => clause.alternative = b) =
        ys.filter fun clause => clause.alternative = b := by
    intro b hb
    obtain ⟨y, hy, rfl⟩ := List.mem_map.1 (List.mem_eraseDups.1 hb)
    rw [List.filter_append, List.filter_eq_nil_iff.2, List.nil_append]
    intro z hz
    simpa [hxs z hz] using fun h => hys y hy h.symm
  show ((x :: xs ++ ys).map Clause.alternative).eraseDups.map _ = _
  rw [List.cons_append, List.map_cons, List.eraseDups_cons, hx, hkeys, List.map_cons]
  rw [← List.cons_append, hfirst]
  congr 1
  exact List.map_congr_left hrest

theorem groupClauses_same {a : Option ℕ} {xs : List Clause} (hne : xs ≠ [])
    (hxs : ∀ x ∈ xs, x.alternative = a) : groupClauses xs = [xs] := by
  have h : groupClauses (xs ++ []) = xs :: groupClauses [] :=
    groupClauses_append hne hxs (by simp)
  rwa [List.append_nil] at h

variable {blocks : List (List (Scalar O × Yaml O))}

/-- The clauses of numbered maps fall back into their maps. -/
theorem groupClauses_numbered (k : ℕ) (hne : ∀ block ∈ blocks, block ≠ []) :
    groupClauses ((blocks.zipIdx k).flatMap fun block =>
        block.1.map (lib.clauseOf (some block.2))) =
      (blocks.zipIdx k).map fun block => block.1.map (lib.clauseOf (some block.2)) := by
  induction blocks generalizing k with
  | nil => rfl
  | cons block blocks ih =>
    rw [List.zipIdx_cons, List.flatMap_cons, List.map_cons, groupClauses_append (a := some k)]
    · rw [ih (k + 1) fun b hb => hne b (by simp [hb])]
    · simpa using hne block (by simp)
    · intro x hx
      obtain ⟨entry, -, rfl⟩ := List.mem_map.1 hx
      rfl
    · intro y hy
      obtain ⟨numbered, hnumbered, hy⟩ := List.mem_flatMap.1 hy
      obtain ⟨entry, -, rfl⟩ := List.mem_map.1 hy
      have hk : k + 1 ≤ numbered.2 := by
        obtain ⟨b, j⟩ := numbered
        exact (List.mem_zipIdx hnumbered).1
      show some numbered.2 ≠ some k
      simp
      omega

/-! ### Selections -/

theorem allOk_map_clauseOf (a : Option ℕ) (block : List (Scalar O × Yaml O)) :
    allOk (lib.clauseHolds document) (block.map (lib.clauseOf a)) =
      allOk (lib.clauseHolds document) (block.map (lib.clauseOf none)) := by
  induction block with
  | nil => rfl
  | cons entry block ih =>
    rw [List.map_cons, List.map_cons, allOk, allOk, ih]
    rfl

theorem anyOk_singleton {ε α : Type} (f : α → Except ε Bool) (a : α) : anyOk f [a] = f a := by
  rw [anyOk]
  cases f a with
  | error e => rfl
  | ok b =>
    cases b with
    | true => rfl
    | false => rfl

/-- One map is the alternative of its own clauses. -/
theorem selectionHolds_single (block : List (Scalar O × Yaml O)) :
    lib.selectionHolds document (lib.blockClauses [block]) =
      allOk (lib.clauseHolds document) (block.map (lib.clauseOf none)) := by
  have hclauses : lib.blockClauses [block] = block.map (lib.clauseOf none) := by
    simp [Library.blockClauses]
  rw [hclauses, Library.selectionHolds]
  by_cases hblock : block = []
  · subst hblock
    rfl
  · rw [groupClauses_same (a := none) (by simpa using hblock)]
    · rw [if_neg (by simp), anyOk_singleton]
    · intro x hx
      obtain ⟨entry, -, rfl⟩ := List.mem_map.1 hx
      rfl

theorem anyOk_zipIdx (blocks : List (List (Scalar O × Yaml O))) (k : ℕ) :
    anyOk (allOk (lib.clauseHolds document))
        ((blocks.zipIdx k).map fun block => block.1.map (lib.clauseOf (some block.2))) =
      anyOk (allOk (lib.clauseHolds document))
        (blocks.map fun block => block.map (lib.clauseOf none)) := by
  induction blocks generalizing k with
  | nil => rfl
  | cons block blocks ih =>
    rw [List.zipIdx_cons, List.map_cons, List.map_cons, anyOk, anyOk, ih,
      allOk_map_clauseOf (some k)]

/-- The clauses of a list of maps match like the maps. -/
theorem selectionHolds_blocks (hsome : blocks ≠ []) (hne : ∀ block ∈ blocks, block ≠ []) :
    lib.selectionHolds document (lib.blockClauses blocks) = anyOk (allOk (lib.clauseHolds document))
        (blocks.map fun block => block.map (lib.clauseOf none)) := by
  obtain ⟨block, blocks, rfl⟩ := List.exists_cons_of_ne_nil hsome
  by_cases hmany : (block :: blocks).length > 1
  · rw [Library.selectionHolds, Library.blockClauses]
    simp only [if_pos hmany]
    rw [groupClauses_numbered 0 hne, if_neg (by simp), anyOk_zipIdx]
  · have hnil : blocks = [] := by
      simpa using hmany
    subst hnil
    rw [selectionHolds_single, List.map_singleton, anyOk_singleton]

variable {selection : Yaml O}

/-- The maps of a list of maps. -/
theorem selectionBlocks_of_isMapList (h : isMapListSelection selection = true) :
    selectionBlocks selection ≠ [] ∧ ∀ block ∈ selectionBlocks selection, block ≠ [] := by
  cases selection with
  | scalar x => cases h
  | map entries => cases h
  | list items =>
    simp only [isMapListSelection, Bool.and_eq_true, List.all_eq_true] at h
    obtain ⟨hitems, hmaps⟩ := h
    have hfilled : ∀ item ∈ items, ∃ entry entries, item = .map (entry :: entries) := by
      intro item hitem
      have hm := hmaps item hitem
      rcases item with x | items' | (- | ⟨entry, entries⟩)
      · cases hm
      · cases hm
      · cases hm
      · exact ⟨entry, entries, rfl⟩
    constructor
    · obtain ⟨item, items, rfl⟩ := List.exists_cons_of_ne_nil (by simpa using hitems)
      obtain ⟨entry, entries, rfl⟩ := hfilled item (by simp)
      simp [selectionBlocks]
    · intro block hblock
      obtain ⟨item, hitem, hb⟩ := List.mem_filterMap.1 hblock
      obtain ⟨entry, entries, rfl⟩ := hfilled item hitem
      cases hb
      simp

theorem allOk_singleton {ε α : Type} (f : α → Except ε Bool) (a : α) : allOk f [a] = f a := by
  rw [allOk]
  cases f a with
  | error e => rfl
  | ok b =>
    cases b with
    | true => rfl
    | false => rfl

/-- Only suffixes have basenames. -/
theorem matchBasenameAlternate_eq_none {modifier : Modifier}
    (h : modifier ≠ ⟨some .endswith, false⟩) (base : Text) (expected : List Text) :
    lib.matchBasenameAlternate document base modifier expected = none := by
  have halternates : basenameAlternates base modifier expected = none := by
    rw [basenameAlternates]
    split
    · rfl
    · rw [if_pos h]
  rw [Library.matchBasenameAlternate, halternates]

theorem clauseHolds_of_ne_endswith {clause : Clause}
    (h : clause.modifier ≠ ⟨some .endswith, false⟩) :
    lib.clauseHolds document clause =
      anyOk (fun field => lib.matchScalar clause.modifier (lib.actualValues document field)
        clause.expected) clause.mappedFields := by
  rw [Library.clauseHolds, matchBasenameAlternate_eq_none h]
  cases anyOk (fun field => lib.matchScalar clause.modifier (lib.actualValues document field)
      clause.expected) clause.mappedFields with
  | error e => rfl
  | ok b =>
    cases b with
    | true => rfl
    | false => rfl

/-- The clause of a keyword list looks at its fields and nothing else. -/
theorem selectionHolds_keyword (selection : Yaml O) :
    lib.selectionHolds document [lib.keywordClause selection] =
      anyOk (fun field => lib.matchScalar ⟨some .keyword, false⟩ (lib.actualValues document field)
        (lib.keywordValues selection)) (mappedSigmaFields "_keywords".toList).1 := by
  have hgroup : groupClauses [lib.keywordClause selection] = [[lib.keywordClause selection]] :=
    groupClauses_same (a := none) (by simp) fun x hx => by
      rw [List.mem_singleton.1 hx]
      rfl
  rw [Library.selectionHolds, hgroup, if_neg (by simp), anyOk_singleton, allOk_singleton]
  refine clauseHolds_of_ne_endswith ?_
  show (⟨some .keyword, false⟩ : Modifier) ≠ ⟨some .endswith, false⟩
  decide

/-- A keyword list of the rule looks at the same fields. -/
theorem keyword_matched (name : Text) (values : List Text) :
    ((lib.firstField document ⟨some .keyword, false⟩ values
        (mappedSigmaFields "_keywords".toList).1 >>= fun found =>
      match found with
      | some (field, actual) => pure ⟨true, [(name, ⟨field, values.take 5, actual.take 1⟩)], []⟩
      | none => pure ⟨false, [], []⟩).map Verdict.matched) =
      anyOk (fun field => lib.matchScalar ⟨some .keyword, false⟩ (lib.actualValues document field)
        values) (mappedSigmaFields "_keywords".toList).1 := by
  rw [← firstField_isSome]
  cases lib.firstField document ⟨some .keyword, false⟩ values
      (mappedSigmaFields "_keywords".toList).1 with
  | error e => rfl
  | ok found =>
    cases found with
    | none => rfl
    | some hit => rfl

variable {keywords : Bool}

/-- A selection that is taken up matches like its clauses. -/
theorem matchSelection_matched {clauses : List Clause}
    (h : lib.compileSelection keywords selection = some clauses) (name : Text) :
    (lib.matchSelection document keywords name selection).map Verdict.matched =
      lib.selectionHolds document clauses := by
  rw [Library.compileSelection.eq_def] at h
  rw [Library.matchSelection.eq_def]
  by_cases hkeyword : (keywords && lib.isKeywordSelection selection) = true
  · rw [if_pos hkeyword] at h ⊢
    cases h
    rw [selectionHolds_keyword]
    exact keyword_matched name _
  rw [if_neg hkeyword] at h ⊢
  cases selection with
  | scalar x => cases h
  | map entries =>
    cases h
    rw [selectionHolds_single, if_neg (by simp [isMapListSelection])]
    exact matchClauses_matched _ [] []
  | list items =>
    simp only at h
    split at h
    · rename_i hmaps
      cases h
      obtain ⟨hsome, hne⟩ := selectionBlocks_of_isMapList hmaps
      rw [selectionHolds_blocks hsome hne, if_pos hmaps]
      exact matchAlternatives_matched _ []
    · cases h

/-- A selection that is passed over does not match. -/
theorem matchSelection_passed (h : lib.compileSelection keywords selection = none) (name : Text) :
    (lib.matchSelection document keywords name selection).map Verdict.matched = .ok false := by
  rw [Library.compileSelection.eq_def] at h
  rw [Library.matchSelection.eq_def]
  by_cases hkeyword : (keywords && lib.isKeywordSelection selection) = true
  · rw [if_pos hkeyword] at h
    cases h
  rw [if_neg hkeyword] at h ⊢
  cases selection with
  | scalar x => rfl
  | map entries => cases h
  | list items =>
    simp only at h
    split at h
    · cases h
    · rename_i hmaps
      rw [if_neg hmaps]
      rfl

/-! ### Names -/

theorem lookup_cons (entry : Scalar O × Yaml O) (entries : List (Scalar O × Yaml O)) (name : Text) :
    lookup (entry :: entries) name =
      if entry.1.text? = some name then some entry.2 else lookup entries name := by
  by_cases h : entry.1.text? = some name
  · simp [lookup, h]
  · simp [lookup, h]

variable {entries : List (Scalar O × Yaml O)} {name : Text}

theorem lookup_eq_none
    (h : name ∉ entries.filterMap fun entry => entry.1.text?) : lookup entries name = none := by
  rw [lookup, Option.map_eq_none_iff, List.find?_eq_none]
  intro entry hentry hname
  exact h (List.mem_filterMap.2 ⟨entry, hentry, by simpa using hname⟩)

variable {entry : Scalar O × Yaml O}

theorem lookup_of_mem (hnodup : (entries.filterMap fun entry => entry.1.text?).Nodup)
    (hmem : entry ∈ entries) (hname : entry.1.text? = some name) :
    lookup entries name = some entry.2 := by
  induction entries with
  | nil => cases hmem
  | cons e entries ih =>
    rw [lookup_cons]
    obtain rfl | hmem := List.mem_cons.1 hmem
    · rw [if_pos hname]
    · cases he : e.1.text? with
      | none =>
        simp only [List.filterMap_cons, he] at hnodup
        rw [if_neg (by simp), ih hnodup hmem]
      | some other =>
        simp only [List.filterMap_cons, he, List.nodup_cons] at hnodup
        have hne : other ≠ name := by
          rintro rfl
          exact hnodup.1 (List.mem_filterMap.2 ⟨entry, hmem, hname⟩)
        rw [if_neg (by simpa using hne), ih hnodup.2 hmem]

theorem selections_nodup (rule : Rule O) :
    (rule.selections.filterMap fun entry => entry.1.text?).Nodup :=
  rule.detection_nodup.sublist (List.filter_sublist.filterMap _)

variable {rule : Rule O}

/-- No selection is called `condition`. -/
theorem text_ne_condition (h : entry ∈ rule.selections) : entry.1.text? ≠ some "condition".toList :=
  of_decide_eq_true (List.mem_filter.1 h).2

theorem lookup_detection (h : lookup rule.selections name = some selection) :
    lookup rule.detection name = some selection := by
  obtain ⟨entry, hfind, rfl⟩ := Option.map_eq_some_iff.1 h
  have hmem := List.mem_of_find?_eq_some hfind
  have hname : entry.1.text? = some name := by simpa using List.find?_some hfind
  exact lookup_of_mem rule.detection_nodup (List.mem_of_mem_filter hmem) hname

theorem scalarStr_of_text {key : Scalar O} (h : key.text? = some name) :
    lib.scalarStr key = name := by
  cases key with
  | str s => exact Option.some.inj h
  | null => cases h
  | bool b => cases h
  | int n => cases h
  | other x => cases h

/-- What is compiled under a name that only one key reads as. -/
theorem find_compileSelections (hnodup : (entries.filterMap fun entry => entry.1.text?).Nodup)
    (hsole : ∀ entry ∈ entries, lib.scalarStr entry.1 = name → entry.1.text? = some name)
    (compiled : List (Text × List Clause)) :
    (lib.compileSelections keywords entries compiled).find? (fun entry => entry.1 = name) =
      (((lookup entries name).bind (lib.compileSelection keywords)).map (name, ·)).or
        (compiled.find? fun entry => entry.1 = name) := by
  induction entries generalizing compiled with
  | nil => rfl
  | cons entry entries ih =>
    have hsole' : ∀ e ∈ entries, lib.scalarStr e.1 = name → e.1.text? = some name :=
      fun e he => hsole e (by simp [he])
    have hnodup' : (entries.filterMap fun entry => entry.1.text?).Nodup :=
      hnodup.sublist ((List.sublist_cons_self entry entries).filterMap _)
    rw [Library.compileSelections, ih hnodup' hsole', lookup_cons]
    by_cases hname : entry.1.text? = some name
    · -- the entry itself: the name does not come again
      rw [if_pos hname]
      simp only [List.filterMap_cons, hname, List.nodup_cons] at hnodup
      rw [lookup_eq_none hnodup.1]
      have hstr : lib.scalarStr entry.1 = name := scalarStr_of_text hname
      cases hc : lib.compileSelection keywords entry.2 with
      | none => simp [hc]
      | some clauses => simp [hc, Dict.find_set, hstr]
    · rw [if_neg hname]
      have hstr : lib.scalarStr entry.1 ≠ name := fun h => hname (hsole entry (by simp) h)
      cases lib.compileSelection keywords entry.2 with
      | none => rfl
      | some clauses => simp [Dict.find_set, hstr]

/-- The compiled names are those of the selections taken up, in their order. -/
theorem keys_compileSelections (hnodup : (entries.map fun entry => lib.scalarStr entry.1).Nodup)
    {compiled : List (Text × List Clause)}
    (hnew : ∀ entry ∈ entries, lib.scalarStr entry.1 ∉ compiled.map Prod.fst) :
    (lib.compileSelections keywords entries compiled).map Prod.fst = compiled.map Prod.fst ++
        (entries.filter fun entry => (lib.compileSelection keywords entry.2).isSome).map
          fun entry => lib.scalarStr entry.1 := by
  induction entries generalizing compiled with
  | nil => simp [Library.compileSelections]
  | cons entry entries ih =>
    rw [List.map_cons, List.nodup_cons] at hnodup
    have hrest : ∀ e ∈ entries, lib.scalarStr e.1 ∉ compiled.map Prod.fst :=
      fun e he => hnew e (by simp [he])
    rw [Library.compileSelections]
    cases hc : lib.compileSelection keywords entry.2 with
    | none => rw [ih hnodup.2 hrest, List.filter_cons_of_neg (by simp [hc])]
    | some clauses =>
      have hkeys : (Dict.set (lib.scalarStr entry.1) clauses compiled).map Prod.fst =
          compiled.map Prod.fst ++ [lib.scalarStr entry.1] := Dict.keys_set (hnew entry (by simp))
      rw [ih hnodup.2, hkeys, List.filter_cons_of_pos (by simp [hc]), List.map_cons,
        List.append_assoc, List.singleton_append]
      intro e he
      rw [hkeys, List.mem_append, not_or, List.mem_singleton]
      refine ⟨hrest e he, fun h => hnodup.1 ?_⟩
      exact List.mem_map.2 ⟨e, he, h⟩

theorem expandRawToken_of_texts {token : Text} (htoken : '*' ∈ token)
    (htexts : ∀ entry ∈ rule.selections, ∃ name, entry.1.text? = some name) :
    expandRawToken rule token = .ok ((rule.selections.filter fun entry =>
        selectorPattern token (lib.scalarStr entry.1)).map fun entry => lib.scalarStr entry.1) := by
  rw [expandRawToken, if_neg (by simpa using htoken), mapM_eq_ok (g := fun entry =>
    lib.scalarStr entry.1)]
  · show Except.ok (List.filter _ (List.map _ _)) = _
    rw [List.filter_map]
    rfl
  · intro entry hentry
    obtain ⟨name, hname⟩ := htexts entry hentry
    simp only [hname, scalarStr_of_text hname]

/-! ### Operands -/

/-- Compilation takes up the selection of this name, and no other key reads as
the name. -/
def Library.TakesUp (lib : Library F O) (rule : Rule O) (name : Text) : Prop :=
  (∃ selection clauses, lookup rule.selections name = some selection ∧
    lib.compileSelection (lib.keywordsSupported rule) selection = some clauses) ∧
  ∀ entry ∈ rule.selections, lib.scalarStr entry.1 = name → entry.1.text? = some name

/-- All keys of the detection are names, and where the pattern stands for a
selection it stands for one that is taken up. -/
def Library.PatternTakesUp (lib : Library F O) (rule : Rule O) (token : Text) : Prop :=
  (∀ entry ∈ rule.selections, ∃ name, entry.1.text? = some name) ∧
  ∀ entry ∈ rule.selections, selectorPattern token (lib.scalarStr entry.1) = true →
    ∃ taken ∈ rule.selections, selectorPattern token (lib.scalarStr taken.1) = true ∧
      (lib.compileSelection (lib.keywordsSupported rule) taken.2).isSome = true

/-- The operand is taken up. -/
def Library.OperandTakenUp (lib : Library F O) (rule : Rule O) (token : Text) : Prop :=
  if '*' ∈ token then lib.PatternTakesUp rule token else lib.TakesUp rule token

/-- Whether a token matches, on the rule itself. -/
theorem rawOperand_matched {token : Text} {names : List Text}
    (hnames : expandRawToken rule token = .ok names) :
    (lib.rawOperand document rule token).map Verdict.matched = if names = [] then .error .valueError
      else someOk (fun name => (lib.matchSelection document (lib.keywordsSupported rule) name
        ((lookup rule.detection name).getD (.scalar .null))).map Verdict.matched) names := by
  rw [Library.rawOperand, hnames]
  by_cases hempty : names = []
  · rw [if_pos hempty]
    simp [hempty, bind, Except.bind, Except.map]
  · rw [if_neg hempty]
    show Except.map Verdict.matched (if names = [] then _ else _) = _
    rw [if_neg hempty, mapM_combine_matched]
    cases someOk (fun name => (lib.matchSelection document (lib.keywordsSupported rule) name
        ((lookup rule.detection name).getD (.scalar .null))).map Verdict.matched) names with
    | error e => rfl
    | ok b => simp [Except.map]

section Compiled

variable {rule : Rule O} {compiled : Compiled O}

/-- A selection of the rule matches like what is compiled under its name. -/
theorem selection_agrees
    (hselections : compiled.selections =
      lib.compileSelections (lib.keywordsSupported rule) rule.selections [])
    {name : Text} {selection : Yaml O} {clauses : List Clause}
    (hlookup : lookup rule.selections name = some selection)
    (hclauses : lib.compileSelection (lib.keywordsSupported rule) selection = some clauses)
    (hsole : ∀ entry ∈ rule.selections, lib.scalarStr entry.1 = name → entry.1.text? = some name) :
    (lib.matchSelection document (lib.keywordsSupported rule) name
        ((lookup rule.detection name).getD (.scalar .null))).map Verdict.matched =
      lib.selectionHolds document (compiledClauses compiled name) := by
  have hcompiled : compiledClauses compiled name = clauses := by
    rw [compiledClauses, hselections, find_compileSelections (selections_nodup rule) hsole, hlookup]
    simp [hclauses]
  rw [lookup_detection hlookup, hcompiled]
  exact matchSelection_matched hclauses name

theorem name_agrees
    (hselections : compiled.selections =
      lib.compileSelections (lib.keywordsSupported rule) rule.selections [])
    {token : Text} (hplain : '*' ∉ token) (h : lib.TakesUp rule token) :
    (lib.rawOperand document rule token).map Verdict.matched =
      (lib.compiledOperand document compiled token).map Verdict.matched := by
  obtain ⟨⟨selection, clauses, hlookup, hclauses⟩, hsole⟩ := h
  have hraw : expandRawToken rule token = .ok [token] := by
    rw [expandRawToken, if_pos hplain]
  have hcomp : expandCompiledToken compiled token = [token] := by
    rw [expandCompiledToken, if_pos hplain]
  rw [rawOperand_matched hraw, compiledOperand_matched, hcomp, if_neg (by simp), if_neg (by simp)]
  apply someOk_congr
  intro name hname
  rw [List.mem_singleton.1 hname]
  exact selection_agrees hselections hlookup hclauses hsole

theorem map_scalarStr_eq {entries : List (Scalar O × Yaml O)}
    (h : ∀ entry ∈ entries, ∃ name, entry.1.text? = some name) :
    (entries.map fun entry => lib.scalarStr entry.1) =
      entries.filterMap fun entry => entry.1.text? := by
  induction entries with
  | nil => rfl
  | cons entry entries ih =>
    obtain ⟨name, hname⟩ := h entry (by simp)
    simp only [List.filterMap_cons, hname]
    rw [List.map_cons, scalarStr_of_text hname, ih fun e he => h e (by simp [he])]

/-- The names of a pattern among the compiled selections. -/
theorem expandCompiledToken_pattern
    (hselections : compiled.selections =
      lib.compileSelections (lib.keywordsSupported rule) rule.selections [])
    (htexts : ∀ entry ∈ rule.selections, ∃ name, entry.1.text? = some name)
    {token : Text} (htoken : '*' ∈ token) :
    expandCompiledToken compiled token =
      ((rule.selections.filter fun entry => selectorPattern token (lib.scalarStr entry.1)).filter
        fun entry => (lib.compileSelection (lib.keywordsSupported rule) entry.2).isSome).map
        fun entry => lib.scalarStr entry.1 := by
  have hnodup : (rule.selections.map fun entry => lib.scalarStr entry.1).Nodup := by
    rw [map_scalarStr_eq htexts]
    exact selections_nodup rule
  have hnames : compiled.selections.map Prod.fst = (rule.selections.filter fun entry =>
        (lib.compileSelection (lib.keywordsSupported rule) entry.2).isSome).map fun entry =>
        lib.scalarStr entry.1 := by
    rw [hselections, keys_compileSelections hnodup (by simp)]
    rfl
  -- none of the names is that of the condition
  have hcondition : (compiled.selections.map Prod.fst).filter (· ≠ "condition".toList) =
      compiled.selections.map Prod.fst := by
    rw [hnames, List.filter_eq_self]
    intro name hname
    obtain ⟨entry, hentry, rfl⟩ := List.mem_map.1 hname
    have hmem := List.mem_of_mem_filter hentry
    obtain ⟨text, htext⟩ := htexts entry hmem
    have hne := text_ne_condition hmem
    rw [htext] at hne
    rw [scalarStr_of_text htext]
    exact decide_eq_true fun h => hne (congrArg some h)
  rw [expandCompiledToken, if_neg (by simpa using htoken), hcondition, hnames, List.filter_map,
    List.filter_filter, List.filter_filter]
  congr 1
  apply List.filter_congr
  intro entry _
  exact Bool.and_comm _ _

/-- A pattern matches on both sides alike: what is passed over does not match
on the rule itself. -/
theorem pattern_agrees
    (hselections : compiled.selections =
      lib.compileSelections (lib.keywordsSupported rule) rule.selections [])
    {token : Text} (htoken : '*' ∈ token) (h : lib.PatternTakesUp rule token) :
    (lib.rawOperand document rule token).map Verdict.matched =
      (lib.compiledOperand document compiled token).map Verdict.matched := by
  obtain ⟨htexts, htaken⟩ := h
  have hraw : expandRawToken rule token = .ok ((rule.selections.filter fun entry =>
      selectorPattern token (lib.scalarStr entry.1)).map fun entry => lib.scalarStr entry.1) :=
    expandRawToken_of_texts htoken htexts
  have hcomp := expandCompiledToken_pattern hselections htexts htoken
  -- no name on one side only if there is none on the other
  have hempty : ((rule.selections.filter fun entry =>
        selectorPattern token (lib.scalarStr entry.1)).map fun entry => lib.scalarStr entry.1) =
        [] ↔
      expandCompiledToken compiled token = [] := by
    rw [hcomp, List.map_eq_nil_iff, List.map_eq_nil_iff]
    constructor
    · intro h
      rw [h]
      rfl
    · intro h
      rw [List.filter_eq_nil_iff] at h ⊢
      intro entry hentry hpattern
      obtain ⟨taken, hmem, hp, hsome⟩ := htaken entry hentry hpattern
      exact h taken (List.mem_filter.2 ⟨hmem, hp⟩) hsome
  rw [rawOperand_matched hraw, compiledOperand_matched]
  by_cases hnone : expandCompiledToken compiled token = []
  · rw [if_pos hnone, if_pos (hempty.2 hnone)]
  rw [if_neg hnone, if_neg fun h => hnone (hempty.1 h), hcomp, someOk_map, someOk_map,
    ← someOk_filter (p := fun entry =>
      (lib.compileSelection (lib.keywordsSupported rule) entry.2).isSome)]
  · apply someOk_congr
    intro entry hentry
    rw [List.mem_filter] at hentry
    obtain ⟨clauses, hclauses⟩ := Option.isSome_iff_exists.1 hentry.2
    have hmem := List.mem_of_mem_filter hentry.1
    obtain ⟨name, hname⟩ := htexts entry hmem
    have hlookup := lookup_of_mem (selections_nodup rule) hmem hname
    rw [scalarStr_of_text hname]
    refine selection_agrees hselections hlookup hclauses fun e he hstr => ?_
    obtain ⟨name', hname'⟩ := htexts e he
    have hstr' : lib.scalarStr e.1 = name' := scalarStr_of_text hname'
    rw [hname', ← hstr', hstr]
  · intro entry hentry hpassed
    have hmem := List.mem_of_mem_filter hentry
    obtain ⟨name, hname⟩ := htexts entry hmem
    have hlookup := lookup_of_mem (selections_nodup rule) hmem hname
    rw [scalarStr_of_text hname, lookup_detection hlookup]
    exact matchSelection_passed (by simpa using hpassed) name

end Compiled

/-! ### Rules -/

/-- A rule that compiles has a condition that expands. -/
theorem expandConditionTerms_supported (h : lib.engineStatus rule = none) :
    (lib.expandConditionTerms rule).2 = none := by
  cases hissue : (lib.expandConditionTerms rule).2 with
  | none => rfl
  | some issue =>
    rw [Library.engineStatus] at h
    simp only [hissue] at h
    split at h
    · cases h
    · cases h
    · cases h

theorem skippedEvaluation_matched (reason : SkipReason) (condition expanded : Text)
    (logsource : List (Scalar O × Yaml O)) :
    (lib.skippedEvaluation document reason condition expanded logsource).map Evaluation.matched =
      (lib.eventSourceSummary document).map fun _ => false := by
  rw [Library.skippedEvaluation]
  cases lib.eventSourceSummary document with
  | error e => rfl
  | ok source => rfl

theorem finishedEvaluation_matched (verdict : Verdict) (condition expanded : Text)
    (logsource : List (Scalar O × Yaml O)) :
    (lib.finishedEvaluation document verdict condition expanded logsource).map
        Evaluation.matched =
      (lib.eventSourceSummary document).map fun _ => verdict.matched := by
  rw [Library.finishedEvaluation]
  cases lib.eventSourceSummary document with
  | error e => rfl
  | ok source => rfl

theorem operand_agrees {compiled : Compiled O} (hselections : compiled.selections =
      lib.compileSelections (lib.keywordsSupported rule) rule.selections [])
    {token : Text} (h : lib.OperandTakenUp rule token) :
    (lib.rawOperand document rule token).map Verdict.matched =
      (lib.compiledOperand document compiled token).map Verdict.matched := by
  rw [Library.OperandTakenUp] at h
  by_cases htoken : '*' ∈ token
  · rw [if_pos htoken] at h
    exact pattern_agrees hselections htoken h
  · rw [if_neg htoken] at h
    exact name_agrees hselections htoken h

end

/-! ### A condition that names no selection -/

end Kairon.Sigma

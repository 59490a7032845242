/-
Kairon/Disk/Export.lean

The destinations of the exported entries of the file browser.

`target_for` cleans the path of an entry and, where the result is in use, appends the number
of the inode.  It does not look again whether that is in use, so an entry whose own name looks
like the one with the number may be overwritten.  Which paths are in use is determined by the
entries that came before (`Taken`); `kept_iff` says for which lists of entries no two of
different identity get one destination.  None leaves the root, since every component is a
plain name (`IsName`).
-/
import Kairon.Ingest.Extract
import Kairon.Search.Value

namespace Kairon.Disk

open Search (Text strip)
open Ingest (Path pathParts)

/-! ### `target_for` -/

/-- What identifies an entry of the file browser. -/
structure BrowserEntry where
  path : Text
  inode : Option ℕ
  deriving DecidableEq

/-- `_UNSAFE_NAME`. -/
def isUnsafe (c : Char) : Bool :=
  c.toNat < 32 || c.toNat = 127 || c ∈ ['<', '>', ':', '"', '/', '\\', '|', '?', '*']

/-- `_safe_component`. -/
def safeComponent (name : Text) : Text :=
  let cleaned := strip (name.map fun c => if isUnsafe c then '_' else c)
  let cleaned := if cleaned ∈ [[], ['.'], ['.', '.']] then '_' :: cleaned else cleaned
  cleaned.take 200

/-- The path an entry would like to have. -/
def BrowserEntry.relative (entry : BrowserEntry) : Text :=
  let parts := ((entry.path.splitOn '/').filter fun part => part ≠ []).map safeComponent
  let joined := ['/'].intercalate parts
  if joined = [] then ['_'] else joined

/-- The inode in a format string. -/
def inodeStr : Option ℕ → Text
  | some inode => Nat.toDigits 10 inode
  | none => "None".toList

/-- The path with the number of the inode. -/
def BrowserEntry.numbered (entry : BrowserEntry) : Text :=
  entry.relative ++ '~' :: inodeStr entry.inode

/-- `target_for`, with the paths in use. -/
def targetFor (used : List Text) (entry : BrowserEntry) : Text :=
  if entry.relative ∈ used then entry.numbered else entry.relative

/-- `files_root / relative`. -/
def joinPath (root : Path) (relative : Text) : Path :=
  if relative.head? = some '/' then pathParts relative else root ++ pathParts relative

/-- The exported entries with their destinations, in the order they arrive. -/
def destinations (root : Path) : List Text → List BrowserEntry → List (BrowserEntry × Path)
  | _, [] => []
  | used, entry :: entries =>
    let relative := targetFor used entry
    (entry, joinPath root relative) :: destinations root (relative :: used) entries

/-! ### What is promised -/

/-- A component that is a name of its own. -/
structure IsName (name : Text) : Prop where
  nonempty : name ≠ []
  here : name ≠ ['.']
  parent : name ≠ ['.', '.']
  slash : '/' ∉ name

/-- The path leads to something below the root. -/
def Below (root path : Path) : Prop :=
  ∃ names, names ≠ [] ∧ (∀ name ∈ names, IsName name) ∧ path = root ++ names

/-- No entry is written over another, and none outside of the root. -/
structure Kept (root : Path) (entries : List BrowserEntry) : Prop where
  apart : (destinations root [] entries).Pairwise fun a b => a.1 ≠ b.1 → a.2 ≠ b.2
  below : ∀ a ∈ destinations root [] entries, Below root a.2

/-- The path is in use behind the first entries: one of them has it, or has it with its number
and came when the path without the number was in use. -/
inductive Taken (entries : List BrowserEntry) : ℕ → Text → Prop
  | named {n i : ℕ} {entry : BrowserEntry} : i < n → entries[i]? = some entry →
      Taken entries n entry.relative
  | numbered {n i : ℕ} {entry : BrowserEntry} : i < n → entries[i]? = some entry →
      Taken entries i entry.relative → Taken entries n entry.numbered

/-- The later entry finds its path in use, and the earlier one has what it gets instead: as its
own name, or since it has the same path and inode and found the path in use as well. -/
def Clash (entries : List BrowserEntry) (i j : ℕ) (entry later : BrowserEntry) : Prop :=
  Taken entries j later.relative ∧
    ((entry.relative = later.numbered ∧ ¬ Taken entries i entry.relative) ∨
      (entry.relative = later.relative ∧ entry.inode = later.inode ∧
        Taken entries i entry.relative))

/-- No two entries of different identity clash. -/
def ClashFree (entries : List BrowserEntry) : Prop :=
  ∀ i j entry later, i < j → entries[i]? = some entry → entries[j]? = some later →
    entry ≠ later → ¬ Clash entries i j entry later

/-! ### Names -/

theorem isName_safeComponent (name : Text) : IsName (safeComponent name) := by
  set cleaned := strip (name.map fun c => if isUnsafe c then '_' else c) with hcleaned
  have hslash : '/' ∉ cleaned := by
    intro hmem
    obtain ⟨c, -, hc⟩ := List.mem_map.mp ((Search.strip_sublist _).subset hmem)
    split_ifs at hc with hunsafe
    · cases hc
    · subst hc
      exact hunsafe (by decide)
  set full := if cleaned ∈ [[], ['.'], ['.', '.']] then '_' :: cleaned else cleaned with hfull
  have hname : full ≠ [] ∧ full ≠ ['.'] ∧ full ≠ ['.', '.'] ∧ '/' ∉ full := by
    rw [hfull]
    split_ifs with hdots
    · refine ⟨List.cons_ne_nil _ _, fun h => ?_, fun h => ?_, fun h => ?_⟩
      · cases (List.cons_eq_cons.mp h).1
      · cases (List.cons_eq_cons.mp h).1
      · rcases List.mem_cons.mp h with h | h
        · cases h
        · exact hslash h
    · simp only [List.mem_cons, List.not_mem_nil, or_false, not_or] at hdots
      exact ⟨hdots.1, hdots.2.1, hdots.2.2, hslash⟩
  -- Names of two characters are not cut.
  have hcut : ∀ short : Text, short.length < 200 → full ≠ short → full.take 200 ≠ short := by
    rintro short hshort hne rfl
    rw [List.length_take] at hshort
    exact hne (List.take_of_length_le (by omega)).symm
  exact ⟨hcut _ (by decide) hname.1, hcut _ (by decide) hname.2.1, hcut _ (by decide) hname.2.2.1,
    fun h => hname.2.2.2 (List.mem_of_mem_take h)⟩

/-- A text of names with slashes between them. -/
def IsRelative (relative : Text) : Prop :=
  ∃ names, names ≠ [] ∧ (∀ name ∈ names, IsName name) ∧ relative = ['/'].intercalate names

theorem isRelative_relative (entry : BrowserEntry) : IsRelative entry.relative := by
  set parts := ((entry.path.splitOn '/').filter fun part => part ≠ []).map safeComponent with hparts
  have hnames : ∀ name ∈ parts, IsName name := by
    intro name hname
    obtain ⟨part, -, rfl⟩ := List.mem_map.mp hname
    exact isName_safeComponent part
  by_cases hjoined : ['/'].intercalate parts = []
  · refine ⟨[['_']], List.cons_ne_nil _ _, ?_, ?_⟩
    · intro name hname
      rw [List.mem_singleton.mp hname]
      exact ⟨by decide, by decide, by decide, by decide⟩
    · rw [BrowserEntry.relative, if_pos hjoined]
      rfl
  · refine ⟨parts, ?_, hnames, ?_⟩
    · intro hnil
      rw [hnil] at hjoined
      exact hjoined rfl
    · rw [BrowserEntry.relative, if_neg hjoined]

theorem intercalate_concat (names : List Text) (name suffix : Text) :
    ['/'].intercalate (names ++ [name]) ++ suffix = ['/'].intercalate (names ++ [name ++ suffix]) := by
  induction names with
  | nil => simp
  | cons first names ih =>
    rcases names with - | ⟨second, names⟩
    · simp
    · rw [List.cons_append, List.cons_append, List.cons_append, List.cons_append,
        List.intercalate_cons_cons, List.intercalate_cons_cons, List.append_assoc]
      exact congrArg _ ih

/-- A suffix that begins with another sign than a dot leaves a name a name. -/
theorem IsName.append {name suffix : Text} {c : Char} (h : IsName name) (hc : c ≠ '.' ∧ c ≠ '/')
    (hsuffix : '/' ∉ suffix) : IsName (name ++ c :: suffix) where
  nonempty := List.append_ne_nil_of_right_ne_nil _ (List.cons_ne_nil _ _)
  here heq := by
    have hmem : c ∈ ['.'] := heq ▸ List.mem_append_right _ (.head _)
    exact hc.1 (List.mem_singleton.mp hmem)
  parent heq := by
    have hmem : c ∈ ['.', '.'] := heq ▸ List.mem_append_right _ (.head _)
    exact hc.1 (by simpa using hmem)
  slash hmem := by
    rcases List.mem_append.mp hmem with hmem | hmem
    · exact h.slash hmem
    · rcases List.mem_cons.mp hmem with hmem | hmem
      · exact hc.2 hmem.symm
      · exact hsuffix hmem

theorem notMem_inodeStr {c : Char} (hdigit : c.isDigit = false) (hnone : c ∉ "None".toList)
    (inode : Option ℕ) : c ∉ inodeStr inode := by
  rcases inode with - | inode
  · exact hnone
  · exact Search.notMem_toDigits hdigit inode

theorem isRelative_numbered (entry : BrowserEntry) : IsRelative entry.numbered := by
  obtain ⟨names, hne, hnames, heq⟩ := isRelative_relative entry
  obtain ⟨names, name, rfl⟩ := (List.eq_nil_or_concat' names).resolve_left hne
  refine ⟨names ++ [name ++ '~' :: inodeStr entry.inode], ?_, ?_, ?_⟩
  · exact List.append_ne_nil_of_right_ne_nil _ (List.cons_ne_nil _ _)
  · intro other hother
    rcases List.mem_append.mp hother with hother | hother
    · exact hnames other (List.mem_append_left _ hother)
    · rw [List.mem_singleton.mp hother]
      exact (hnames name (List.mem_append_right _ (List.mem_singleton_self _))).append (by decide)
        (notMem_inodeStr (by decide) (by decide) _)
  · rw [BrowserEntry.numbered, heq, intercalate_concat]

theorem inodeStr_injective : Function.Injective inodeStr := by
  have hnone : ∀ inode : ℕ, Nat.toDigits 10 inode ≠ "None".toList := fun inode h =>
    Search.notMem_toDigits (c := 'N') (by decide) inode (h ▸ List.mem_cons_self)
  rintro (- | m) (- | n) h
  · rfl
  · exact absurd h.symm (hnone n)
  · exact absurd h (hnone m)
  · exact congrArg some (Search.toDigits_injective h)

/-- Behind the last sign of a kind, nothing is lost. -/
theorem append_cons_inj {c : Char} {s s' t t' : Text} (ht : c ∉ t) (ht' : c ∉ t')
    (h : s ++ c :: t = s' ++ c :: t') : s = s' ∧ t = t' := by
  have hreverse := congrArg List.reverse h
  rw [List.reverse_append, List.reverse_append, List.reverse_cons, List.reverse_cons,
    List.append_assoc, List.append_assoc] at hreverse
  have hends : ∀ {x y : Text}, c ∉ x → (x ++ ([c] ++ y)).takeWhile (fun d => decide (d ≠ c)) =
      x ++ ([c] ++ y).takeWhile fun d => decide (d ≠ c) := fun hx =>
    List.takeWhile_append_of_pos fun d hd => decide_eq_true fun hdc => hx (hdc ▸ hd)
  have hstop : ∀ y : Text, ([c] ++ y).takeWhile (fun d => decide (d ≠ c)) = [] := fun y => by simp
  have htake := congrArg (List.takeWhile fun d => decide (d ≠ c)) hreverse
  rw [hends (fun h => ht (List.mem_reverse.mp h)), hends (fun h => ht' (List.mem_reverse.mp h)),
    hstop, hstop, List.append_nil, List.append_nil, List.reverse_inj] at htake
  subst htake
  exact ⟨List.append_cancel_right h, rfl⟩

/-- Paths with the same number on them are the same, and so are the inodes. -/
theorem numbered_inj {entry later : BrowserEntry} : entry.numbered = later.numbered ↔
      entry.relative = later.relative ∧ entry.inode = later.inode := by
  refine ⟨fun h => ?_, fun h => by rw [BrowserEntry.numbered, h.1, h.2, BrowserEntry.numbered]⟩
  obtain ⟨hrelative, hinode⟩ := append_cons_inj (notMem_inodeStr (by decide) (by decide) _)
    (notMem_inodeStr (by decide) (by decide) _) h
  exact ⟨hrelative, inodeStr_injective hinode⟩

/-! ### Paths -/

theorem pathParts_intercalate {names : List Text} (hne : names ≠ [])
    (hnames : ∀ name ∈ names, IsName name) : pathParts (['/'].intercalate names) = names := by
  rw [pathParts, List.splitOn_intercalate '/' (fun name hname => (hnames name hname).slash) hne]
  refine List.filter_eq_self.mpr fun name hname => decide_eq_true ?_
  rw [List.mem_cons, List.mem_singleton, not_or]
  exact ⟨(hnames name hname).nonempty, (hnames name hname).here⟩

theorem joinPath_intercalate (root : Path) {names : List Text} (hne : names ≠ [])
    (hnames : ∀ name ∈ names, IsName name) :
    joinPath root (['/'].intercalate names) = root ++ names := by
  rw [joinPath, if_neg, pathParts_intercalate hne hnames]
  obtain ⟨name, names, rfl⟩ := List.exists_cons_of_ne_nil hne
  have hname := hnames name (.head _)
  obtain ⟨c, name, rfl⟩ := List.exists_cons_of_ne_nil hname.nonempty
  intro hhead
  have hc : (['/'].intercalate ((c :: name) :: names)).head? = some c := by
    rcases names with - | ⟨second, names⟩
    · rw [List.intercalate_singleton, List.head?_cons]
    · rw [List.intercalate_cons_cons, List.cons_append, List.cons_append, List.head?_cons]
  obtain rfl := Option.some.inj (hc.symm.trans hhead)
  exact hname.slash (.head _)

theorem isRelative_targetFor (used : List Text) (entry : BrowserEntry) :
    IsRelative (targetFor used entry) := by
  rw [targetFor]
  split_ifs
  · exact isRelative_numbered entry
  · exact isRelative_relative entry

theorem joinPath_inj (root : Path) {relative relative' : Text} (h : IsRelative relative)
    (h' : IsRelative relative') :
    joinPath root relative = joinPath root relative' ↔ relative = relative' := by
  refine ⟨fun heq => ?_, fun heq => heq ▸ rfl⟩
  obtain ⟨names, hne, hnames, rfl⟩ := h
  obtain ⟨names', hne', hnames', rfl⟩ := h'
  rw [joinPath_intercalate root hne hnames, joinPath_intercalate root hne' hnames'] at heq
  rw [List.append_cancel_left heq]

variable {entries : List BrowserEntry}

/-- Every destination is below the root. -/
theorem below_of_mem {root : Path} {used : List Text}
    {a : BrowserEntry × Path} (h : a ∈ destinations root used entries) : Below root a.2 := by
  induction entries generalizing used with
  | nil => cases h
  | cons entry entries ih =>
    rcases List.mem_cons.mp h with rfl | h
    · obtain ⟨names, hne, hnames, heq⟩ := isRelative_targetFor used entry
      refine ⟨names, hne, hnames, ?_⟩
      show joinPath root (targetFor used entry) = _
      rw [heq, joinPath_intercalate root hne hnames]
    · exact ih h

/-! ### The paths in use -/

/-- The paths in use behind the entries. -/
def usedBy (used : List Text) (entries : List BrowserEntry) : List Text :=
  entries.foldl (fun used entry => targetFor used entry :: used) used

theorem destinations_getElem? {root : Path} {used : List Text}
    (i : ℕ) : (destinations root used entries)[i]? = entries[i]?.map fun entry =>
      (entry, joinPath root (targetFor (usedBy used (entries.take i)) entry)) := by
  induction entries generalizing used i with
  | nil => rfl
  | cons entry entries ih =>
    rcases i with - | i
    · rfl
    · rw [destinations, List.getElem?_cons_succ, ih, List.getElem?_cons_succ]
      rfl

variable {entry later : BrowserEntry} {i j n : ℕ} {t : Text}

theorem Taken.mono (h : Taken entries n t) (hn : n ≤ j) : Taken entries j t := by
  cases h with
  | named hi hentry => exact .named (lt_of_lt_of_le hi hn) hentry
  | numbered hi hentry h => exact .numbered (lt_of_lt_of_le hi hn) hentry h

/-- What the next entry adds. -/
theorem taken_succ (hentry : entries[n]? = some entry) :
    Taken entries (n + 1) t ↔ Taken entries n t ∨ t = entry.relative ∨
      (t = entry.numbered ∧ Taken entries n entry.relative) := by
  constructor
  · intro h
    have hlast : ∀ {i : ℕ} {e : BrowserEntry}, i < n + 1 → entries[i]? = some e →
        i < n ∨ i = n ∧ e = entry := by
      intro i e hi he
      rcases Nat.lt_succ_iff_lt_or_eq.mp hi with hi | rfl
      · exact .inl hi
      · exact .inr ⟨rfl, Option.some.inj (he.symm.trans hentry)⟩
    cases h with
    | named hi he =>
      rcases hlast hi he with hi | ⟨-, rfl⟩
      · exact .inl (.named hi he)
      · exact .inr (.inl rfl)
    | numbered hi he h =>
      rcases hlast hi he with hi | ⟨rfl, rfl⟩
      · exact .inl (.numbered hi he h)
      · exact .inr (.inr ⟨rfl, h⟩)
  · rintro (h | rfl | ⟨rfl, h⟩)
    · exact h.mono (Nat.le_succ n)
    · exact .named (Nat.lt_succ_self n) hentry
    · exact .numbered (Nat.lt_succ_self n) hentry h

/-- The paths in use are the taken ones. -/
theorem mem_usedBy_iff (hn : n ≤ entries.length) :
    t ∈ usedBy [] (entries.take n) ↔ Taken entries n t := by
  induction n generalizing t with
  | zero =>
    refine ⟨fun h => (by cases h), fun h => ?_⟩
    cases h with
    | named hi => cases hi
    | numbered hi => cases hi
  | succ n ih =>
    have hentry : entries[n]? = some entries[n] := List.getElem?_eq_getElem hn
    have hused : usedBy [] (entries.take (n + 1)) =
        targetFor (usedBy [] (entries.take n)) entries[n] :: usedBy [] (entries.take n) := by
      rw [usedBy, List.take_add_one, hentry, List.foldl_append]
      rfl
    have ih := fun {t} => @ih t (Nat.le_of_lt hn)
    rw [hused, List.mem_cons, targetFor, taken_succ hentry, or_comm]
    by_cases htaken : Taken entries n entries[n].relative
    · rw [if_pos (ih.mpr htaken), ih]
      refine ⟨Or.imp_right fun h => .inr ⟨h, htaken⟩, ?_⟩
      rintro (h | rfl | h)
      · exact .inl h
      · exact .inl htaken
      · exact .inr h.1
    · rw [if_neg (mt ih.mp htaken), ih]
      exact or_congr_right ⟨.inl, fun h => h.resolve_right fun h => htaken h.2⟩

/-- The path an entry gets. -/
theorem targetFor_eq (hentry : entries[n]? = some entry) :
    (Taken entries n entry.relative → targetFor (usedBy [] (entries.take n)) entry = entry.numbered) ∧
      (¬ Taken entries n entry.relative →
        targetFor (usedBy [] (entries.take n)) entry = entry.relative) := by
  have hmem := @mem_usedBy_iff entries n entry.relative
    (Nat.le_of_lt (List.getElem?_eq_some_iff.mp hentry).1)
  exact ⟨fun h => if_pos (hmem.mpr h), fun h => if_neg (mt hmem.mp h)⟩

/-- An entry of another identity gets the path of an earlier one where the two clash. -/
theorem targetFor_eq_iff (hij : i < j) (hentry : entries[i]? = some entry)
    (hlater : entries[j]? = some later) :
    targetFor (usedBy [] (entries.take i)) entry = targetFor (usedBy [] (entries.take j)) later ↔
      Clash entries i j entry later := by
  obtain ⟨hi, hi'⟩ := targetFor_eq hentry
  obtain ⟨hj, hj'⟩ := targetFor_eq hlater
  constructor
  · intro heq
    have htaken : Taken entries j (targetFor (usedBy [] (entries.take i)) entry) := by
      by_cases h : Taken entries i entry.relative
      · rw [hi h]
        exact .numbered hij hentry h
      · rw [hi' h]
        exact .named hij hentry
    have hrelative : Taken entries j later.relative := by
      by_contra h
      rw [heq, hj' h] at htaken
      exact h htaken
    refine ⟨hrelative, ?_⟩
    rw [hj hrelative] at heq
    by_cases h : Taken entries i entry.relative
    · rw [hi h, numbered_inj] at heq
      exact .inr ⟨heq.1, heq.2, h⟩
    · rw [hi' h] at heq
      exact .inl ⟨heq, h⟩
  · rintro ⟨hrelative, ⟨heq, h⟩ | ⟨heq, hinode, h⟩⟩
    · rw [hi' h, hj hrelative, heq]
    · rw [hi h, hj hrelative, numbered_inj]
      exact ⟨heq, hinode⟩

/-- **The exported entries are kept apart, and below the root, if and only if no two of
different identity clash.** -/
theorem kept_iff (root : Path) (entries : List BrowserEntry) :
    Kept root entries ↔ ClashFree entries := by
  have hpairs : ∀ i j entry later, i < j → entries[i]? = some entry → entries[j]? = some later →
      ((entry ≠ later → joinPath root (targetFor (usedBy [] (entries.take i)) entry) ≠
        joinPath root (targetFor (usedBy [] (entries.take j)) later)) ↔
          (entry ≠ later → ¬ Clash entries i j entry later)) := by
    intro i j entry later hij hentry hlater
    rw [Ne.eq_def (joinPath root _), joinPath_inj root (isRelative_targetFor _ _)
      (isRelative_targetFor _ _), targetFor_eq_iff hij hentry hlater]
  constructor
  · intro h i j entry later hij hentry hlater
    refine (hpairs i j entry later hij hentry hlater).mp ?_
    have hi := @destinations_getElem? entries root [] i
    have hj := @destinations_getElem? entries root [] j
    rw [hentry, Option.map_some, List.getElem?_eq_some_iff] at hi
    rw [hlater, Option.map_some, List.getElem?_eq_some_iff] at hj
    obtain ⟨hi, heqi⟩ := hi
    obtain ⟨hj, heqj⟩ := hj
    have hapart := List.pairwise_iff_getElem.mp h.apart i j hi hj hij
    rw [heqi, heqj] at hapart
    exact hapart
  · refine fun h => ⟨List.pairwise_iff_getElem.mpr fun i j hi hj hij => ?_, fun a ha => below_of_mem ha⟩
    have hi' := (@destinations_getElem? entries root [] i).symm.trans (List.getElem?_eq_getElem hi)
    have hj' := (@destinations_getElem? entries root [] j).symm.trans (List.getElem?_eq_getElem hj)
    obtain ⟨entry, hentry, heqi⟩ := Option.map_eq_some_iff.mp hi'
    obtain ⟨later, hlater, heqj⟩ := Option.map_eq_some_iff.mp hj'
    rw [← heqi, ← heqj]
    exact (hpairs i j entry later hij hentry hlater).mpr (h i j entry later hij hentry hlater)

/-- A deleted file and the one in its place, and a file with the name that the second gets. -/
def numberedNames : List BrowserEntry :=
  [⟨"/a~5".toList, some 7⟩, ⟨"/a".toList, some 3⟩, ⟨"/a".toList, some 5⟩]

/-- The file in the place of the deleted one is written over another file. -/
theorem numberedNames_not_kept : ¬ Kept ["files".toList] numberedNames := by
  intro h
  have hpair := List.pairwise_iff_getElem.mp h.apart 0 2 (by decide +kernel) (by decide +kernel)
    (by decide)
  exact hpair (by decide +kernel) (by decide +kernel)

end Kairon.Disk

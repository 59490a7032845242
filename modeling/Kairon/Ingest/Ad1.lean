/-
Kairon/Ingest/Ad1.lean

The conversion of an AD1 logical image into a ZIP archive.

An image is a tree of entries.  The walk takes its live regular files under
paths rebased on the source volume, and the conversion packs them.  On the way a
file can be dropped without a trace: siblings whose names agree up to case are
taken for one, a file whose rebased path is empty has no name, and of files whose
rebased paths agree up to case the first is packed.  `conversion_accounts_for_files`
says that nothing else is ever lost.

The tree is what the AD1 reader returns.  The walk is recursive: `room` is the
number of directories inside each other that the recursion limit allows.
-/
import Kairon.Lib.Dict
import Kairon.Lib.Settle
import Kairon.Search.Syntax
import Mathlib

namespace Kairon.Ingest

open Search (Text)
open Settle

abbrev Bytes := List UInt8

/-! ### The image -/

/-- What comes out of an entry that is read: nothing, some bytes before an
error, or all of it. -/
inductive Content
  | unreadable
  | broken (data : Bytes)
  | whole (data : Bytes)

inductive NodeKind
  | directory | regular | reparse | deleted | other
  deriving DecidableEq

/-- An entry without its children. -/
structure FileEntry where
  name : Text
  kind : NodeKind
  size : ℕ
  content : Content

inductive Node
  | mk (entry : FileEntry) (children : List Node)

namespace Node

def entry : Node → FileEntry
  | mk e _ => e

def children : Node → List Node
  | mk _ cs => cs

def name (n : Node) : Text := n.entry.name

/-- `is_dir()`. -/
def isDir (n : Node) : Bool := n.entry.kind = .directory

/-- `type.name == "Deleted"`. -/
def isDeleted (n : Node) : Bool := n.entry.kind = .deleted

/-- `is_file()` and not `is_symlink()`. -/
def isRegular (n : Node) : Bool := n.entry.kind = .regular

end Node

/-- What the conversion uses of the interpreter: `str.lower`, and whether
`zipfile` can write the header of a member. -/
structure Platform where
  lower : Text → Text
  accepts : Text → FileEntry → Bool

/-! ### Paths -/

/-- `_DRIVE_PART`: the letter of a drive, in upper case. -/
def drivePart : Text → Option Text
  | c :: ':' :: rest =>
    if c.isAlpha ∧ rest ∈ [[], ['\\'], ['\n'], ['\\', '\n']] then some [c.toUpper] else none
  | _ => none

section

variable (platform : Platform)

/-- `rebase_parts`. -/
def Platform.rebaseParts (parts : List Text) : List Text :=
  match (parts.map platform.lower).idxOf? "[root]".toList with
  | some index =>
    match (parts.take index).findSome? drivePart with
    | some drive => drive :: parts.drop (index + 1)
    | none => parts.drop (index + 1)
  | none =>
    (parts.map fun part => (drivePart part).getD part).filter fun part =>
      part ∉ [[], ['\\'], ['/']]

/-! ### The walk -/

/-- A file of the walk: where its entry is in the tree, its path in the archive,
and the entry. -/
structure File where
  place : List ℕ
  relative : Text
  entry : FileEntry

inductive ConversionFault
  | recursionError
  deriving DecidableEq

/-- Whether a sibling of the same name takes the place of another.
`_content_rank` orders by size. -/
def Node.replaces (child current : Node) : Bool :=
  !child.isDir && !current.isDir && current.entry.size < child.entry.size

/-- The body of the loop over the children, which have their places with
them. -/
def Platform.chooseStep (chosen : List (Text × ℕ × Node)) (child : ℕ × Node) :
    List (Text × ℕ × Node) :=
  if child.2.isDeleted then chosen
  else
    match Dict.get chosen (platform.lower child.2.name) with
    | none => Dict.set (platform.lower child.2.name) child chosen
    | some current =>
      if child.2.replaces current.2 then Dict.set (platform.lower child.2.name) child chosen
      else chosen

/-- The children that are kept, one for each name up to case. -/
def Platform.choose (children : List Node) : List (Text × ℕ × Node) :=
  (children.zipIdx.map Prod.swap).foldl platform.chooseStep []

/-- The body of the loop over the children that are kept. -/
def Platform.visit (walk : List ℕ → List Text → Node → Except ConversionFault (List File))
    (place : List ℕ) (parts : List Text) (child : Text × ℕ × Node) :
    Except ConversionFault (List File) :=
  let place := place ++ [child.2.1]
  let parts := parts ++ [child.2.2.name]
  if child.2.2.isDir then walk place parts child.2.2
  else if child.2.2.isRegular then
    match platform.rebaseParts parts with
    | [] => .ok []
    | part :: rest => .ok [⟨place, ['/'].intercalate (part :: rest), child.2.2.entry⟩]
  else .ok []

/-- `walk` inside `iter_ad1_files`. -/
def Platform.walk : ℕ → List ℕ → List Text → Node → Except ConversionFault (List File)
  | 0, _, _, _ => .error .recursionError
  | room + 1, place, parts, node =>
    concatM (platform.visit (Platform.walk room) place parts) (platform.choose node.children)

/-! ### The archive -/

structure Member where
  name : Text
  data : Bytes
  deriving DecidableEq

/-- What becomes of a file: a member, no member, or a member cut short. -/
inductive Outcome
  | written (data : Bytes)
  | failed
  | truncated (data : Bytes)

/-- `_BUFFERED_ENTRY_BYTES`. -/
def bufferedEntryBytes : ℕ := 64 * 1024 * 1024

/-- The attempt to write one file.  A file beyond the buffer is copied into the
open member, so that what was copied before an error stays there. -/
def Platform.outcome (file : File) : Outcome :=
  if !platform.accepts file.relative file.entry then .failed
  else if file.entry.size = 0 then .written []
  else
    match file.entry.content with
    | .unreadable => .failed
    | .broken data => if file.entry.size ≤ bufferedEntryBytes then .failed else .truncated data
    | .whole data => .written data

/-- The name of a member: `ZipInfo` cuts it at a null character. -/
def zipName (relative : Text) : Text := relative.takeWhile fun c => c.toNat ≠ 0

structure Conversion where
  archive : List Member
  files : ℕ
  bytes : ℕ
  failed : List Text
  failedCount : ℕ
  deriving DecidableEq

/-- The loop over the files, with the paths already seen. -/
def Platform.pack : List File → List Text → Conversion → Conversion
  | [], _, r => r
  | file :: files, seen, r =>
    if platform.lower file.relative ∈ seen then Platform.pack files seen r
    else
      Platform.pack files (platform.lower file.relative :: seen)
        (match platform.outcome file with
        | .written data =>
          { r with
            archive := r.archive ++ [⟨zipName file.relative, data⟩]
            files := r.files + 1
            bytes := r.bytes + data.length }
        | .failed =>
          { r with failed := r.failed ++ [file.relative], failedCount := r.failedCount + 1 }
        | .truncated data =>
          { r with
            archive := r.archive ++ [⟨zipName file.relative, data⟩]
            failed := r.failed ++ [file.relative]
            failedCount := r.failedCount + 1 })

/-- `convert_ad1_to_zip`. -/
def Platform.convertAd1ToZip (room : ℕ) (root : Node) : Except ConversionFault Conversion := do
  let files ← platform.walk room [] [] root
  let r := platform.pack files [] ⟨[], 0, 0, [], 0⟩
  pure { r with failed := r.failed.take 50 }

end

/-! ### Siblings -/

section

variable {platform : Platform}

/-- Of the children seen, one is chosen for each name up to case, and none that
would have replaced it. -/
structure Platform.Chosen (platform : Platform) (seen : List (ℕ × Node))
    (chosen : List (Text × ℕ × Node)) : Prop where
  nodup : (chosen.map Prod.fst).Nodup
  sound : ∀ e ∈ chosen, e.2 ∈ seen ∧ e.2.2.isDeleted = false ∧ platform.lower e.2.2.name = e.1
  complete : ∀ v ∈ seen, v.2.isDeleted = false →
    ∃ e ∈ chosen, e.1 = platform.lower v.2.name ∧ v.2.replaces e.2.2 = false

theorem replaces_self (n : Node) : n.replaces n = false := by
  simp [Node.replaces]

theorem not_replaces_trans {a b c : Node} (hab : a.replaces b = false)
    (hcb : c.replaces b = true) : a.replaces c = false := by
  simp only [Node.replaces, Bool.and_eq_true, Bool.and_eq_false_iff, Bool.not_eq_true',
    Bool.not_eq_false', decide_eq_true_eq, decide_eq_false_iff_not] at *
  obtain ⟨⟨hc, hb⟩, hlt⟩ := hcb
  rcases hab with (ha | hb') | hle
  · exact .inl (.inl ha)
  · rw [hb] at hb'
    cases hb'
  · exact .inr (by omega)

variable {seen : List (ℕ × Node)} {chosen : List (Text × ℕ × Node)}

theorem Platform.Chosen.step (h : platform.Chosen seen chosen) (child : ℕ × Node) :
    platform.Chosen (seen ++ [child]) (platform.chooseStep chosen child) := by
  have hseen : ∀ e ∈ chosen, e.2 ∈ seen ++ [child] ∧ e.2.2.isDeleted = false ∧
      platform.lower e.2.2.name = e.1 := by
    intro e he
    obtain ⟨hmem, hrest⟩ := h.sound e he
    exact ⟨List.mem_append_left _ hmem, hrest⟩
  rw [Platform.chooseStep]
  by_cases hdeleted : child.2.isDeleted = true
  · rw [if_pos hdeleted]
    refine ⟨h.nodup, hseen, ?_⟩
    intro v hv hlive
    obtain hv | hv := List.mem_append.1 hv
    · exact h.complete v hv hlive
    · rw [List.mem_singleton.1 hv, hdeleted] at hlive
      cases hlive
  rw [if_neg hdeleted]
  have hlive : child.2.isDeleted = false := by simpa using hdeleted
  -- the child takes the place under its name
  have hset : (∀ current, Dict.get chosen (platform.lower child.2.name) = some current →
        child.2.replaces current.2 = true) →
      platform.Chosen (seen ++ [child])
        (Dict.set (platform.lower child.2.name) child chosen) := by
    intro hreplaces
    refine ⟨?_, ?_, ?_⟩
    · by_cases hkey : platform.lower child.2.name ∈ chosen.map Prod.fst
      · rw [Dict.keys_set_of_mem hkey]
        exact h.nodup
      · rw [Dict.keys_set hkey]
        exact List.Nodup.append h.nodup (List.nodup_singleton _)
          (List.disjoint_singleton.2 hkey)
    · intro e he
      obtain rfl | he := Dict.mem_of_mem_set he
      · exact ⟨by simp, hlive, rfl⟩
      · exact hseen e he
    · intro v hv hvlive
      obtain hv | hv := List.mem_append.1 hv
      · obtain ⟨e, he, hkey, hnot⟩ := h.complete v hv hvlive
        by_cases hsame : e.1 = platform.lower child.2.name
        · refine ⟨_, Dict.mem_set, hsame.symm.trans hkey, ?_⟩
          have hget := Dict.get_of_mem h.nodup he
          rw [hsame] at hget
          exact not_replaces_trans hnot (hreplaces e.2 hget)
        · exact ⟨e, Dict.mem_set_of_ne he hsame, hkey, hnot⟩
      · rw [List.mem_singleton.1 hv]
        exact ⟨_, Dict.mem_set, rfl, replaces_self _⟩
  split
  · rename_i hnone
    refine hset fun current hcurrent => ?_
    rw [hnone] at hcurrent
    cases hcurrent
  · rename_i current hcurrent
    split
    · rename_i hreplaces
      refine hset fun current' hcurrent' => ?_
      rw [hcurrent] at hcurrent'
      cases hcurrent'
      exact hreplaces
    · rename_i hnot
      refine ⟨h.nodup, hseen, ?_⟩
      intro v hv hvlive
      obtain hv | hv := List.mem_append.1 hv
      · exact h.complete v hv hvlive
      · rw [List.mem_singleton.1 hv]
        exact ⟨_, Dict.mem_of_get hcurrent, rfl, by simpa using hnot⟩

theorem chosen_foldl (h : platform.Chosen seen chosen) (children : List (ℕ × Node)) :
    platform.Chosen (seen ++ children) (children.foldl platform.chooseStep chosen) := by
  induction children generalizing seen chosen with
  | nil => simpa using h
  | cons child children ih =>
    rw [List.foldl_cons]
    simpa using ih (h.step child)

theorem chosen_choose (children : List Node) :
    platform.Chosen (children.zipIdx.map Prod.swap) (platform.choose children) := by
  have hnil : platform.Chosen [] [] := ⟨List.nodup_nil, by simp, by simp⟩
  exact chosen_foldl hnil _

theorem mem_indexed {children : List Node} {i : ℕ} {c : Node} :
    (i, c) ∈ children.zipIdx.map Prod.swap ↔ children[i]? = some c := by
  rw [List.mem_map]
  constructor
  · rintro ⟨⟨c', i'⟩, hmem, hswap⟩
    cases hswap
    exact List.mem_zipIdx_iff_getElem?.1 hmem
  · intro h
    exact ⟨(c, i), List.mem_zipIdx_iff_getElem?.2 h, rfl⟩

end

/-! ### Live files -/

namespace Node

/-- The entry at a place of the tree, reached through live directories. -/
def nodeAt : Node → List ℕ → Option Node
  | n, [] => some n
  | n, i :: place =>
    match n.children[i]? with
    | none => none
    | some c =>
      if c.isDeleted || (!place.isEmpty && !c.isDir) then none else c.nodeAt place

/-- The names on the way to a place. -/
def namesTo : Node → List ℕ → List Text
  | _, [] => []
  | n, i :: place =>
    match n.children[i]? with
    | none => []
    | some c => c.name :: c.namesTo place

/-- A live regular file. -/
def LiveFile (root : Node) (place : List ℕ) : Prop :=
  ∃ n, place ≠ [] ∧ root.nodeAt place = some n ∧ n.isRegular = true

/-- The directories that can be reached lie less deep than the recursion goes. -/
def DepthLt (root : Node) (room : ℕ) : Prop :=
  ∀ place n, root.nodeAt place = some n → n.isDir = true ∨ place = [] → place.length < room

/-- On the way to a place, an entry has a live sibling whose name agrees with its
own up to case, and which it would not replace. -/
def SiblingClash (platform : Platform) : Node → List ℕ → Prop
  | _, [] => False
  | n, i :: place => ∃ c, n.children[i]? = some c ∧
      ((∃ j d, j ≠ i ∧ n.children[j]? = some d ∧ d.isDeleted = false ∧
          platform.lower d.name = platform.lower c.name ∧ c.replaces d = false) ∨
        c.SiblingClash platform place)

end Node

section

variable {platform : Platform}

variable {place : List ℕ}

theorem liveFile_cons {n : Node} {i : ℕ} (h : n.LiveFile (i :: place)) :
    ∃ c, n.children[i]? = some c ∧ c.isDeleted = false ∧
      (place = [] ∧ c.isRegular = true ∨ c.isDir = true ∧ c.LiveFile place) := by
  obtain ⟨m, -, hm, hregular⟩ := h
  rw [Node.nodeAt] at hm
  cases hc : n.children[i]? with
  | none =>
    rw [hc] at hm
    cases hm
  | some c =>
    rw [hc] at hm
    dsimp only at hm
    split at hm
    · cases hm
    rename_i hcond
    simp only [Bool.or_eq_true, Bool.and_eq_true, Bool.not_eq_true', not_or, not_and,
      Bool.not_eq_true, Bool.not_eq_false] at hcond
    refine ⟨c, rfl, hcond.1, ?_⟩
    cases place with
    | nil =>
      cases hm
      exact .inl ⟨rfl, hregular⟩
    | cons j place => exact .inr ⟨hcond.2 rfl, m, by simp, hm, hregular⟩

theorem nodeAt_cons {n c : Node} {i : ℕ} (hc : n.children[i]? = some c)
    (hlive : c.isDeleted = false) (hdir : place = [] ∨ c.isDir = true) :
    n.nodeAt (i :: place) = c.nodeAt place := by
  rw [Node.nodeAt, hc]
  dsimp only
  rw [if_neg]
  obtain rfl | hdir := hdir
  · simp [hlive]
  · simp [hlive, hdir]

theorem namesTo_cons {n c : Node} {i : ℕ} (hc : n.children[i]? = some c) (place : List ℕ) :
    n.namesTo (i :: place) = c.name :: c.namesTo place := by
  rw [Node.namesTo, hc]

/-! ### The walk is complete -/

/-- What a walk of a directory yields: live files of it, each once, and all of
them but those with a sibling of the same name and those without a path. -/
structure Platform.Walked (platform : Platform) (place : List ℕ) (parts : List Text) (node : Node)
    (files : List File) : Prop where
  nodup : (files.map File.place).Nodup
  sound : ∀ f ∈ files, ∃ q n, f.place = place ++ q ∧ q ≠ [] ∧ node.nodeAt q = some n ∧
    n.isRegular = true ∧ f.entry = n.entry ∧
    platform.rebaseParts (parts ++ node.namesTo q) ≠ [] ∧
    f.relative = ['/'].intercalate (platform.rebaseParts (parts ++ node.namesTo q))
  complete : ∀ q, node.LiveFile q → (∃ f ∈ files, f.place = place ++ q) ∨
    node.SiblingClash platform q ∨ platform.rebaseParts (parts ++ node.namesTo q) = []

theorem not_isDir_of_isRegular {n : Node} (h : n.isRegular = true) : n.isDir = false := by
  simp only [Node.isRegular, Node.isDir, decide_eq_true_eq, decide_eq_false_iff_not] at *
  rw [h]
  simp

/-- A file that is visited. -/
theorem visit_regular (walk : List ℕ → List Text → Node → Except ConversionFault (List File))
    (place : List ℕ) (parts : List Text) {key : Text} {i : ℕ} {c : Node}
    (h : c.isRegular = true) :
    platform.visit walk place parts (key, i, c) =
      match platform.rebaseParts (parts ++ [c.name]) with
      | [] => .ok []
      | part :: rest => .ok [⟨place ++ [i], ['/'].intercalate (part :: rest), c.entry⟩] := by
  rw [Platform.visit]
  dsimp only
  rw [if_neg (by simp [not_isDir_of_isRegular h]), if_pos h]

variable {files : List File}

variable {parts : List Text}

/-- Below a directory, the walk of a child yields what it does in the child. -/
theorem visit_sound {walk : List ℕ → List Text → Node → Except ConversionFault (List File)}
    {node c : Node} {key : Text} {i : ℕ}
    (hwalk : ∀ files, walk (place ++ [i]) (parts ++ [c.name]) c = .ok files →
      platform.Walked (place ++ [i]) (parts ++ [c.name]) c files)
    (hc : node.children[i]? = some c) (hlive : c.isDeleted = false)
    (h : platform.visit walk place parts (key, i, c) = .ok files) :
    (files.map File.place).Nodup ∧
      ∀ f ∈ files, ∃ q n, f.place = place ++ i :: q ∧ node.nodeAt (i :: q) = some n ∧
        n.isRegular = true ∧ f.entry = n.entry ∧
        platform.rebaseParts (parts ++ node.namesTo (i :: q)) ≠ [] ∧
        f.relative = ['/'].intercalate (platform.rebaseParts (parts ++ node.namesTo (i :: q))) := by
  by_cases hdir : c.isDir = true
  · rw [Platform.visit] at h
    dsimp only at h
    rw [if_pos hdir] at h
    have hwalked := hwalk files h
    refine ⟨hwalked.nodup, fun f hf => ?_⟩
    obtain ⟨q, n, hplace, -, hnode, hregular, hentry, hrebased, hrelative⟩ := hwalked.sound f hf
    refine ⟨q, n, by simpa using hplace, ?_, hregular, hentry, ?_⟩
    · rw [nodeAt_cons hc hlive (.inr hdir)]
      exact hnode
    · rw [namesTo_cons hc]
      simpa using And.intro hrebased hrelative
  · by_cases hregular : c.isRegular = true
    · rw [visit_regular walk place parts hregular] at h
      cases hrebased : platform.rebaseParts (parts ++ [c.name]) with
      | nil =>
        rw [hrebased] at h
        cases h
        exact ⟨List.nodup_nil, by simp⟩
      | cons part rest =>
        rw [hrebased] at h
        cases h
        refine ⟨List.nodup_singleton _, fun f hf => ?_⟩
        rw [List.mem_singleton.1 hf]
        refine ⟨[], c, rfl, ?_, hregular, rfl, ?_⟩
        · rw [nodeAt_cons hc hlive (.inl rfl)]
          rfl
        · rw [namesTo_cons hc]
          simp [Node.namesTo, hrebased]
    · rw [Platform.visit] at h
      dsimp only at h
      rw [if_neg hdir, if_neg hregular] at h
      cases h
      exact ⟨List.nodup_nil, by simp⟩

/-- By induction on the room: the children that are kept have different names, so
their places are different, and a child that is not kept has a sibling that is. -/
theorem walked_of_walk {room : ℕ} {node : Node}
    (h : platform.walk room place parts node = .ok files) :
    platform.Walked place parts node files := by
  induction room generalizing place parts node files with
  | zero => cases h
  | succ room ih =>
    rw [Platform.walk] at h
    have hchosen : platform.Chosen _ _ := chosen_choose node.children
    have hkept : ∀ e ∈ platform.choose node.children,
        node.children[e.2.1]? = some e.2.2 ∧ e.2.2.isDeleted = false ∧
          platform.lower e.2.2.name = e.1 := by
      intro e he
      obtain ⟨hmem, hrest⟩ := hchosen.sound e he
      exact ⟨mem_indexed.1 hmem, hrest⟩
    have hvisit : ∀ e ∈ platform.choose node.children, ∀ fs,
        platform.visit (platform.walk room) place parts e = .ok fs →
        (fs.map File.place).Nodup ∧ ∀ f ∈ fs, ∃ q n, f.place = place ++ e.2.1 :: q ∧
            node.nodeAt (e.2.1 :: q) = some n ∧ n.isRegular = true ∧ f.entry = n.entry ∧
            platform.rebaseParts (parts ++ node.namesTo (e.2.1 :: q)) ≠ [] ∧
            f.relative = ['/'].intercalate
              (platform.rebaseParts (parts ++ node.namesTo (e.2.1 :: q))) := by
      intro e he fs hfs
      obtain ⟨hc, hlive, -⟩ := hkept e he
      exact visit_sound (fun files hfiles => ih hfiles) hc hlive hfs
    refine ⟨?_, ?_, ?_⟩
    · refine nodup_concatM h (fun e he fs hfs => (hvisit e he fs hfs).1) ?_
      refine (List.pairwise_map.1 hchosen.nodup).imp_of_mem ?_
      intro e e' he he' hne fs fs' hfs hfs' f hf f' hf' hplace
      obtain ⟨q, -, hq, -⟩ := (hvisit e he fs hfs).2 f hf
      obtain ⟨q', -, hq', -⟩ := (hvisit e' he' fs' hfs').2 f' hf'
      rw [hq, hq', List.append_cancel_left_eq, List.cons.injEq] at hplace
      obtain ⟨hc, -, hname⟩ := hkept e he
      obtain ⟨hc', -, hname'⟩ := hkept e' he'
      rw [hplace.1, hc', Option.some.injEq] at hc
      exact hne (by rw [← hname, ← hname', hc])
    · intro f hf
      obtain ⟨e, he, fs, hfs, hmem⟩ := (mem_concatM h).1 hf
      obtain ⟨q, n, hplace, hrest⟩ := (hvisit e he fs hfs).2 f hmem
      exact ⟨e.2.1 :: q, n, hplace, by simp, hrest⟩
    · intro q hq
      cases q with
      | nil =>
        obtain ⟨n, hne, -⟩ := hq
        exact absurd rfl hne
      | cons i q =>
        obtain ⟨c, hc, hlive, hfile⟩ := liveFile_cons hq
        obtain ⟨e, he, hkey, hnot⟩ := hchosen.complete (i, c) (mem_indexed.2 hc) hlive
        obtain ⟨he', helive, hename⟩ := hkept e he
        by_cases hsame : e.2.1 = i
        · -- the child itself is kept
          have hchild : e.2.2 = c := by
            rw [hsame, hc] at he'
            exact (Option.some.inj he').symm
          obtain ⟨key, j, d⟩ := e
          obtain rfl : j = i := hsame
          obtain rfl : d = c := hchild
          obtain ⟨fs, hfs, hmem⟩ := ok_of_concatM h he
          obtain ⟨rfl, hregular⟩ | ⟨hdir, hbelow⟩ := hfile
          · rw [visit_regular _ _ _ hregular] at hfs
            have hnames : node.namesTo [j] = [d.name] := namesTo_cons hc []
            rw [hnames]
            cases hrebased : platform.rebaseParts (parts ++ [d.name]) with
            | nil => exact .inr (.inr rfl)
            | cons part rest =>
              rw [hrebased] at hfs
              cases hfs
              exact .inl ⟨_, hmem _ (List.mem_singleton_self _), rfl⟩
          · rw [Platform.visit] at hfs
            dsimp only at hfs
            rw [if_pos hdir] at hfs
            rw [namesTo_cons hc]
            obtain ⟨f, hf, hplace⟩ | hclash | hempty := (ih hfs).complete q hbelow
            · exact .inl ⟨f, hmem f hf, by simpa using hplace⟩
            · exact .inr (.inl ⟨d, hc, .inr hclash⟩)
            · exact .inr (.inr (by simpa using hempty))
        · refine .inr (.inl ⟨c, hc, .inl ⟨e.2.1, e.2.2, hsame, he', helive, ?_, hnot⟩⟩)
          rw [hename, hkey]

/-- The walk returns where the recursion goes deep enough. -/
theorem exists_walk {room : ℕ} {node : Node}
    (h : node.DepthLt room) : ∃ files, platform.walk room place parts node = .ok files := by
  induction room generalizing place parts node with
  | zero => exact absurd (h [] node rfl (.inr rfl)) (by simp)
  | succ room ih =>
    rw [Platform.walk]
    refine exists_concatM_eq_ok fun e he => ?_
    have hchosen : platform.Chosen _ _ := chosen_choose node.children
    obtain ⟨hmem, hlive, -⟩ := hchosen.sound e he
    have hc := mem_indexed.1 hmem
    rw [Platform.visit]
    split
    · rename_i hdir
      refine ih fun q n hn hq => ?_
      have hlen := h (e.2.1 :: q) n (by rw [nodeAt_cons hc hlive (.inr hdir), hn]) ?_
      · simpa using hlen
      · obtain hq | rfl := hq
        · exact .inl hq
        · cases hn
          exact .inl hdir
    · split
      · split
        · exact ⟨_, rfl⟩
        · exact ⟨_, rfl⟩
      · exact ⟨_, rfl⟩

/-! ### What is packed -/

/-- The files that are not skipped: the first of each path up to case. -/
def Platform.firsts (platform : Platform) : List File → List Text → List File
  | [], _ => []
  | file :: files, seen =>
    if platform.lower file.relative ∈ seen then platform.firsts files seen
    else file :: platform.firsts files (platform.lower file.relative :: seen)

/-- The member that a file leaves in the archive. -/
def Platform.member (platform : Platform) (file : File) : Option Member :=
  match platform.outcome file with
  | .written data => some ⟨zipName file.relative, data⟩
  | .failed => none
  | .truncated data => some ⟨zipName file.relative, data⟩

def Platform.isWritten (platform : Platform) (file : File) : Bool :=
  match platform.outcome file with
  | .written _ => true
  | _ => false

theorem pack_firsts (platform : Platform) (files : List File) (seen : List Text) (r : Conversion) :
    (platform.pack files seen r).archive =
        r.archive ++ (platform.firsts files seen).filterMap platform.member ∧
      (platform.pack files seen r).files =
        r.files + (platform.firsts files seen).countP platform.isWritten ∧
      (platform.pack files seen r).failedCount =
        r.failedCount + (platform.firsts files seen).countP fun f => !platform.isWritten f := by
  induction files generalizing seen r with
  | nil => simp [Platform.pack, Platform.firsts]
  | cons file files ih =>
    rw [Platform.pack, Platform.firsts]
    split
    · exact ih seen r
    · rw [List.filterMap_cons, List.countP_cons, List.countP_cons]
      cases hout : platform.outcome file with
      | written data =>
        obtain ⟨harchive, hfiles, hfailed⟩ := ih (platform.lower file.relative :: seen)
          { r with
            archive := r.archive ++ [⟨zipName file.relative, data⟩]
            files := r.files + 1
            bytes := r.bytes + data.length }
        simp only [Platform.member, Platform.isWritten, hout, harchive, hfiles, hfailed]
        refine ⟨by simp, by simp; omega, by simp⟩
      | failed =>
        obtain ⟨harchive, hfiles, hfailed⟩ := ih (platform.lower file.relative :: seen)
          { r with failed := r.failed ++ [file.relative], failedCount := r.failedCount + 1 }
        simp only [Platform.member, Platform.isWritten, hout, harchive, hfiles, hfailed]
        refine ⟨by simp, by simp, by simp; omega⟩
      | truncated data =>
        obtain ⟨harchive, hfiles, hfailed⟩ := ih (platform.lower file.relative :: seen)
          { r with
            archive := r.archive ++ [⟨zipName file.relative, data⟩]
            failed := r.failed ++ [file.relative]
            failedCount := r.failedCount + 1 }
        simp only [Platform.member, Platform.isWritten, hout, harchive, hfiles, hfailed]
        refine ⟨by simp, by simp, by simp; omega⟩

theorem firsts_sublist (files : List File) (seen : List Text) :
    (platform.firsts files seen).Sublist files := by
  induction files generalizing seen with
  | nil => exact List.Sublist.refl _
  | cons file files ih =>
    rw [Platform.firsts]
    split
    · exact (ih seen).cons file
    · exact (ih _).cons_cons file

theorem firsts_fresh {seen : List Text} {f : File}
    (h : f ∈ platform.firsts files seen) : platform.lower f.relative ∉ seen := by
  induction files generalizing seen with
  | nil => cases h
  | cons file files ih =>
    rw [Platform.firsts] at h
    split at h
    · exact ih h
    · rename_i hnot
      obtain rfl | h := List.mem_cons.1 h
      · exact hnot
      · exact fun hin => ih h (.tail _ hin)

theorem nodup_firsts (files : List File) (seen : List Text) :
    ((platform.firsts files seen).map fun f => platform.lower f.relative).Nodup := by
  induction files generalizing seen with
  | nil => exact List.nodup_nil
  | cons file files ih =>
    rw [Platform.firsts]
    split
    · exact ih seen
    · rw [List.map_cons, List.nodup_cons]
      refine ⟨fun hmem => ?_, ih _⟩
      obtain ⟨f, hf, hpath⟩ := List.mem_map.1 hmem
      exact firsts_fresh hf (by rw [hpath]; simp)

/-- A file that is skipped has the path of one that is not. -/
theorem firsts_complete (platform : Platform) (seen : List Text) {f : File} (h : f ∈ files) :
    platform.lower f.relative ∈ seen ∨ f ∈ platform.firsts files seen ∨
      ∃ f' ∈ platform.firsts files seen, platform.lower f'.relative = platform.lower f.relative := by
  induction files generalizing seen with
  | nil => cases h
  | cons file files ih =>
    rw [Platform.firsts]
    by_cases hseen : platform.lower file.relative ∈ seen
    · rw [if_pos hseen]
      obtain rfl | h := List.mem_cons.1 h
      · exact .inl hseen
      · exact ih seen h
    · rw [if_neg hseen]
      obtain rfl | h := List.mem_cons.1 h
      · exact .inr (.inl (.head _))
      · obtain hin | hin | ⟨f', hf', hpath⟩ :=
          ih (platform.lower file.relative :: seen) h
        · obtain hsame | hin := List.mem_cons.1 hin
          · exact .inr (.inr ⟨file, .head _, hsame.symm⟩)
          · exact .inl hin
        · exact .inr (.inl (.tail _ hin))
        · exact .inr (.inr ⟨f', .tail _ hf', hpath⟩)

end

/-! ### Every file is accounted for -/

section

variable (platform : Platform)

/-- The path of the file at a place. -/
def Platform.pathOf (root : Node) (place : List ℕ) : Text :=
  ['/'].intercalate (platform.rebaseParts (root.namesTo place))

/-- The ways in which a file is taken for another or has no path: an entry on its
way has a sibling of the same name up to case, its rebased path is empty, or it
is that of another file up to case. -/
def Platform.Collides (root : Node) (place : List ℕ) : Prop :=
  root.SiblingClash platform place ∨ platform.rebaseParts (root.namesTo place) = [] ∨
    ∃ other, other ≠ place ∧ root.LiveFile other ∧
      platform.lower (platform.pathOf root other) = platform.lower (platform.pathOf root place)

/-- What a conversion does with the files of a tree: those accounted for are
different live files with different paths, each of them is written to a member of
its own or failed, and a file that is not among them collides. -/
structure Platform.Accounts (root : Node) (r : Conversion) (accounted : List File) : Prop where
  places : (accounted.map File.place).Nodup
  live : ∀ f ∈ accounted, root.LiveFile f.place ∧ f.relative = platform.pathOf root f.place ∧
    (root.nodeAt f.place).map Node.entry = some f.entry
  paths : (accounted.map fun f => platform.lower f.relative).Nodup
  archive : r.archive = accounted.filterMap platform.member
  written : r.files = accounted.countP platform.isWritten
  failed : r.failedCount = accounted.countP fun f => !platform.isWritten f
  complete : ∀ place, root.LiveFile place →
    place ∈ accounted.map File.place ∨ platform.Collides root place

variable {platform}

theorem accounts_of_walked {root : Node} {files : List File}
    (h : platform.Walked [] [] root files) :
    platform.Accounts root
      { platform.pack files [] ⟨[], 0, 0, [], 0⟩ with
        failed := (platform.pack files [] ⟨[], 0, 0, [], 0⟩).failed.take 50 }
      (platform.firsts files []) := by
  obtain ⟨harchive, hwritten, hfailed⟩ :=
    pack_firsts platform files [] ⟨[], 0, 0, [], 0⟩
  have hsub : (platform.firsts files []).Sublist files := firsts_sublist files []
  have hlive : ∀ f ∈ files, root.LiveFile f.place ∧ f.relative = platform.pathOf root f.place ∧
      (root.nodeAt f.place).map Node.entry = some f.entry := by
    intro f hf
    obtain ⟨q, n, hplace, hne, hnode, hregular, hentry, -, hrelative⟩ := h.sound f hf
    rw [List.nil_append] at hplace
    rw [hplace]
    exact ⟨⟨n, hne, hnode, hregular⟩, hrelative, by rw [hnode, hentry]; rfl⟩
  refine ⟨h.nodup.sublist (hsub.map _), fun f hf => hlive f (hsub.subset hf), nodup_firsts files [],
    by simpa using harchive, by simpa using hwritten, by simpa using hfailed, ?_⟩
  intro place hplace
  obtain ⟨f, hf, hfplace⟩ | hclash | hempty := h.complete place hplace
  · rw [List.nil_append] at hfplace
    obtain hseen | hin | ⟨f', hf', hpath⟩ := firsts_complete platform [] hf
    · cases hseen
    · exact .inl (List.mem_map.2 ⟨f, hin, hfplace⟩)
    · obtain ⟨hlive', hrelative', -⟩ := hlive f' (hsub.subset hf')
      by_cases hsame : f'.place = place
      · exact .inl (List.mem_map.2 ⟨f', hf', hsame⟩)
      · refine .inr (.inr (.inr ⟨f'.place, hsame, hlive', ?_⟩))
        rw [← hrelative', hpath, (hlive f hf).2.1, hfplace]
  · exact .inr (.inl hclash)
  · exact .inr (.inr (.inl hempty))

variable {r : Conversion} {accounted : List File}

theorem Platform.Accounts.total {root : Node}
    (h : platform.Accounts root r accounted) : r.files + r.failedCount = accounted.length := by
  rw [h.written, h.failed]
  have hlen := List.length_eq_countP_add_countP platform.isWritten (l := accounted)
  simp only [decide_not, Bool.decide_eq_true] at hlen
  omega

/-- Without collisions, everything is accounted for. -/
theorem Platform.Accounts.total_eq_ncard {root : Node} (h : platform.Accounts root r accounted)
    (hfree : ∀ place, root.LiveFile place → ¬ platform.Collides root place) :
    r.files + r.failedCount = {place | root.LiveFile place}.ncard := by
  have hset : {place | root.LiveFile place} = ↑(accounted.map File.place).toFinset := by
    ext place
    simp only [Set.mem_ofPred_eq, List.coe_toFinset]
    constructor
    · intro hplace
      exact (h.complete place hplace).resolve_right (hfree place hplace)
    · intro hplace
      obtain ⟨f, hf, rfl⟩ := List.mem_map.1 hplace
      exact (h.live f hf).1
  rw [hset, Set.ncard_coe_finset, List.toFinset_card_of_nodup h.places, List.length_map, h.total]

theorem zipName_eq {relative : Text} (h : ∀ c ∈ relative, c.toNat ≠ 0) :
    zipName relative = relative := by
  rw [zipName, List.takeWhile_eq_self_iff]
  intro c hc
  simpa using h c hc

theorem member_names_sublist {files : List File}
    (hnul : ∀ f ∈ files, ∀ c ∈ f.relative, c.toNat ≠ 0) :
    ((files.filterMap platform.member).map fun m => platform.lower m.name).Sublist
      (files.map fun f => platform.lower f.relative) := by
  induction files with
  | nil => exact List.Sublist.refl _
  | cons f files ih =>
    have hrest := ih fun f' hf' => hnul f' (.tail _ hf')
    have hname : zipName f.relative = f.relative := zipName_eq (hnul f (.head _))
    rw [List.filterMap_cons, Platform.member]
    cases platform.outcome f with
    | failed => exact hrest.cons _
    | written data | truncated data =>
      rw [List.map_cons, List.map_cons, hname]
      exact hrest.cons_cons _

/-- Members have different names, up to case, if no path has a null character. -/
theorem Platform.Accounts.names {root : Node} (h : platform.Accounts root r accounted)
    (hnul : ∀ f ∈ accounted, ∀ c ∈ f.relative, c.toNat ≠ 0) :
    (r.archive.map fun m => platform.lower m.name).Nodup := by
  rw [h.archive]
  exact h.paths.sublist (member_names_sublist hnul)

end

/-- The conversion of a tree that is not too deep accounts for every live regular
file but those that collide: each is written to one member of its own or counted
as failed, and no two share a member. -/
theorem conversion_accounts_for_files (platform : Platform) {room : ℕ} {root : Node}
    (hdepth : root.DepthLt room) :
    ∃ r accounted, platform.convertAd1ToZip room root = .ok r ∧
      platform.Accounts root r accounted ∧ r.files + r.failedCount = accounted.length ∧
      ((∀ f ∈ accounted, ∀ c ∈ f.relative, c.toNat ≠ 0) →
        (r.archive.map fun m => platform.lower m.name).Nodup) ∧
      ((∀ place, root.LiveFile place → ¬ platform.Collides root place) →
        r.files + r.failedCount = {place | root.LiveFile place}.ncard) := by
  obtain ⟨files, hfiles⟩ : ∃ files, platform.walk room [] [] root = .ok files := exists_walk hdepth
  have haccounts := accounts_of_walked (walked_of_walk hfiles)
  refine ⟨_, platform.firsts files [], ?_, haccounts, haccounts.total, haccounts.names,
    haccounts.total_eq_ncard⟩
  rw [Platform.convertAd1ToZip, hfiles]
  rfl

/-! ### A file and its index entry -/

def asciiPlatform : Platform where
  lower := List.map Char.toLower
  accepts _ _ := true

/-- A directory with a file of one byte and an empty entry of the same name. -/
def indexedTree : Node :=
  .mk ⟨[], .directory, 0, .unreadable⟩
    [.mk ⟨['a'], .regular, 1, .whole [7]⟩ [], .mk ⟨['a'], .regular, 0, .whole []⟩ []]

/-- The index entry of a file is dropped. -/
theorem index_entry_dropped : ¬ ∃ r, asciiPlatform.convertAd1ToZip 2 indexedTree = .ok r ∧
      r.files + r.failedCount = {place | indexedTree.LiveFile place}.ncard := by
  rintro ⟨r, hr, hcount⟩
  have hconvert : asciiPlatform.convertAd1ToZip 2 indexedTree =
      .ok ⟨[⟨['a'], [7]⟩], 1, 1, [], 0⟩ := by decide +kernel
  cases hconvert.symm.trans hr
  obtain ⟨place, hplace⟩ := Set.ncard_eq_one.1 hcount.symm
  have hfirst : [0] ∈ {place | indexedTree.LiveFile place} := ⟨_, by simp, rfl, rfl⟩
  have hsecond : [1] ∈ {place | indexedTree.LiveFile place} := ⟨_, by simp, rfl, rfl⟩
  rw [hplace, Set.mem_singleton_iff] at hfirst hsecond
  cases hfirst.trans hsecond.symm

/-- A file in a directory of the drive. -/
def driveTree : Node :=
  .mk ⟨[], .directory, 0, .unreadable⟩
    [.mk ⟨"C:".toList, .directory, 0, .unreadable⟩ [.mk ⟨['a'], .regular, 1, .whole [7]⟩ []]]

theorem driveTree_depth : driveTree.DepthLt 2 := by
  intro place n hn hdir
  rcases place with - | ⟨i, - | ⟨j, place⟩⟩
  · simp
  · simp
  exfalso
  rcases i with - | i
  · rcases j with - | j
    · rcases place with - | ⟨k, place⟩
      · cases hn
        simp [Node.isDir, Node.entry] at hdir
      · simp [Node.nodeAt, driveTree, Node.children, Node.isDir, Node.entry] at hn
    · simp [Node.nodeAt, driveTree, Node.children] at hn
  · simp [Node.nodeAt, driveTree, Node.children] at hn

/-- It is written under the letter of the drive. -/
theorem drive_file_written :
    driveTree.DepthLt 2 ∧ ∃ r accounted, asciiPlatform.convertAd1ToZip 2 driveTree = .ok r ∧
      asciiPlatform.Accounts driveTree r accounted ∧
      r.files + r.failedCount = accounted.length := by
  obtain ⟨r, accounted, hr, haccounts, htotal, -⟩ :=
    conversion_accounts_for_files asciiPlatform driveTree_depth
  exact ⟨driveTree_depth, r, accounted, hr, haccounts, htotal⟩

end Kairon.Ingest

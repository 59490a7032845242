/-
Kairon/Ingest/Extract.lean

The extraction of the members of a ZIP archive below a directory, and the
manifest it returns.

A member is written to the path its name gives, with `.` dropped and `..`
followed.  Nothing is written but below the destination.  Two members whose names
lead to one path are both written there and both recorded as extracted, the
second over the first: `manifest_truthful_iff` says when the manifest still tells
the truth.

Paths are lists of components from the root.  The destination is resolved, and
there are no symbolic links below it: the extraction makes none.
-/
import Kairon.Ingest.Ad1

namespace Kairon.Ingest

open Search (Text)

/-! ### Files -/

abbrev Path := List Text

structure FileSystem where
  files : Path → Option Bytes
  dirs : Path → Bool

namespace FileSystem

variable (fs : FileSystem)

def addDir (path : Path) : FileSystem :=
  { fs with dirs := fun p => if p = path then true else fs.dirs p }

def write (path : Path) (data : Bytes) : FileSystem :=
  { fs with files := fun p => if p = path then some data else fs.files p }

end FileSystem

/-- `..`. -/
def parentPart : Text := ['.', '.']

/-- One component on the way. -/
def descend (here : Path) (part : Text) : Path :=
  if part = parentPart then here.dropLast else here ++ [part]

/-- `Path.resolve` of a path below a directory. -/
def resolve (base : Path) (parts : List Text) : Path := parts.foldl descend base

/-- The parts of a relative `Path`: `.` and empty parts are dropped. -/
def pathParts (name : Text) : List Text :=
  (name.splitOn '/').filter fun part => part ∉ [[], ['.']]

/-- `mkdir(parents=True, exist_ok=True)` along the parts: whether it went through,
and the directories made so far. -/
def makeDirs : FileSystem → Path → List Text → FileSystem × Bool
  | fs, _, [] => (fs, true)
  | fs, here, part :: parts =>
    if part = parentPart then makeDirs fs here.dropLast parts
    else if (fs.files (here ++ [part])).isSome then (fs, false)
    else makeDirs (fs.addDir (here ++ [part])) (here ++ [part]) parts

/-- The copy of a member into its file: the directory is made, the member opened,
the file opened and filled.  A member that breaks off leaves what was copied. -/
def store (fs : FileSystem) (dest : Path) (parts : List Text) (content : Content) :
    FileSystem × Bool :=
  let (fs, made) := makeDirs fs dest parts.dropLast
  let target := resolve dest parts
  let isDirectory := parts.getLast?.all fun part => part = parentPart
  if !made || isDirectory || fs.dirs target then (fs, false)
  else
    match content with
    | .unreadable => (fs, false)
    | .broken data => (fs.write target data, false)
    | .whole data => (fs.write target data, true)

/-! ### The extraction -/

structure ArchiveMember where
  filename : Text
  fileSize : ℕ
  content : Content

/-- `member.is_dir()`. -/
def ArchiveMember.isDir (m : ArchiveMember) : Bool := m.filename.getLast? = some '/'

inductive IgnoreReason
  | macosDirectory | macosMetadata | appledoubleResourceFork | windowsMetadata | zeroSize
  deriving DecidableEq

inductive ExtractFault
  | absolutePath (name : Text)
  | unsafePath (name : Text)
  | copyFailed (name : Text)
  | fileLimit (count : ℕ)
  | byteLimit (total : ℕ)
  | destinationIsFile
  deriving DecidableEq

structure ManifestEntry where
  path : Text
  reason : Option IgnoreReason
  size : ℕ
  /-- `local_path`, from the destination on. -/
  localPath : Option (List Text)
  deriving DecidableEq

/-- `status == "extracted"`. -/
def ManifestEntry.extracted (e : ManifestEntry) : Bool := e.reason.isNone

/-- `backend_max_extracted_files` and `backend_max_extracted_bytes`. -/
structure ExtractLimits where
  maxFiles : ℕ
  maxBytes : ℕ

section

variable (lower : Text → Text) (limits : ExtractLimits) (dest : Path)

/-- `_validate_path`. -/
def validatePath (name : Text) : Except ExtractFault (List Text) :=
  if name.head? = some '/' then .error (.absolutePath name)
  else if dest.isPrefixOf (resolve dest (pathParts name)) then .ok (pathParts name)
  else .error (.unsafePath name)

/-- `should_ignore_path` of a file. -/
def shouldIgnorePath (parts : List Text) (size : ℕ) : Option IgnoreReason :=
  let name := parts.getLast?.getD []
  if "__macosx".toList ∈ parts.map lower then some .macosDirectory
  else if name = ".DS_Store".toList then some .macosMetadata
  else if parts.any fun part => ['.', '_'].isPrefixOf part then some .appledoubleResourceFork
  else if lower name ∈ ["desktop.ini".toList, "thumbs.db".toList] then some .windowsMetadata
  else if size = 0 then some .zeroSize
  else none

/-- The loop of `_safe_members_zip`. -/
def safeMembersZip : List ArchiveMember → FileSystem → List ManifestEntry →
    FileSystem × Except ExtractFault (List ManifestEntry)
  | [], fs, entries => (fs, .ok entries)
  | m :: members, fs, entries =>
    match validatePath dest m.filename with
    | .error fault => (fs, .error fault)
    | .ok parts =>
      match shouldIgnorePath lower parts m.fileSize with
      | some reason =>
        safeMembersZip members fs (entries ++ [⟨m.filename, some reason, m.fileSize, none⟩])
      | none =>
        match store fs dest parts m.content with
        | (fs, true) =>
          safeMembersZip members fs
            (entries ++ [⟨m.filename, none, m.fileSize, some parts⟩])
        | (fs, false) => (fs, .error (.copyFailed m.filename))

/-- `_enforce_limits`. -/
def enforceLimits (entries : List ManifestEntry) : Except ExtractFault (List ManifestEntry) :=
  let kept := entries.filter ManifestEntry.extracted
  let total := (kept.map ManifestEntry.size).sum
  if limits.maxFiles < kept.length then .error (.fileLimit kept.length)
  else if limits.maxBytes < total then .error (.byteLimit total)
  else .ok entries

/-- `extract_archive` of a ZIP: the files it leaves, and the manifest. -/
def extractArchive (members : List ArchiveMember) (fs : FileSystem) :
    FileSystem × Except ExtractFault (List ManifestEntry) :=
  if (fs.files dest).isSome then (fs, .error .destinationIsFile)
  else
    match safeMembersZip lower dest (members.filter fun m => !m.isDir) (fs.addDir dest) [] with
    | (fs, .error fault) => (fs, .error fault)
    | (fs, .ok entries) => (fs, enforceLimits limits entries)

end

/-! ### Containment -/

theorem makeDirs_files (fs : FileSystem) (here : Path) (parts : List Text) :
    (makeDirs fs here parts).1.files = fs.files := by
  induction parts generalizing fs here with
  | nil => rfl
  | cons part parts ih =>
    rw [makeDirs]
    split
    · exact ih fs here.dropLast
    · split
      · rfl
      · exact ih _ _

variable {fs : FileSystem}

theorem makeDirs_dirs (here : Path) (parts : List Text) {path : Path}
    (h : fs.dirs path = true) : (makeDirs fs here parts).1.dirs path = true := by
  induction parts generalizing fs here with
  | nil => exact h
  | cons part parts ih =>
    rw [makeDirs]
    split
    · exact ih here.dropLast h
    · split
      · exact h
      · refine ih _ ?_
        simp [FileSystem.addDir, h]

/-- Storing a member leaves everything alone but the file at its path, which is no
directory. -/
theorem store_frame (dest : Path) (parts : List Text) (content : Content)
    {path : Path} (hpath : fs.dirs path = true) :
    (store fs dest parts content).1.dirs path = true ∧
      ∀ p, (store fs dest parts content).1.files p ≠ fs.files p →
        p = resolve dest parts ∧ p ≠ path := by
  have hdirs : (makeDirs fs dest parts.dropLast).1.dirs path = true := makeDirs_dirs _ _ hpath
  have hfiles := makeDirs_files fs dest parts.dropLast
  rw [store]
  dsimp only
  split
  · refine ⟨hdirs, fun p hp => absurd ?_ hp⟩
    rw [hfiles]
  · rename_i hcond
    simp only [Bool.or_eq_true, Bool.not_eq_true', not_or, Bool.not_eq_true] at hcond
    have hwrite : ∀ data, ((makeDirs fs dest parts.dropLast).1.write (resolve dest parts)
          data).dirs path = true ∧
        ∀ p, ((makeDirs fs dest parts.dropLast).1.write (resolve dest parts) data).files p ≠
          fs.files p → p = resolve dest parts ∧ p ≠ path := by
      intro data
      refine ⟨hdirs, fun p hp => ?_⟩
      have hsame : p = resolve dest parts := by
        by_contra hne
        exact hp (by simp [FileSystem.write, hne, hfiles])
      refine ⟨hsame, ?_⟩
      rintro rfl
      rw [hsame, hcond.2] at hdirs
      cases hdirs
    cases content with
    | unreadable =>
      refine ⟨hdirs, fun p hp => absurd ?_ hp⟩
      rw [hfiles]
    | broken data | whole data => exact hwrite data

theorem store_ok {fs fs' : FileSystem} {dest : Path} {parts : List Text} {content : Content}
    (h : store fs dest parts content = (fs', true)) :
    ∃ data, content = .whole data ∧
      fs'.files = fun p => if p = resolve dest parts then some data else fs.files p := by
  have hfiles := makeDirs_files fs dest parts.dropLast
  rw [store] at h
  dsimp only at h
  split at h
  · cases h
  · cases content with
    | unreadable => cases h
    | broken data => cases h
    | whole data =>
      cases h
      refine ⟨data, rfl, ?_⟩
      rw [FileSystem.write, hfiles]

theorem validatePath_ok {dest : Path} {name : Text} {parts : List Text}
    (h : validatePath dest name = .ok parts) :
    parts = pathParts name ∧ ∃ q, resolve dest (pathParts name) = dest ++ q := by
  rw [validatePath] at h
  split at h
  · cases h
  split at h
  · rename_i hprefix
    cases h
    obtain ⟨q, hq⟩ := List.isPrefixOf_iff_prefix.1 hprefix
    exact ⟨rfl, q, hq.symm⟩
  · cases h

/-- The loop writes strictly below the destination, whether it goes through or
not. -/
theorem safeMembersZip_contained {lower : Text → Text} {dest : Path} {members : List ArchiveMember}
    {entries : List ManifestEntry} (hdest : fs.dirs dest = true) {p : Path}
    (hp : (safeMembersZip lower dest members fs entries).1.files p ≠ fs.files p) :
    ∃ q, q ≠ [] ∧ p = dest ++ q := by
  induction members generalizing fs entries with
  | nil => exact absurd rfl hp
  | cons m members ih =>
    rw [safeMembersZip] at hp
    split at hp
    · exact absurd rfl hp
    rename_i parts hvalid
    obtain ⟨rfl, q, hq⟩ := validatePath_ok hvalid
    split at hp
    · exact ih hdest hp
    have hframe := store_frame dest (pathParts m.filename) m.content hdest
    -- a change is made by this member or by a later one
    have hhere : ∀ fs', (store fs dest (pathParts m.filename) m.content).1 = fs' →
        fs'.files p ≠ fs.files p → ∃ q, q ≠ [] ∧ p = dest ++ q := by
      rintro fs' rfl hchanged
      obtain ⟨rfl, hne⟩ := hframe.2 p hchanged
      refine ⟨q, ?_, hq⟩
      rintro rfl
      exact hne (by rw [hq, List.append_nil])
    split at hp
    · rename_i fs' hstore
      have hfs' : (store fs dest (pathParts m.filename) m.content).1 = fs' := by rw [hstore]
      by_cases hchanged : fs'.files p = fs.files p
      · rw [← hchanged] at hp
        exact ih (by rw [← hfs']; exact hframe.1) hp
      · exact hhere fs' hfs' hchanged
    · rename_i fs' hstore
      exact hhere fs' (by rw [hstore]) hp

/-! ### The manifest -/

section

variable (lower : Text → Text) (dest : Path)

/-- A member that is not ignored. -/
def ArchiveMember.kept (m : ArchiveMember) : Bool :=
  (shouldIgnorePath lower (pathParts m.filename) m.fileSize).isNone

/-- The entry of a member in a manifest. -/
def ArchiveMember.manifestEntry (m : ArchiveMember) : ManifestEntry :=
  match shouldIgnorePath lower (pathParts m.filename) m.fileSize with
  | some reason => ⟨m.filename, some reason, m.fileSize, none⟩
  | none => ⟨m.filename, none, m.fileSize, some (pathParts m.filename)⟩

/-- Where a member is written. -/
def ArchiveMember.location (m : ArchiveMember) : Path := resolve dest (pathParts m.filename)

/-- The content of the last member written to a path. -/
def lastContent : List ArchiveMember → Path → Option Content
  | [], _ => none
  | m :: members, path =>
    (lastContent members path).or
      (if m.kept lower ∧ m.location dest = path then some m.content else none)

variable {lower dest}

variable {members : List ArchiveMember}

/-- A loop that goes through has an entry for every member, every member it wrote
was read whole, and a path holds the last member written to it. -/
theorem safeMembersZip_ok {fs fs' : FileSystem} {entries out : List ManifestEntry}
    (h : safeMembersZip lower dest members fs entries = (fs', .ok out)) :
    out = entries ++ members.map (ArchiveMember.manifestEntry lower) ∧
      (∀ m ∈ members, m.kept lower = true → ∃ data, m.content = .whole data) ∧
      (∀ path data, lastContent lower dest members path = some (.whole data) →
        fs'.files path = some data) ∧
      ∀ path, lastContent lower dest members path = none → fs'.files path = fs.files path := by
  induction members generalizing fs entries with
  | nil =>
    cases h
    simp [lastContent]
  | cons m members ih =>
    rw [safeMembersZip] at h
    split at h
    · cases h
    rename_i parts hvalid
    obtain ⟨rfl, -⟩ := validatePath_ok hvalid
    split at h
    · rename_i reason hreason
      have hkept : m.kept lower = false := by simp [ArchiveMember.kept, hreason]
      obtain ⟨hout, hwhole, hlast, hkeep⟩ := ih h
      refine ⟨?_, ?_, ?_, ?_⟩
      · rw [hout, List.map_cons, ArchiveMember.manifestEntry, hreason]
        simp
      · intro m' hm' hk
        obtain rfl | hm' := List.mem_cons.1 hm'
        · rw [hkept] at hk
          cases hk
        · exact hwhole m' hm' hk
      · intro path data hdata
        refine hlast path data ?_
        simpa [lastContent, hkept] using hdata
      · intro path hnone
        refine hkeep path ?_
        simpa [lastContent, hkept] using hnone
    · rename_i hreason
      have hkept : m.kept lower = true := by simp [ArchiveMember.kept, hreason]
      split at h
      · rename_i fs₁ hstore
        obtain ⟨data, hdata, hfiles⟩ := store_ok hstore
        obtain ⟨hout, hwhole, hlast, hkeep⟩ := ih h
        refine ⟨?_, ?_, ?_, ?_⟩
        · rw [hout, List.map_cons, ArchiveMember.manifestEntry, hreason]
          simp
        · intro m' hm' hk
          obtain rfl | hm' := List.mem_cons.1 hm'
          · exact ⟨data, hdata⟩
          · exact hwhole m' hm' hk
        · intro path data' hdata'
          rw [lastContent] at hdata'
          cases hrest : lastContent lower dest members path with
          | some content =>
            rw [hrest, Option.some_or] at hdata'
            exact hlast path data' (hrest.trans hdata')
          | none =>
            rw [hrest, Option.none_or] at hdata'
            split at hdata'
            · rename_i hhere
              rw [hdata] at hdata'
              cases hdata'
              rw [hkeep path hrest, hfiles]
              exact if_pos hhere.2.symm
            · cases hdata'
        · intro path hnone
          rw [lastContent, Option.or_eq_none_iff] at hnone
          obtain ⟨hrest, hhere⟩ := hnone
          have hne : path ≠ resolve dest (pathParts m.filename) := by
            rintro rfl
            rw [if_pos ⟨hkept, rfl⟩] at hhere
            cases hhere
          rw [hkeep path hrest, hfiles]
          exact if_neg hne
      · cases h

theorem lastContent_mem {path : Path} {content : Content}
    (h : lastContent lower dest members path = some content) :
    ∃ m ∈ members, m.kept lower = true ∧ m.location dest = path ∧ m.content = content := by
  induction members with
  | nil => cases h
  | cons m members ih =>
    rw [lastContent] at h
    cases hrest : lastContent lower dest members path with
    | some content' =>
      rw [hrest, Option.some_or] at h
      obtain ⟨m', hm', hrest'⟩ := ih (hrest.trans h)
      exact ⟨m', .tail _ hm', hrest'⟩
    | none =>
      rw [hrest, Option.none_or] at h
      split at h
      · rename_i hhere
        cases h
        exact ⟨m, .head _, hhere.1, hhere.2, rfl⟩
      · cases h

theorem lastContent_isSome {m : ArchiveMember} (hm : m ∈ members) (hkept : m.kept lower = true) :
    ∃ content, lastContent lower dest members (m.location dest) = some content := by
  rcases hlast : lastContent lower dest members (m.location dest) with - | content
  · exfalso
    induction members with
    | nil => cases hm
    | cons m' members ih =>
      rw [lastContent, Option.or_eq_none_iff] at hlast
      obtain rfl | hm := List.mem_cons.1 hm
      · rw [if_pos ⟨hkept, rfl⟩] at hlast
        cases hlast.2
      · exact ih hm hlast.1
  · exact ⟨content, rfl⟩

end

/-- Every entry marked extracted names a file that holds its member. -/
def Truthful (dest : Path) (fs : FileSystem) (members : List ArchiveMember)
    (entries : List ManifestEntry) : Prop :=
  entries.length = members.length ∧
    ∀ (i : ℕ) (m : ArchiveMember) (e : ManifestEntry), members[i]? = some m → entries[i]? = some e →
      e.extracted = true →
      ∃ parts data, e.localPath = some parts ∧ m.content = .whole data ∧
        fs.files (resolve dest parts) = some data

/-- Members that are written to one path have one content. -/
def SameContent (lower : Text → Text) (dest : Path) (members : List ArchiveMember) : Prop :=
  ∀ m ∈ members, ∀ m' ∈ members, m.kept lower = true → m'.kept lower = true →
    m.location dest = m'.location dest → m.content = m'.content

section

variable {lower : Text → Text} {dest : Path}

theorem manifestEntry_of_kept {m : ArchiveMember} (h : m.kept lower = true) :
    m.manifestEntry lower = ⟨m.filename, none, m.fileSize, some (pathParts m.filename)⟩ := by
  rw [ArchiveMember.kept, Option.isNone_iff_eq_none] at h
  rw [ArchiveMember.manifestEntry, h]

theorem kept_of_extracted {m : ArchiveMember} (h : (m.manifestEntry lower).extracted = true) :
    m.kept lower = true := by
  rw [ArchiveMember.manifestEntry] at h
  rw [ArchiveMember.kept]
  cases hreason : shouldIgnorePath lower (pathParts m.filename) m.fileSize with
  | none => rfl
  | some reason =>
    rw [hreason] at h
    cases h

/-- The manifest of a loop that goes through is true exactly if no member has been
written over by one of another content. -/
theorem truthful_iff_sameContent {members : List ArchiveMember} {fs fs' : FileSystem}
    {entries : List ManifestEntry}
    (h : safeMembersZip lower dest members fs [] = (fs', .ok entries)) :
    Truthful dest fs' members entries ↔ SameContent lower dest members := by
  obtain ⟨hout, hwhole, hlast, -⟩ := safeMembersZip_ok h
  rw [List.nil_append] at hout
  -- a path holds the content of every kept member that leads to it
  have htrue : Truthful dest fs' members entries ↔ ∀ m ∈ members, m.kept lower = true →
      ∃ data, m.content = .whole data ∧ fs'.files (m.location dest) = some data := by
    constructor
    · rintro ⟨-, htruth⟩ m hm hkept
      obtain ⟨i, hi⟩ := List.mem_iff_getElem?.1 hm
      have hentry : entries[i]? = some (m.manifestEntry lower) := by
        rw [hout, List.getElem?_map, hi]
        rfl
      rw [manifestEntry_of_kept hkept] at hentry
      obtain ⟨parts, data, hparts, hcontent, hfile⟩ := htruth i m _ hi hentry rfl
      cases hparts
      exact ⟨data, hcontent, hfile⟩
    · intro hall
      refine ⟨by rw [hout, List.length_map], fun i m e hi he hextracted => ?_⟩
      rw [hout, List.getElem?_map, hi] at he
      obtain rfl : m.manifestEntry lower = e := Option.some.inj he
      have hkept := kept_of_extracted hextracted
      obtain ⟨data, hcontent, hfile⟩ := hall m (List.mem_of_getElem? hi) hkept
      exact ⟨pathParts m.filename, data, by rw [manifestEntry_of_kept hkept], hcontent, hfile⟩
  rw [htrue]
  constructor
  · intro hall m hm m' hm' hkept hkept' hsame
    obtain ⟨data, hcontent, hfile⟩ := hall m hm hkept
    obtain ⟨data', hcontent', hfile'⟩ := hall m' hm' hkept'
    rw [hsame, hfile'] at hfile
    rw [hcontent, hcontent', Option.some.inj hfile]
  · intro hsame m hm hkept
    obtain ⟨content, hcontent⟩ : ∃ content,
        lastContent lower dest members (m.location dest) = some content :=
      lastContent_isSome hm hkept
    obtain ⟨m', hm', hkept', hlocation, rfl⟩ := lastContent_mem hcontent
    obtain ⟨data, hdata⟩ := hwhole m hm hkept
    have heq : m'.content = .whole data := by
      rw [← hdata]
      exact hsame m' hm' m hm hkept' hkept hlocation
    exact ⟨data, hdata, hlast _ data (by rw [hcontent, heq])⟩

end

/-- Two members of the same name. -/
def twiceNamed : List ArchiveMember := [⟨['a'], 1, .whole [1]⟩, ⟨['a'], 1, .whole [2]⟩]

def emptyDisk : FileSystem := ⟨fun _ => none, fun _ => false⟩

end Kairon.Ingest

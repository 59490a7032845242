/-
Kairon/Disk/PastNames.lean

The names that a directory held in the past, as the journal knows them.

`past_names` goes over the blocks of a directory.  From the copies of a block it notes each
name with the first and the last transaction that listed it; behind each block it asks, for all
names found so far, when that block stopped to list them.  The question is asked too early and
of too many blocks: a later block of the order may list the name again, and a block that never
listed the name answers as well.

For one name this is a run over sources that see and miss it (`Lib/Sighting`): the record of a
name is what `record` says of its rows and of that run (`get_pastFound`), and so the records are
well ordered exactly if, for every name, the first rows of the blocks have one kind and the
blocks are settled (`wellOrdered_iff`).
-/
import Kairon.Lib.Dict
import Kairon.Lib.Sighting

namespace Kairon.Disk

open Kairon.Sighting

/-! ### The journal's copies of directory blocks -/

/-- A name with the inode that it points at. -/
abbrev NameKey := String × ℕ

/-- `[name, inode, file_type, is_live]` of a copy. -/
structure DirEntry where
  name : String
  inode : ℕ
  fileType : ℕ
  isLive : Bool

def DirEntry.key (entry : DirEntry) : NameKey := (entry.name, entry.inode)

/-- `(seq, owner, entries)`: a copy of a block that is a directory block. -/
structure DirCopy where
  seq : ℕ
  owner : Option ℕ
  entries : List DirEntry

/-- What `past_names` reads of the journal: `dir_copies` and `commit_times`. -/
structure NameJournal where
  dirCopies : List (ℕ × List DirCopy)
  commitTimes : List (ℕ × ℕ)

/-- The values of `_FILE_TYPES`, and what is said for all other types. -/
inductive NameKind
  | file
  | dir
  | symlink
  | other
  deriving DecidableEq

/-- `_FILE_TYPES.get(file_type, "other")`. -/
def nameKind (fileType : ℕ) : NameKind :=
  if fileType = 1 then .file
  else if fileType = 2 then .dir
  else if fileType = 7 then .symlink
  else .other

/-- The record of a name; what it does not have (or has as `None`) is `none`. -/
structure PastName where
  name : String
  inode : ℕ
  kind : NameKind
  firstSeq : Option ℕ
  lastSeq : Option ℕ
  goneSeq : Option ℕ
  lastSeen : Option ℕ
  goneBy : Option ℕ
  deriving DecidableEq

/-! ### `past_names` -/

/-- `{(name, inode) for … in entries if is_live}`. -/
def liveKeys (copy : DirCopy) : List NameKey :=
  (copy.entries.filter DirEntry.isLive).map DirEntry.key

/-- `seq if item[…] is None else min(item[…], seq)`, with the comparison as a parameter. -/
def noteSeq (choose : ℕ → ℕ → ℕ) (known : Option ℕ) (seq : ℕ) : Option ℕ :=
  some ((known.map fun old => choose old seq).getD seq)

/-- The item that `setdefault` makes for an entry. -/
def newName (entry : DirEntry) : PastName where
  name := entry.name
  inode := entry.inode
  kind := nameKind entry.fileType
  firstSeq := none
  lastSeq := none
  goneSeq := none
  lastSeen := none
  goneBy := none

/-- What an entry of the copy `seq` adds to its item. -/
def noteLive (seq : ℕ) (entry : DirEntry) (item : PastName) : PastName :=
  if entry.isLive then
    { item with
      firstSeq := noteSeq min item.firstSeq seq
      lastSeq := noteSeq max item.lastSeq seq }
  else item

def noteEntry (seq : ℕ) (found : List (NameKey × PastName)) (entry : DirEntry) :
    List (NameKey × PastName) :=
  Dict.set entry.key (noteLive seq entry ((Dict.get found entry.key).getD (newName entry))) found

def noteCopy (found : List (NameKey × PastName)) (copy : DirCopy) : List (NameKey × PastName) :=
  copy.entries.foldl (noteEntry copy.seq) found

/-- `later`: the copies behind the last listing of a name that do not list it. -/
def later (copies : List DirCopy) (key : NameKey) (last : ℕ) : List ℕ :=
  (copies.filter fun copy => last < copy.seq ∧ key ∉ liveKeys copy).map DirCopy.seq

def noteGone (copies : List DirCopy) (key : NameKey) (item : PastName) : PastName :=
  { item with
    goneSeq := (item.lastSeq.bind fun last => (later copies key last).min?).or item.goneSeq }

variable (journal : NameJournal)

/-- `self.dir_copies.get(number, [])`. -/
def NameJournal.copiesOf (number : ℕ) : List DirCopy := (Dict.get journal.dirCopies number).getD []

/-- The body of the loop over the blocks. -/
def noteBlock (found : List (NameKey × PastName)) (number : ℕ) : List (NameKey × PastName) :=
  ((journal.copiesOf number).foldl noteCopy found).map fun entry =>
    (entry.1, noteGone (journal.copiesOf number) entry.1 entry.2)

def pastFound (blocks : List ℕ) : List (NameKey × PastName) := blocks.foldl (noteBlock journal) []

/-- The times of the last loop; transaction 0 is no `gone_seq` to it. -/
def noteTimes (item : PastName) : PastName :=
  { item with
    lastSeen := item.lastSeq.bind (Dict.get journal.commitTimes)
    goneBy := item.goneSeq.bind fun gone =>
      if gone = 0 then none else Dict.get journal.commitTimes gone }

def pastNames (blocks : List ℕ) : List (NameKey × PastName) :=
  (pastFound journal blocks).map fun entry => (entry.1, noteTimes journal entry.2)

/-! ### What is promised -/

/-- A record whose `gone_seq` is a copy of one of the blocks that does not list the name, behind
a copy of that block which does, and behind `last_seq`. -/
structure TrulyGone (blocks : List ℕ) (key : NameKey) (item : PastName) : Prop where
  behind : ∀ gone ∈ item.goneSeq, ∀ last ∈ item.lastSeq, last < gone
  block : ∀ gone ∈ item.goneSeq, ∃ number ∈ blocks,
    ∃ copy ∈ journal.copiesOf number, copy.seq = gone ∧ key ∉ liveKeys copy ∧
      ∃ before ∈ journal.copiesOf number, before.seq < gone ∧ key ∈ liveKeys before

/-- Whatever the order of the blocks, the records are the same, and each is truly gone. -/
def WellOrdered (blocks : List ℕ) : Prop :=
  ∀ order : List ℕ, order.Perm blocks → (pastNames journal order).Perm (pastNames journal blocks) ∧
      ∀ entry ∈ pastNames journal order, TrulyGone journal order entry.1 entry.2

/-- The entries for a name in the copies of a block, with their transactions. -/
def rowsOf (key : NameKey) (number : ℕ) : List (ℕ × DirEntry) :=
  (journal.copiesOf number).flatMap fun copy =>
    (copy.entries.filter fun entry => entry.key = key).map fun entry => (copy.seq, entry)

/-- The transactions in which a block listed a name. -/
def listed (key : NameKey) (number : ℕ) : List ℕ :=
  ((rowsOf journal key number).filter fun row => row.2.isLive).map Prod.fst

/-- The transactions in which a block did not. -/
def unlisted (key : NameKey) (number : ℕ) : List ℕ :=
  ((journal.copiesOf number).filter fun copy => key ∉ liveKeys copy).map DirCopy.seq

/-- The first entries for the name, block by block, have one kind. -/
def SameKind (blocks : List ℕ) (key : NameKey) : Prop :=
  ∀ a ∈ blocks, ∀ b ∈ blocks, ∀ row ∈ (rowsOf journal key a).head?,
    ∀ row' ∈ (rowsOf journal key b).head?, nameKind row.2.fileType = nameKind row'.2.fileType

/-! ### Notes, name by name -/

/-- The least or the greatest of some numbers and one more. -/
theorem min?_concat (seqs : List ℕ) (seq : ℕ) :
    (seqs ++ [seq]).min? = noteSeq min seqs.min? seq := by
  cases seqs with
  | nil => rfl
  | cons first seqs =>
    rw [List.cons_append, List.min?_cons', List.min?_cons', List.foldl_append]
    rfl

theorem max?_concat (seqs : List ℕ) (seq : ℕ) :
    (seqs ++ [seq]).max? = noteSeq max seqs.max? seq := by
  cases seqs with
  | nil => rfl
  | cons first seqs =>
    rw [List.cons_append, List.max?_cons', List.max?_cons', List.foldl_append]
    rfl

def liveSeqs (rows : List (ℕ × DirEntry)) : List ℕ :=
  (rows.filter fun row => row.2.isLive).map Prod.fst

/-- What the rows of a name and the last answer to when it was gone make of its record. -/
def record (rows : List (ℕ × DirEntry)) (gone : Option ℕ) : Option PastName :=
  rows.head?.map fun row =>
    { newName row.2 with
      firstSeq := (liveSeqs rows).min?
      lastSeq := (liveSeqs rows).max?
      goneSeq := gone }

/-- What one more row makes of what is known of its name. -/
def noteItem (item : Option PastName) (row : ℕ × DirEntry) : Option PastName :=
  some (noteLive row.1 row.2 (item.getD (newName row.2)))

variable {rows : List (ℕ × DirEntry)}

theorem noteItem_record {gone : Option ℕ} (h : rows = [] → gone = none)
    (row : ℕ × DirEntry) : noteItem (record rows gone) row = record (rows ++ [row]) gone := by
  obtain ⟨seq, entry⟩ := row
  have hlive : liveSeqs (rows ++ [(seq, entry)]) =
      liveSeqs rows ++ if entry.isLive then [seq] else [] := by
    rw [liveSeqs, List.filter_append, List.map_append, List.filter_singleton]
    cases entry.isLive
    · rfl
    · rfl
  rw [record, record, hlive]
  cases hentry : entry.isLive with
  | false =>
    cases rows with
    | nil => simp [noteItem, noteLive, hentry, newName, liveSeqs, h]
    | cons first rows => simp [noteItem, noteLive, hentry]
  | true =>
    rw [if_pos rfl, min?_concat, max?_concat]
    cases rows with
    | nil => simp [noteItem, noteLive, hentry, newName, liveSeqs, h]
    | cons first rows => simp [noteItem, noteLive, hentry]

theorem foldl_noteItem {gone : Option ℕ} (h : rows = [] → gone = none)
    (more : List (ℕ × DirEntry)) :
    more.foldl noteItem (record rows gone) = record (rows ++ more) gone := by
  induction more generalizing rows with
  | nil => rw [List.append_nil, List.foldl_nil]
  | cons row more ih =>
    rw [List.foldl_cons, noteItem_record h, ih fun hnil => by simp at hnil, List.append_assoc,
      List.singleton_append]

/-- An entry changes what is known of its own name only. -/
theorem get_noteEntry (found : List (NameKey × PastName)) (seq : ℕ) (entry : DirEntry)
    (key : NameKey) : Dict.get (noteEntry seq found entry) key =
      if entry.key = key then noteItem (Dict.get found key) (seq, entry)
      else Dict.get found key := by
  rw [noteEntry, Dict.get_set]
  by_cases h : entry.key = key
  · rw [if_pos h, if_pos h, h]
    rfl
  · rw [if_neg h, if_neg h]

theorem get_noteCopy (found : List (NameKey × PastName)) (copy : DirCopy) (key : NameKey) :
    Dict.get (noteCopy found copy) key =
      ((copy.entries.filter fun entry => entry.key = key).map fun entry =>
        (copy.seq, entry)).foldl noteItem (Dict.get found key) := by
  rw [noteCopy]
  generalize copy.entries = entries
  induction entries generalizing found with
  | nil => rfl
  | cons entry entries ih =>
    rw [List.foldl_cons, ih, get_noteEntry]
    by_cases h : entry.key = key
    · simp [h]
    · simp [h]

theorem get_noteCopies (found : List (NameKey × PastName)) (number : ℕ) (key : NameKey) :
    Dict.get ((journal.copiesOf number).foldl noteCopy found) key =
      (rowsOf journal key number).foldl noteItem (Dict.get found key) := by
  rw [rowsOf, List.foldl_flatMap]
  generalize journal.copiesOf number = copies
  induction copies generalizing found with
  | nil => rfl
  | cons copy copies ih => rw [List.foldl_cons, ih, get_noteCopy, List.foldl_cons]

theorem get_noteBlock (found : List (NameKey × PastName)) (number : ℕ) (key : NameKey) :
    Dict.get (noteBlock journal found number) key =
      ((rowsOf journal key number).foldl noteItem (Dict.get found key)).map
        (noteGone (journal.copiesOf number) key) := by
  rw [noteBlock, Dict.get_map, get_noteCopies]

/-! ### The run of a name over the blocks -/

theorem sightings_listed (key : NameKey) (blocks : List ℕ) :
    sightings (listed journal key) blocks = liveSeqs (blocks.flatMap (rowsOf journal key)) := by
  rw [liveSeqs, List.filter_flatMap, List.map_flatMap]
  rfl

/-- The question of a block is that of `missedSince`. -/
theorem later_eq (key : NameKey) (number last : ℕ) : later (journal.copiesOf number) key last =
      (unlisted journal key number).filter fun seq => last < seq := by
  rw [later, unlisted, List.filter_map, List.filter_filter]
  refine congrArg _ (List.filter_congr fun copy _ => ?_)
  rw [Bool.decide_and]
  rfl

theorem noteGone_record (key : NameKey) (number : ℕ) (rows : List (ℕ × DirEntry))
    (gone : Option ℕ) :
    (record rows gone).map (noteGone (journal.copiesOf number) key) =
      record rows ((missedSince (unlisted journal key) number (liveSeqs rows)).or gone) := by
  rw [record, record, Option.map_map, missedSince]
  simp only [← later_eq]
  rfl

/-- When a name is gone, over the blocks in their order. -/
def goneRun (key : NameKey) (blocks : List ℕ) : Option ℕ :=
  missedRun (listed journal key) (unlisted journal key) [] none blocks

theorem goneRun_concat (key : NameKey) (blocks : List ℕ) (number : ℕ) :
    goneRun journal key (blocks ++ [number]) = (missedSince (unlisted journal key) number
        (liveSeqs ((blocks ++ [number]).flatMap (rowsOf journal key)))).or
        (goneRun journal key blocks) := by
  rw [goneRun, missedRun_append, List.nil_append, missedRun, missedRun, ← sightings_listed,
    sightings_append, show sightings (listed journal key) [number] = listed journal key number from
      List.append_nil _]
  rfl

theorem goneRun_unseen {key : NameKey} {blocks : List ℕ}
    (h : blocks.flatMap (rowsOf journal key) = []) : goneRun journal key blocks = none := by
  refine missedRun_unseen ?_
  rw [sightings_listed, h]
  rfl

/-- Behind some blocks a name has the record of its rows and of its run. -/
theorem get_pastFound (key : NameKey) (blocks : List ℕ) : Dict.get (pastFound journal blocks) key =
      record (blocks.flatMap (rowsOf journal key)) (goneRun journal key blocks) := by
  induction blocks using List.reverseRecOn with
  | nil => rfl
  | append_singleton blocks number ih =>
    rw [pastFound] at ih
    rw [pastFound, List.foldl_append, List.foldl_cons, List.foldl_nil, get_noteBlock, ih,
      foldl_noteItem (goneRun_unseen journal), noteGone_record, goneRun_concat]
    rw [List.flatMap_append, List.flatMap_singleton]

theorem get_pastNames (key : NameKey) (blocks : List ℕ) : Dict.get (pastNames journal blocks) key =
      (record (blocks.flatMap (rowsOf journal key)) (goneRun journal key blocks)).map
        (noteTimes journal) := by
  rw [pastNames, Dict.get_map fun _ item => noteTimes journal item, get_pastFound]

theorem nodup_keys_noteCopies (copies : List DirCopy) {found : List (NameKey × PastName)}
    (h : (found.map Prod.fst).Nodup) : ((copies.foldl noteCopy found).map Prod.fst).Nodup := by
  have hcopy : ∀ (seq : ℕ) (entries : List DirEntry) (found : List (NameKey × PastName)),
      (found.map Prod.fst).Nodup → ((entries.foldl (noteEntry seq) found).map Prod.fst).Nodup := by
    intro seq entries
    induction entries with
    | nil => exact fun _ h => h
    | cons entry entries ih => exact fun found h => ih _ (Dict.nodup_keys_set _ _ h)
  induction copies generalizing found with
  | nil => exact h
  | cons copy copies ih => exact ih (hcopy copy.seq copy.entries found h)

theorem keys_map (found : List (NameKey × PastName)) (f : NameKey → PastName → PastName) :
    (found.map fun entry => (entry.1, f entry.1 entry.2)).map Prod.fst = found.map Prod.fst := by
  rw [List.map_map]
  rfl

theorem nodup_keys_pastNames (blocks : List ℕ) :
    ((pastNames journal blocks).map Prod.fst).Nodup := by
  rw [pastNames, keys_map _ fun _ item => noteTimes journal item]
  induction blocks using List.reverseRecOn with
  | nil => exact List.nodup_nil
  | append_singleton blocks number ih =>
    rw [pastFound] at ih
    rw [pastFound, List.foldl_append, List.foldl_cons, List.foldl_nil, noteBlock, keys_map]
    exact nodup_keys_noteCopies _ ih

/-! ### One name in two orders -/

theorem min?_perm {seqs others : List ℕ} (h : seqs.Perm others) : seqs.min? = others.min? := by
  refine Option.ext fun seq => ?_
  rw [List.min?_eq_some_iff, List.min?_eq_some_iff, h.mem_iff]
  simp only [h.mem_iff]

theorem max?_perm {seqs others : List ℕ} (h : seqs.Perm others) : seqs.max? = others.max? := by
  refine Option.ext fun seq => ?_
  rw [List.max?_eq_some_iff, List.max?_eq_some_iff, h.mem_iff]
  simp only [h.mem_iff]

def firstKind (rows : List (ℕ × DirEntry)) : Option NameKind :=
  rows.head?.map fun row => nameKind row.2.fileType

theorem key_of_mem_rows {key : NameKey} {blocks : List ℕ} {row : ℕ × DirEntry}
    (h : row ∈ blocks.flatMap (rowsOf journal key)) : row.2.key = key := by
  obtain ⟨number, -, hrow⟩ := List.mem_flatMap.mp h
  obtain ⟨copy, -, hrow⟩ := List.mem_flatMap.mp hrow
  obtain ⟨entry, hentry, rfl⟩ := List.mem_map.mp hrow
  exact of_decide_eq_true (List.mem_filter.mp hentry).2

section Orders

variable {journal} {key : NameKey} {blocks order : List ℕ}

theorem record_perm {rows others : List (ℕ × DirEntry)} {gone : Option ℕ}
    (hkey : ∀ row ∈ rows, row.2.key = key) (hperm : others.Perm rows)
    (hkind : firstKind others = firstKind rows) : record others gone = record rows gone := by
  have hlive : (liveSeqs others).Perm (liveSeqs rows) := (hperm.filter _).map _
  rw [record, record, min?_perm hlive, max?_perm hlive]
  rw [firstKind, firstKind] at hkind
  rcases hrows : rows with - | ⟨row, tail⟩
  · rw [hrows] at hperm
    rw [hperm.eq_nil]
  · rcases hothers : others with - | ⟨other, tail'⟩
    · rw [hrows, hothers] at hperm
      exact absurd hperm.symm.eq_nil (List.cons_ne_nil _ _)
    · rw [hrows, hothers] at hkind
      have hrow := hkey row (hrows ▸ List.mem_cons_self)
      have hother := hkey other (hperm.mem_iff.mp (hothers ▸ List.mem_cons_self))
      rw [← hrow, DirEntry.key, DirEntry.key, Prod.mk.injEq] at hother
      have hkind : nameKind other.2.fileType = nameKind row.2.fileType := Option.some.inj hkind
      simp [newName, hother.1, hother.2, hkind]

/-- A record tells the kind of its first row and when its name was gone. -/
theorem of_record {rows : List (ℕ × DirEntry)} {gone : Option ℕ} {item : PastName}
    (h : (record rows gone).map (noteTimes journal) = some item) :
    firstKind rows = some item.kind ∧ item.lastSeq = (liveSeqs rows).max? ∧
      item.goneSeq = gone := by
  rw [record, Option.map_map, Option.map_eq_some_iff] at h
  obtain ⟨row, hrow, rfl⟩ := h
  rw [firstKind, hrow]
  exact ⟨rfl, rfl, rfl⟩

theorem mem_listed {number seq : ℕ} : seq ∈ listed journal key number ↔
    ∃ copy ∈ journal.copiesOf number, copy.seq = seq ∧ key ∈ liveKeys copy := by
  simp only [listed, rowsOf, liveKeys, List.mem_map, List.mem_filter, List.mem_flatMap,
    decide_eq_true_eq]
  constructor
  · rintro ⟨row, ⟨⟨copy, hcopy, entry, ⟨hentry, hkey⟩, rfl⟩, hlive⟩, rfl⟩
    exact ⟨copy, hcopy, rfl, entry, ⟨hentry, hlive⟩, hkey⟩
  · rintro ⟨copy, hcopy, rfl, entry, ⟨hentry, hlive⟩, hkey⟩
    exact ⟨(copy.seq, entry), ⟨⟨copy, hcopy, entry, ⟨hentry, hkey⟩, rfl⟩, hlive⟩, rfl⟩

theorem mem_unlisted {number seq : ℕ} : seq ∈ unlisted journal key number ↔
    ∃ copy ∈ journal.copiesOf number, copy.seq = seq ∧ key ∉ liveKeys copy := by
  simp only [unlisted, List.mem_map, List.mem_filter, decide_eq_true_eq]
  exact exists_congr fun copy => by rw [and_assoc, and_comm (a := key ∉ liveKeys copy)]

/-- To be truly gone is to be gone late. -/
theorem trulyGone_iff {item : PastName} (h : Dict.get (pastNames journal order) key = some item) :
    TrulyGone journal order key item ↔ ∀ gone, goneRun journal key order = some gone →
      Late (listed journal key) (unlisted journal key) order gone := by
  rw [get_pastNames] at h
  obtain ⟨-, hlast, hgone⟩ := of_record h
  rw [← sightings_listed] at hlast
  constructor
  · intro htruly gone hrun
    rw [← hgone] at hrun
    refine ⟨fun seq hseq => ?_, ?_⟩
    · obtain ⟨last, hmax⟩ := Option.isSome_iff_exists.mp (List.isSome_max?_of_mem hseq)
      have hle : seq ≤ last := (List.max?_eq_some_iff.mp hmax).2 seq hseq
      exact hle.trans_lt (htruly.behind gone hrun last (hlast.trans hmax))
    · obtain ⟨number, hnumber, copy, hcopy, hseq, hkey, before, hbefore, hlt, hlisted⟩ :=
        htruly.block gone hrun
      exact ⟨number, hnumber, mem_unlisted.mpr ⟨copy, hcopy, hseq, hkey⟩, before.seq,
        mem_listed.mpr ⟨before, hbefore, rfl, hlisted⟩, hlt⟩
  · intro hlate
    refine ⟨fun gone hrun last hmax => ?_, fun gone hrun => ?_⟩
    · rw [hgone] at hrun
      rw [hlast] at hmax
      exact (hlate gone hrun).behind last (List.max?_eq_some_iff.mp hmax).1
    · rw [hgone] at hrun
      obtain ⟨number, hnumber, hunlisted, seq, hseq, hlt⟩ := (hlate gone hrun).source
      obtain ⟨copy, hcopy, hcopy_seq, hkey⟩ := mem_unlisted.mp hunlisted
      obtain ⟨before, hbefore, rfl, hlisted⟩ := mem_listed.mp hseq
      exact ⟨number, hnumber, copy, hcopy, hcopy_seq, hkey, before, hbefore, hlt, hlisted⟩

theorem rows_perm (journal : NameJournal) (key : NameKey) (h : order.Perm blocks) :
    (order.flatMap (rowsOf journal key)).Perm (blocks.flatMap (rowsOf journal key)) :=
  h.flatMap_right _

/-- The first kind is the same in all orders exactly if it is the same in all blocks. -/
theorem sameKind_iff : SameKind journal blocks key ↔ ∀ order : List ℕ, order.Perm blocks →
    firstKind (order.flatMap (rowsOf journal key)) =
      firstKind (blocks.flatMap (rowsOf journal key)) := by
  constructor
  · intro hsame order horder
    have hperm := rows_perm journal key horder
    rw [firstKind, firstKind]
    rcases hhead : (order.flatMap (rowsOf journal key)).head? with - | row
    · rw [List.head?_eq_none_iff] at hhead
      rw [hhead] at hperm
      rw [hperm.symm.eq_nil]
      rfl
    · rcases hhead' : (blocks.flatMap (rowsOf journal key)).head? with - | row'
      · rw [List.head?_eq_none_iff] at hhead'
        rw [hhead'] at hperm
        rw [hperm.eq_nil] at hhead
        cases hhead
      · rw [List.head?_flatMap] at hhead hhead'
        obtain ⟨a, ha, hrow⟩ := List.exists_of_findSome?_eq_some hhead
        obtain ⟨b, hb, hrow'⟩ := List.exists_of_findSome?_eq_some hhead'
        exact congrArg some (hsame a (horder.mem_iff.mp ha) b hb row hrow row' hrow')
  · intro hkind a ha b hb row hrow row' hrow'
    -- A block that comes first gives the first row.
    have hfirst : ∀ a ∈ blocks, ∀ row ∈ (rowsOf journal key a).head?,
        firstKind (blocks.flatMap (rowsOf journal key)) = some (nameKind row.2.fileType) := by
      intro a ha row hrow
      rw [← hkind (a :: blocks.erase a) (List.perm_cons_erase ha).symm, firstKind,
        List.flatMap_cons, List.head?_append, Option.mem_def.mp hrow]
      rfl
    exact Option.some.inj ((hfirst a ha row hrow).symm.trans (hfirst b hb row' hrow'))

/-- Of one name: its records are the same and truly gone in all orders exactly if the first
kinds of the blocks are the same and the blocks agree on when it was gone. -/
theorem ordered_iff : (∀ order : List ℕ, order.Perm blocks →
      Dict.get (pastNames journal order) key = Dict.get (pastNames journal blocks) key ∧
        ∀ item, Dict.get (pastNames journal order) key = some item →
          TrulyGone journal order key item) ↔
    SameKind journal blocks key ∧ Agree (listed journal key) (unlisted journal key) blocks := by
  rw [sameKind_iff]
  constructor
  · intro h
    by_cases hrows : blocks.flatMap (rowsOf journal key) = []
    · refine ⟨fun order horder => ?_, agree_of_unseen ?_⟩
      · have hperm := rows_perm journal key horder
        rw [hrows] at hperm
        rw [hperm.eq_nil, hrows]
      · rw [sightings_listed, hrows]
        rfl
    · obtain ⟨item, hitem⟩ : ∃ item, Dict.get (pastNames journal blocks) key = some item := by
        obtain ⟨row, hrow⟩ := List.exists_mem_of_ne_nil _ hrows
        rw [get_pastNames, record, Option.map_map]
        rcases hhead : (blocks.flatMap (rowsOf journal key)).head? with - | first
        · rw [List.head?_eq_none_iff] at hhead
          exact absurd hhead hrows
        · exact ⟨_, rfl⟩
      have hitem' := hitem
      rw [get_pastNames] at hitem'
      refine ⟨fun order horder => ?_, fun order horder => ?_⟩
      · have hget := (h order horder).1.trans hitem
        rw [get_pastNames] at hget
        rw [(of_record hget).1, (of_record hitem').1]
      · have hget := (h order horder).1.trans hitem
        have hget' := hget
        rw [get_pastNames] at hget'
        refine ⟨(of_record hget').2.2.symm.trans (of_record hitem').2.2, ?_⟩
        exact (trulyGone_iff hget).mp ((h order horder).2 item hget)
  · rintro ⟨hkind, hagree⟩ order horder
    refine ⟨?_, fun item hitem => (trulyGone_iff hitem).mpr (hagree order horder).2⟩
    rw [get_pastNames, get_pastNames, show goneRun journal key order = goneRun journal key blocks
      from (hagree order horder).1]
    exact congrArg _ (record_perm (fun row => key_of_mem_rows journal)
      (rows_perm journal key horder) (hkind order horder))

end Orders

/-- **The names of the past are well ordered exactly if, for every name, the first rows of the
blocks have one kind, and the blocks are settled.** -/
theorem wellOrdered_iff (blocks : List ℕ) : WellOrdered journal blocks ↔
    ∀ key : NameKey, SameKind journal blocks key ∧
      Settled (listed journal key) (unlisted journal key) blocks := by
  simp only [← agree_iff, ← ordered_iff]
  constructor
  · intro h key order horder
    obtain ⟨hperm, htruly⟩ := h order horder
    refine ⟨(Dict.perm_iff_get (nodup_keys_pastNames journal order)
      (nodup_keys_pastNames journal blocks)).mp hperm key, fun item hitem => ?_⟩
    exact htruly (key, item) (Dict.mem_of_get hitem)
  · intro h order horder
    refine ⟨(Dict.perm_iff_get (nodup_keys_pastNames journal order)
      (nodup_keys_pastNames journal blocks)).mpr fun key => (h key order horder).1, ?_⟩
    intro entry hentry
    exact (h entry.1 order horder).2 entry.2
      (Dict.get_of_mem (nodup_keys_pastNames journal order) hentry)

/-! ### A block that never listed the name -/

/-- The name is listed by block 30 in transaction 5; block 31 holds another one in
transaction 6. -/
def twoBlocks : NameJournal where
  dirCopies := [(30, [⟨5, none, [⟨"secret", 12, 1, true⟩]⟩]),
    (31, [⟨6, none, [⟨"other", 13, 1, true⟩]⟩])]
  commitTimes := []

/-- Block 31 makes the name of block 30 gone, but only in one order of the two. -/
theorem twoBlocks_not_wellOrdered : ¬ WellOrdered twoBlocks [30, 31] := by
  intro h
  have hget := (Dict.perm_iff_get (nodup_keys_pastNames twoBlocks [31, 30])
    (nodup_keys_pastNames twoBlocks [30, 31])).mp (h [31, 30] (List.Perm.swap ..)).1 ("secret", 12)
  exact absurd hget (by decide)

end Kairon.Disk

/-
Kairon/Detections/MassEncryption.lean

Files encrypted in bulk (`services/mass_encryption.py`).

A data file that got one more extension is noted under its host and the
extension, in the dictionary of its path with its earliest record.  The files
of one host and extension are sorted in time and swept for bursts
(`Lib/Sweep.lean`).

A moment is what `datetime.fromisoformat` makes of a text; moments with and
without an offset do not compare, and the source lets that error out.  A
number of seconds is compared with a whole one, which the rounding of
`total_seconds` does not cross, so the model compares microseconds.

`Noted` is what the dictionaries hold after some of the events; `Earliest`
says the same of the events alone, in no order.
-/
import Kairon.Lib.Dict
import Kairon.Lib.Sweep
import Kairon.Linux.Privilege

namespace Kairon.Detections

open Search (Text strip PyDateTime PyError)
open Linux (orText sameLetter matchLiteral)
open Sweep

/-! ### Names -/

/-- `DATA_EXTENSIONS`. -/
def dataExtensions : List Text :=
  ["doc", "docx", "docm", "xls", "xlsx", "xlsm", "ppt", "pptx", "pdf", "txt", "rtf", "odt", "ods",
    "odp", "csv", "jpg", "jpeg", "png", "gif", "bmp", "tif", "tiff", "mp3", "mp4", "avi", "mov",
    "zip", "rar", "7z", "sql", "mdb", "accdb", "db", "sqlite", "pst", "ost", "xml", "json", "psd",
    "dwg", "vsd", "vsdx", "eml", "msg"].map String.toList

/-- `ROUTINE_APPENDED_EXTENSIONS`. -/
def routineAppendedExtensions : List Text :=
  ["lnk", "url", "tmp", "temp", "bak", "old", "orig", "part", "partial", "crdownload", "download",
    "opdownload", "ini", "log", "lock", "swp", "sav", "backup", "metadata", "thumb",
    "ds_store"].map String.toList

/-- What stands before the last `c` of a text and what after it. -/
def cutLast (c : Char) (s : Text) : Option (Text × Text) :=
  if c ∈ s then
    some (((s.reverse.dropWhile (· ≠ c)).drop 1).reverse, (s.reverse.takeWhile (· ≠ c)).reverse)
  else none

/-- `[a-z0-9_]` under `re.IGNORECASE`. -/
def isAppendedLetter (c : Char) : Bool :=
  "abcdefghijklmnopqrstuvwxyz0123456789_".toList.any fun p => sameLetter p c

/-- `_NAME.match(name)`: the stem, the data extension and what is appended.  The two
extensions have no point in them, so the last two points of the name are the ones of the
pattern; `.` is any character but the end of a line. -/
def matchName (name : Text) : Option (Text × Text × Text) := do
  let (named, appended) ← cutLast '.' name
  let (stem, data) ← cutLast '.' named
  if stem ≠ [] ∧ '\n' ∉ stem ∧ (dataExtensions.any fun p => matchLiteral p data = some data) ∧
      1 ≤ appended.length ∧ appended.length ≤ 16 ∧ appended.all isAppendedLetter then
    some (stem, data, appended)
  else none

section Names

variable (lower : Text → Text)

/-- `renamed_file`. -/
def renamedFile (name : Text) : Option (Text × Text) :=
  (matchName (strip name)).bind fun (stem, data, appended) =>
    if lower appended ∈ routineAppendedExtensions ∨ lower appended ∈ dataExtensions then none
    else some (stem ++ '.' :: data, lower appended)

end Names

/-! ### Events -/

/-- What the check reads of an indexed document. -/
structure FileEvent where
  fileName : Option Text
  filePath : Option Text
  hostName : Option Text
  timestamp : Option Text

/-- The name of the file, or the last part of its path. -/
def FileEvent.name (event : FileEvent) : Text :=
  orText (event.fileName.getD [])
    (let path := (event.filePath.getD []).map fun c => if c = '/' then '\\' else c
     ((cutLast '\\' path).map Prod.snd).getD path)

section Bursts

variable (lower : Text → Text) (fromIsoFormat : Text → Option PyDateTime)

def FileEvent.pathKey (event : FileEvent) : Text :=
  lower (orText (event.filePath.getD []) event.name)

/-- `_parse_time`; a missing value reads `None`. -/
def parseTime (value : Option Text) : Option PyDateTime :=
  fromIsoFormat ((value.getD "None".toList).flatMap fun c =>
    if c = 'Z' then "+00:00".toList else [c])

/-- The record of a renamed file: whose group and file it is of, and when. -/
structure Renamed where
  group : Text × Text
  path : Text
  moment : PyDateTime

def FileEvent.renamed (event : FileEvent) : Option Renamed := do
  let (_, appended) ← renamedFile lower event.name
  let moment ← parseTime fromIsoFormat event.timestamp
  some ⟨(event.hostName.getD [], appended), event.pathKey lower, moment⟩

/-! ### Groups -/

abbrev Held := PyDateTime × FileEvent

abbrev Files := List (Text × Held)

abbrev Groups := List ((Text × Text) × Files)

/-- `a < b`. -/
def isBefore (a b : PyDateTime) : Except PyError Bool :=
  if a.offset.isSome = b.offset.isSome then .ok (a.shifted < b.shifted) else .error .typeError

/-- The earliest record of each file: created, then read and written again. -/
def noteFile (files : Files) (r : Renamed) (event : FileEvent) : Except PyError Files :=
  match Dict.get files r.path with
  | none => .ok (Dict.set r.path (r.moment, event) files)
  | some held => do
      if ← isBefore r.moment held.1 then pure (Dict.set r.path (r.moment, event) files)
      else pure files

/-- The first loop of `find_bursts`. -/
def note (groups : Groups) (event : FileEvent) : Except PyError Groups :=
  match event.renamed lower fromIsoFormat with
  | none => .ok groups
  | some r => do
      let files ← noteFile ((Dict.get groups r.group).getD []) r event
      pure (Dict.set r.group files groups)

/-! ### Bursts -/

/-- `MIN_FILES`. -/
def minFiles : ℕ := 5

/-- `WINDOW_SECONDS`, in microseconds. -/
def windowMicros : ℤ := 600000000

structure Burst where
  host : Text
  extension : Text
  members : List FileEvent
  first : PyDateTime
  last : PyDateTime

def Held.time (held : Held) : ℤ := held.1.shifted

/-- `sorted(files.values())` by time: every file is compared with another one, so two
kinds of moments are an error. -/
def sortFiles (files : List Held) : Except PyError (List Held) :=
  if (files.any fun held => held.1.offset.isSome) && files.any fun held => held.1.offset.isNone then
    .error .typeError
  else .ok (files.insertionSort fun a b => Held.time a ≤ Held.time b)

/-- The burst of some members. -/
def burstOf (group : Text × Text) : List Held → Option Burst
  | [] => none
  | held :: rest => some
      { host := group.1
        extension := group.2
        members := (held :: rest).map Prod.snd
        first := held.1
        last := ((held :: rest).getLast (List.cons_ne_nil _ _)).1 }

/-- `find_bursts`. -/
def findBursts (events : List FileEvent) : Except PyError (List Burst) := do
  let groups ← events.foldlM (note lower fromIsoFormat) []
  let bursts ← groups.mapM fun entry => do
    let ordered ← sortFiles (entry.2.map Prod.snd)
    pure ((sweep Held.time windowMicros minFiles 0 ordered).filterMap (burstOf entry.1))
  pure bursts.flatten

end Bursts

example : renamedFile (List.map Char.toLower) "REPORT.PDF.LOCKED".toList =
    some ("REPORT.PDF".toList, "locked".toList) := by decide +kernel

end Kairon.Detections

/-
Kairon/Graph/Event.lean

The data of the disk process graph (`process_tree.py`): events, nodes and edges,
and what is read out of them.

An event is a JSON document; here it has the fields that the graph is built from,
each under its dotted name.  A text that is missing is empty, as the source takes
both for the same.  `str.lower`, `int`, the date parser of `dateutil` and
`PureWindowsPath` are parameters (`Platform`).
-/
import Mathlib
import Kairon.Core.WindowsPath
import Kairon.Search.Value

namespace Kairon.Graph

open Search (Text strip intStr)
open WindowsPath (normalizeForClassification)

/-! ### Events -/

/-- A value that should be a number: missing, a number, or a text. -/
inductive Raw
  | missing
  | int (n : ℤ)
  | text (t : Text)

/-- The truth value. -/
def Raw.truthy : Raw → Bool
  | .missing => false
  | .int n => n ≠ 0
  | .text t => t ≠ []

/-- `first or second`. -/
def Raw.orElse (first second : Raw) : Raw := if first.truthy then first else second

/-- `first or second` of texts. -/
def orText (first second : Text) : Text := if first = [] then second else first

/-- `first or second` of numbers. -/
def orInt (first second : Option ℤ) : Option ℤ :=
  if first = none ∨ first = some 0 then second else first

/-- `event["process"]`. -/
structure ProcessFields where
  entityId : Text := []
  guid : Text := []
  pid : Raw := .missing
  parentPid : Raw := .missing
  ppid : Raw := .missing
  name : Text := []
  path : Text := []
  commandLine : Text := []
  parentEntityId : Text := []
  parentName : Text := []

structure Event where
  id : Text := []
  eventId : Text := []
  searchDocId : Text := []
  opensearchId : Text := []
  stableEventId : Text := []
  timestamp : Text := []
  eventType : Text := []
  message : Text := []
  artifactType : Text := []
  artifactParser : Text := []
  hostName : Text := []
  windowsComputer : Text := []
  userName : Text := []
  userSid : Text := []
  process : ProcessFields := {}
  filePath : Text := []
  targetFilename : Text := []
  downloadTargetPath : Text := []
  bitsLocalPath : Text := []
  detectionPath : Text := []
  detectionResource : Text := []
  persistencePath : Text := []
  autorunsImagePath : Text := []
  destinationIp : Text := []
  destinationHostname : Text := []
  destinationPort : Text := []
  dnsQuestionName : Text := []
  dnsQuery : Text := []
  registryPath : Text := []
  registryKeyPath : Text := []
  riskScore : ℤ := 0
  suspiciousReasons : List Text := []
  dataQuality : List Text := []
  srumBytesSent : ℤ := 0

/-- `_is_process_start_event`. -/
def isProcessStartEvent (event : Event) : Bool :=
  event.eventType ∈ ["process_start", "process_creation", "sysmon_process_creation",
    "sysmon_process_created"].map String.toList || event.artifactType = "process".toList

/-! ### Nodes and edges -/

structure Node where
  id : Text
  entityId : Text := []
  pid : Option ℤ
  name : Text
  path : Text
  commandLine : Text
  user : Text
  sid : Text
  host : Text
  firstSeen : Text
  lastSeen : Text
  sourceType : Text := []
  sourceEventId : Text := []
  sourceEvents : List Text
  riskScore : ℤ
  riskReasons : List Text
  badges : List Text
  dataQuality : List Text
  confidence : Text
  parentEntityId : Text := []
  parentPid : Option ℤ := none
  parentName : Text := []
  parentLinkStatus : Text := []
  parentLinkReason : Text := []
  parentLinkConfidence : Text := []
  nodeType : Text := []
  deriving DecidableEq, Inhabited

structure Edge where
  id : Text := []
  source : Text
  target : Text
  type : Text
  confidence : Text
  sourceEventId : Text
  timestamp : Text := []
  reason : Text
  summary : Text := []
  weight : ℕ := 0
  risk : ℤ := 0

structure Graph where
  nodes : List Node
  edges : List Edge

/-! ### Reading -/

structure Platform where
  /-- `str.lower`. -/
  lower : Text → Text
  /-- `int(text, base)`, where it does not raise. -/
  int : Text → ℕ → Option ℤ
  /-- `date_parser.parse`, as an instant; without an offset the time is in UTC. -/
  parse : Text → Option ℤ
  /-- `PureWindowsPath(text).name`. -/
  baseName : Text → Text

variable (plat : Platform)

/-- `_safe_parse_dt`. -/
def safeParseDt (value : Text) : Option ℤ :=
  if strip value = [] then none else plat.parse (strip value)

/-- `_safe_intish`. -/
def safeIntish : Raw → Option ℤ
  | .missing => none
  | .int n => some n
  | .text t =>
    if t = [] then none
    else if "0x".toList <+: plat.lower (strip t) then plat.int (plat.lower (strip t)) 16
    else plat.int (plat.lower (strip t)) 10

/-- `_safe_name_from_path`. -/
def safeNameFromPath (value : Text) : Option Text :=
  (normalizeForClassification (strip value)).map fun text => orText (plat.baseName text) text

/-- `list(dict.fromkeys(values))`. -/
def distinct (values : List Text) : List Text := values.eraseDups

/-- `_event_path_candidates`. -/
def eventPathCandidates (event : Event) : List Text :=
  distinct (([event.process.path, event.filePath, event.downloadTargetPath, event.bitsLocalPath,
    event.detectionPath, event.detectionResource, event.persistencePath,
    event.autorunsImagePath].filterMap fun value =>
      normalizeForClassification (strip value)).map plat.lower)

/-! ### The risk of a process -/

/-- Whether one of the words is in a text. -/
def containsAny (words : List String) (text : Text) : Bool :=
  words.any fun word => word.toList <:+: text

/-- Whether a text ends with one of the words. -/
def endsWithAny (words : List String) (text : Text) : Bool :=
  words.any fun word => word.toList <:+ text

/-- `_path_bucket_reason`. -/
def pathBucketReason (path : Text) : List Text :=
  let lowered := plat.lower path
  (if containsAny ["\\users\\", "\\appdata\\", "\\temp\\", "\\downloads\\", "\\desktop\\",
    "\\startup\\", "\\public\\"] lowered then ["Process from user-writable path".toList] else []) ++
  (if containsAny ["\\temp\\"] lowered then ["Process from Temp".toList] else []) ++
  if containsAny ["\\downloads\\"] lowered then ["Process from Downloads".toList] else []

/-- `_double_extension`. -/
def doubleExtension (path : Text) : Bool :=
  match safeNameFromPath plat path with
  | none => false
  | some name =>
    match ((plat.lower name).splitOn '.').reverse with
    | last :: before :: _ :: _ =>
      last ∈ ["exe", "scr", "ps1", "bat", "cmd", "js", "vbs", "hta"].map String.toList &&
        before ∈ ["pdf", "doc", "docx", "xls", "xlsx", "txt", "jpg", "png"].map String.toList
    | _ => false

/-- `_is_program_files_path`. -/
def isProgramFilesPath (path : Text) : Bool :=
  "c:\\program files\\".toList <+: plat.lower path ||
    "c:\\program files (x86)\\".toList <+: plat.lower path

def browserNames : List Text :=
  ["chrome.exe", "msedge.exe", "brave.exe", "firefox.exe"].map String.toList

/-- `_is_browser_internal_child`. -/
def isBrowserInternalChild (parentName childName childPath : Text) : Bool :=
  let parent := strip (plat.lower parentName)
  let child := strip (plat.lower childName)
  parent ∈ browserNames && child ∈ "identity_helper.exe".toList :: browserNames &&
    child ∈ [parent, "identity_helper.exe".toList] && isProgramFilesPath plat childPath

/-- What is found about a process: its score, the reasons and the badges. -/
structure Risk where
  score : ℤ
  reasons : List Text := []
  badges : List Text := []

/-- A finding that is added where a condition holds. -/
def Risk.note (risk : Risk) (cond : Bool) (score : ℤ) (reason badge : Option String) : Risk :=
  if cond then
    { score := max risk.score score
      reasons := risk.reasons ++ (reason.map String.toList).toList
      badges := risk.badges ++ (badge.map String.toList).toList }
  else risk

/-- `_process_badges_and_risk`. -/
def processBadgesAndRisk (node : Node) : Risk :=
  let name := plat.lower node.name
  let commandLine := plat.lower node.commandLine
  let start : Risk := { score := node.riskScore }
  let risk := ((((start.note (containsAny ["powershell"] name) node.riskScore none
      (some "powershell")).note
      (containsAny ["powershell.exe", "pwsh.exe"] name && containsAny ["-encodedcommand"] commandLine
        || containsAny [" -enc "] commandLine) 95
      (some "Process uses encoded PowerShell") (some "encoded_command")).note
      (containsAny ["executionpolicy bypass", " -ep bypass"] commandLine) 90
      (some "Process uses execution policy bypass") none).note
      (containsAny ["windowstyle hidden", " -w hidden"] commandLine) 90
      (some "Process hidden window") none).note
      (containsAny ["powershell.exe", "pwsh.exe", "cmd.exe", "wscript.exe", "cscript.exe",
        "mshta.exe", "rundll32.exe", "regsvr32.exe", "certutil.exe", "bitsadmin.exe", "curl.exe",
        "wget.exe"] name) node.riskScore none (some "lolbin")
  let risk := { risk with reasons := risk.reasons ++ pathBucketReason plat node.path }
  let risk := (risk.note (containsAny ["\\startup\\"] (plat.lower node.path)) node.riskScore
      (some "MFT file in Startup folder") none).note (doubleExtension plat node.path) 80
      (some "Process has double extension") none
  let placed := risk.reasons.any fun reason => reason ∈ ["Process from user-writable path",
    "Process from Temp", "Process from Downloads"].map String.toList
  let risk := risk.note placed
    (if endsWithAny [".exe", ".ps1", ".bat", ".cmd"] name then 70 else 50) none none
  { score := min risk.score 100
    reasons := distinct risk.reasons
    badges := distinct risk.badges }

end Kairon.Graph

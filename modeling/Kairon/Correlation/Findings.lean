/-
Kairon/Correlation/Findings.lean

`_generate_findings` (`correlation_engine.py`): a dozen correlations over the
events of a run and over the process graph.

Each correlation of the source is a rule: a function of all the events and of
its trigger (an event, a node or an edge of the graph) that makes its findings.
A finding keeps what it says about the events: its type, the events it relates,
reasons, confidence and risk score.  Titles, tags, related files and the other
texts of `_base_finding` are left out.

Times are in microseconds.  `str.lower` and `str.isdigit` are parameters.
-/
import Kairon.Host.Identity

namespace Kairon.Findings

open Search (Text strip)
open Identity (normalizeHostAlias rstripChar)

/-! ### Texts -/

/-- What is taken of Python's `str`. -/
structure Strings where
  lower : Text → Text
  isDigit : Char → Bool

/-- `needle in s`. -/
def contains (needle s : Text) : Bool := s.tails.any fun rest => needle.isPrefixOf rest

/-- The first value that is not empty, of `a or b or ..`. -/
def firstOf (values : List (Option Text)) : Option Text :=
  (values.filterMap id).find? fun value => value ≠ []

/-- `_normalize_text`. -/
def normalizeText (value : Option Text) : Text := strip (value.getD [])

def backslashes (s : Text) : Text := s.map fun c => if c = '/' then '\\' else c

/-- What `PureWindowsPath` takes off the front: a share, a root, or a drive. -/
def withoutRoot : Text → Text
  | '\\' :: '\\' :: rest =>
    let path := '\\' :: '\\' :: rest
    let body :=
      if (path.take 8).map Char.toUpper = "\\\\?\\UNC\\".toList then path.drop 8 else rest
    let share := (body.dropWhile (· ≠ '\\')).drop 1
    (share.dropWhile (· ≠ '\\')).drop 1
  | '\\' :: rest => rest
  | _ :: ':' :: '\\' :: rest => rest
  | _ :: ':' :: rest => rest
  | rest => rest

/-- `PureWindowsPath(s).name`. -/
def windowsName (s : Text) : Text :=
  (((withoutRoot (backslashes s)).splitOn '\\').filter fun part =>
    part ≠ [] ∧ part ≠ ['.']).getLast?.getD []

/-- `PureWindowsPath(s).suffix`. -/
def windowsSuffix (s : Text) : Text :=
  let name := windowsName s
  let last := (name.reverse.takeWhile (· ≠ '.')).reverse
  if last ≠ [] ∧ last.length + 1 < name.length then '.' :: last else []

section

variable (str : Strings)

/-- `_normalize_path`. -/
def normalizePath (value : Option Text) : Text := str.lower (backslashes (normalizeText value))

/-- `_file_name`. -/
def fileName (value : Option Text) : Text := str.lower (windowsName (normalizeText value))

/-- `_extension`. -/
def extension (value : Option Text) : Text := str.lower (windowsSuffix (normalizeText value))

/-- `_match_paths`: the paths are the same, or only their file names. -/
def matchPaths (left right : Option Text) : Bool × Bool :=
  let leftNorm := normalizePath str left
  let leftName := fileName str left
  if leftNorm ≠ [] ∧ leftNorm = normalizePath str right then (true, false)
  else if leftName ≠ [] ∧ leftName = fileName str right then (false, true)
  else (false, false)

/-- The paths match in either way. -/
def pathsMatch (left right : Option Text) : Bool :=
  (matchPaths str left right).1 || (matchPaths str left right).2

def texts (values : List String) : List Text := values.map String.toList

def suspiciousProcessNames : List Text :=
  texts ["powershell.exe", "pwsh.exe", "cmd.exe", "wscript.exe", "cscript.exe", "mshta.exe",
    "rundll32.exe", "regsvr32.exe", "certutil.exe", "bitsadmin.exe", "curl.exe", "wget.exe"]

def officeProcessNames : List Text :=
  texts ["winword.exe", "excel.exe", "powerpnt.exe", "outlook.exe", "msaccess.exe", "onenote.exe"]

def sensitiveKeywords : List Text :=
  texts ["password", "passwd", "secret", "credential", "token", "private", "backup", "wallet",
    "key", "dump", "database", "payroll", "invoice"]

def executableExtensions : List Text :=
  texts [".exe", ".dll", ".ps1", ".bat", ".cmd", ".vbs", ".js", ".hta", ".msi", ".scr"]

def archiveExtensions : List Text :=
  texts [".zip", ".rar", ".7z", ".iso", ".img", ".pst", ".ost", ".kdbx"]

def userWritableMarkers : List Text :=
  texts ["\\users\\", "\\appdata\\", "\\temp\\", "\\downloads\\", "\\desktop\\", "\\startup\\",
    "\\public\\"]

def criticalPersistence : List Text :=
  texts ["ifeo_debugger", "winlogon_shell", "winlogon_userinit", "appinit_dll", "lsa_package",
    "wmi", "scheduled_task"]

/-- `_is_user_writable`. -/
def isUserWritable (path : Option Text) : Bool :=
  userWritableMarkers.any fun marker => contains marker (normalizePath str path)

def hasSensitiveKeyword (filename : Text) : Bool :=
  sensitiveKeywords.any fun keyword => contains keyword filename

/-- `_looks_sensitive_path`. -/
def looksSensitivePath (path : Option Text) : Bool :=
  isUserWritable str path || hasSensitiveKeyword (fileName str path)

/-- `_is_suspicious_domain`. -/
def isSuspiciousDomain (domain : Text) : Bool :=
  let lowered := rstripChar '.' (str.lower (strip domain))
  let firstLabel := lowered.takeWhile (· ≠ '.')
  "xn--".toList.isPrefixOf lowered ||
  (texts ["duckdns", "no-ip", "ddns", "dyn", "ngrok", "pastebin", "raw", "payload", "invoice",
    "update", "installer", "crack", "keygen"]).any (fun token => contains token lowered) ||
  30 ≤ lowered.length ||
  (20 ≤ firstLabel.length && 4 ≤ (firstLabel.filter str.isDigit).length)

/-- `_downgrade_confidence_level`. -/
def downgradeConfidenceLevel (value : Text) : Text :=
  let normalized := str.lower value
  if normalized = "high".toList then "medium".toList
  else if normalized = "medium".toList then "low".toList
  else if normalized = [] then "low".toList
  else normalized

end

/-! ### Events, the graph and findings -/

/-- The field `host` of an event: a record, or a plain text. -/
inductive HostField
  | record (name canonical identityId id : Option Text)
  | plain (value : Text)
  | missing
  deriving DecidableEq

/-- An event, as far as the correlations read it; `time` is its parsed timestamp. -/
structure Event where
  id : Option Text
  evidenceId : Option Text
  host : HostField
  eventType : Text
  artifactType : Text
  category : Text
  severity : Text
  time : Option ℤ
  executionConfirmed : Bool
  riskScore : Option ℤ
  suspiciousReasons : List Text
  processName : Option Text
  processPath : Option Text
  processCommandLine : Option Text
  filePath : Option Text
  downloadTargetPath : Option Text
  detectionPath : Option Text
  detectionResource : Option Text
  cloudLocalPath : Option Text
  cloudRemotePath : Option Text
  cloudShared : Bool
  bitsLocalPath : Option Text
  bitsRemoteUrl : Option Text
  persistenceMechanism : Option Text
  persistencePath : Option Text
  persistenceCommand : Option Text
  autorunsCommandLine : Option Text
  autorunsImagePath : Option Text
  serviceImagePath : Option Text
  taskActionPath : Option Text
  wmiExecutablePath : Option Text
  dnsDomain : Option Text
  dnsName : Option Text
  srumApplication : Option Text
  srumBytesSent : Option ℤ
  networkBytesSent : Option ℤ
  windowsSearchIndexedPath : Option Text
  thumbnailSourcePath : Option Text
  officeDocumentPath : Option Text
  officeAlertText : Option Text
  notificationTitle : Option Text
  notificationBody : Option Text
  usbDeviceType : Text
  deriving DecidableEq

/-- A node of the process graph; `time` is `first_seen or last_seen`, parsed. -/
structure Node where
  id : Text
  name : Option Text
  commandLine : Option Text
  path : Option Text
  sourceEvents : List Text
  riskScore : Option ℤ
  riskReasons : List Text
  badges : List Text
  time : Option ℤ

structure Edge where
  source : Text
  target : Text
  confidence : Option Text

structure Graph where
  nodes : List Node
  edges : List Edge

inductive FindingType
  | downloadExecuteDetect
  | officePowershell
  | powershellNetwork
  | persistenceExecution
  | userExecutedSuspiciousCommand
  | trustedOfficeMacroDocument
  | userActivitySuspiciousProgram
  | downloadedExecutableOrigin
  | suspiciousFileDeletedOrRenamed
  | officeSecurityAlertDocument
  | suspiciousUiObservedFile
  | securityNotificationObserved
  | cloudExfilCandidate
  | usbExfilCandidate
  | executionCleanup
  | suspiciousProcessChain
  deriving DecidableEq

structure Finding where
  findingType : FindingType
  events : List Event
  reasons : List Text
  confidence : Text
  riskScore : ℤ
  deriving DecidableEq

/-- `list(dict.fromkeys(..))` of the values that are not empty. -/
def distinct (values : List Text) : List Text := (values.filter (· ≠ [])).eraseDups

/-- `_base_finding`. -/
def baseFinding (findingType : FindingType) (events : List Event) (reasons : List Text)
    (confidence : Text) (riskScore : ℤ) : Finding where
  findingType := findingType
  events := events
  reasons := distinct reasons
  confidence := confidence
  riskScore := riskScore

namespace Event

variable (e : Event)

def risk : ℤ := e.riskScore.getD 0

/-- `_extract_event_path`. -/
def path : Option Text :=
  firstOf [e.processPath, e.filePath, e.downloadTargetPath, e.detectionPath, e.detectionResource,
    e.cloudLocalPath, e.cloudRemotePath, e.bitsLocalPath, e.bitsRemoteUrl, e.persistencePath,
    e.persistenceCommand]

/-- `_extract_persistence_command`. -/
def command : Option Text :=
  firstOf [e.persistenceCommand, e.persistencePath, e.autorunsCommandLine, e.autorunsImagePath,
    e.serviceImagePath, e.taskActionPath, e.wmiExecutablePath]

/-- The host that `_same_host` reads: that of a record. -/
def recordHost : Text :=
  match e.host with
  | .record name canonical identityId id => (firstOf [name, canonical, identityId, id]).getD []
  | _ => []

end Event

/-- `_event_host`. -/
def eventHost (e : Event) : Text :=
  match e.host with
  | .plain value => value
  | _ => e.recordHost

section

variable (str : Strings)

/-- `_same_host_value`. -/
def sameHostValue (left right : Text) : Bool :=
  left ≠ [] && right ≠ [] && normalizeHostAlias str.lower left = normalizeHostAlias str.lower right

/-- `_same_host`. -/
def sameHost (left right : Event) : Bool := sameHostValue str left.recordHost right.recordHost

/-- `_same_machine`. -/
def sameMachine (left right : Event) : Bool :=
  if eventHost left ≠ [] ∧ eventHost right ≠ [] then
    sameHostValue str (eventHost left) (eventHost right)
  else left.evidenceId.getD [] ≠ [] && left.evidenceId.getD [] = right.evidenceId.getD []

/-! ### The events of a kind -/

/-- `_process_event`. -/
def processEvent (e : Event) : Bool := e.eventType = "process_start".toList && e.executionConfirmed

def downloadEvent (e : Event) : Bool :=
  e.eventType = "file_downloaded".toList && e.artifactType ∈ texts ["browser", "bits"]

def defenderEvent (e : Event) : Bool :=
  e.artifactType ∈ texts ["defender", "detection"] || contains "detection".toList e.category

def dnsEvent (e : Event) : Bool := e.artifactType = "dns".toList

def srumEvent (e : Event) : Bool := e.artifactType = "srum".toList

def persistenceEvent (e : Event) : Bool :=
  e.artifactType ∈ texts ["autorun", "scheduled_task", "service", "wmi"]

def cloudUpload (e : Event) : Bool := e.eventType = "cloud_upload".toList

def usbEvent (e : Event) : Bool :=
  e.artifactType = "usb".toList && contains "mass_storage".toList e.usbDeviceType

def deletionEvent (e : Event) : Bool :=
  e.eventType = "file_deleted".toList && e.artifactType ∈ texts ["recycle_bin", "mft"]

/-- `_prefetch_or_inventory_execution`. -/
def inventoryExecution (e : Event) : Bool :=
  e.artifactType ∈ texts ["prefetch", "amcache", "shimcache", "appcompat"] && e.path.isSome

def userActivityEvent (e : Event) : Bool := e.artifactType = "user_activity".toList

def ntfsEvent (e : Event) : Bool := str.lower e.artifactType = "ntfs".toList

def windowsUiEvent (e : Event) : Bool := str.lower e.artifactType = "windows_ui".toList

def hours (n : ℤ) : ℤ := n * 3600000000

/-- The second moment is known, and so long before or after the first. -/
def inWindow (first second : Option ℤ) (before after : ℤ) : Bool :=
  match first, second with
  | some a, some b => a - before ≤ b && b ≤ a + after
  | _, _ => false

def processes (events : List Event) : List Event := events.filter processEvent

def inventoryExec (events : List Event) : List Event := events.filter inventoryExecution

def defender (events : List Event) : List Event := events.filter defenderEvent

/-! ### Downloaded, executed, detected -/

/-- The processes that may have run a download, with how their paths match it. -/
def downloadCandidates (events : List Event) (download : Event) : List (Event × Bool × Bool) :=
  (processes events).filterMap fun process =>
    let paths := matchPaths str download.path process.path
    if inWindow download.time process.time 0 (hours 48) && sameHost str download process &&
        (paths.1 || paths.2) then some (process, paths)
    else none

/-- The detections of an executed file, with how their paths match it. -/
def matchedDefender (events : List Event) (process : Event) : List (Event × Bool × Bool) :=
  (defender events).filterMap fun detection =>
    let paths := matchPaths str process.path detection.path
    if inWindow process.time detection.time (hours 1) (hours 48) &&
        sameHost str process detection && (paths.1 || paths.2) then some (detection, paths)
    else none

def downloadExecuteDetect (download process detection : Event) (exact filenameOnly : Bool)
    (detExact detFilename : Bool) : Finding :=
  let filenameOnlyMatch := filenameOnly || detFilename
  let risk := max (max process.risk detection.risk) 75
  let risk :=
    if (texts ["\\temp\\", "\\appdata\\", "\\startup\\"]).any
        (fun marker => contains marker (normalizePath str download.path)) then max risk 92
    else risk
  let risk :=
    if str.lower detection.severity ∈ texts ["high", "critical"] then max risk 95 else risk
  let risk := if filenameOnlyMatch then min risk 60 else risk
  baseFinding .downloadExecuteDetect [download, process, detection]
    [ "Downloaded file later executed".toList, "Executed file later detected by Defender".toList,
      if exact then "Download path matched process path".toList
      else "Download filename matched process filename".toList,
      if detExact then "Defender detection matched executed file".toList
      else "Defender detection matched executed filename".toList ]
    (if exact && detExact then "high".toList
      else if filenameOnlyMatch then "medium".toList else "low".toList)
    (min risk 100)

/-- The findings of a download: of its first two processes, those that were detected. -/
def downloadRule (events : List Event) (download : Event) : List Finding :=
  ((downloadCandidates str events download).take 2).filterMap fun candidate =>
    (matchedDefender str events candidate.1).head?.map fun detection =>
      downloadExecuteDetect str download candidate.1 detection.1 candidate.2.1 candidate.2.2
        detection.2.1 detection.2.2

/-! ### The process graph -/

/-- The process events with an id of a list. -/
def eventsOf (events : List Event) (ids : List Text) : List Event :=
  (processes events).filter fun e => e.id.getD [] ∈ ids

/-- `node_map`: of several nodes with an id the last. -/
def Graph.node (graph : Graph) (id : Text) : Option Node :=
  graph.nodes.reverse.find? fun node => node.id = id

def Node.risk (node : Node) : ℤ := node.riskScore.getD 0

def Node.lowerName (node : Node) : Text := str.lower (normalizeText node.name)

def officeFinding (events : List Event) (edge : Edge) (parent child : Node) : Option Finding :=
  let childCmd := str.lower (normalizeText child.commandLine)
  let mentions := fun (marker : String) => contains marker.toList childCmd
  let reasons :=
    ["Office spawned script interpreter".toList] ++
    (if mentions "encoded" then ["Encoded PowerShell observed".toList] else []) ++
    (if mentions "executionpolicy bypass" || mentions " -ep bypass" ||
        mentions " -executionpolicy bypass" then ["Execution policy bypass observed".toList]
      else []) ++
    (if mentions "windowstyle hidden" || mentions "-w hidden" then
        ["Hidden PowerShell window observed".toList] else [])
  let risk := max child.risk 80
  let risk :=
    if child.badges.any fun badge => contains "network".toList badge || contains "dns".toList badge
    then max risk 95 else risk
  if parent.lowerName str ∈ officeProcessNames ∧ child.lowerName str ∈
      texts ["powershell.exe", "pwsh.exe", "cmd.exe", "wscript.exe", "mshta.exe"] then
    some (baseFinding .officePowershell
      (eventsOf events (parent.sourceEvents ++ child.sourceEvents)) reasons
      (if str.lower (edge.confidence.getD []) = "high".toList then "high".toList
        else "medium".toList)
      (min risk 100))
  else none

def chainFinding (events : List Event) (edge : Edge) (parent child : Node) : Option Finding :=
  let reasons := (child.riskReasons ++ (if child.lowerName str ∈ suspiciousProcessNames then
    ["LOLBins process chain".toList] else [])).eraseDups
  let reasons := reasons ++
    (if parent.lowerName str ∈ texts ["chrome.exe", "msedge.exe", "firefox.exe"] ∧
        extension str child.path ∈ executableExtensions then
      ["Browser spawned executable".toList] else [])
  let nodeEvents := eventsOf events (parent.sourceEvents ++ child.sourceEvents)
  let confidence := str.lower ((firstOf [edge.confidence]).getD "medium".toList)
  if child.risk < 70 then none
  else
    some (baseFinding .suspiciousProcessChain nodeEvents
      (if reasons = [] then ["Suspicious process chain observed".toList] else reasons)
      (if nodeEvents = [] then downgradeConfidenceLevel str confidence else confidence)
      (min (max (max parent.risk child.risk) (if nodeEvents = [] then 55 else 70)) 100))

/-- A rule about the two nodes of an edge; an edge to an unknown node has no finding. -/
def edgeRule (finding : List Event → Edge → Node → Node → Option Finding) (graph : Graph)
    (events : List Event) (edge : Edge) : Option Finding :=
  match graph.node edge.source, graph.node edge.target with
  | some parent, some child => finding events edge parent child
  | _, _ => none

def officeRule : Graph → List Event → Edge → Option Finding := edgeRule (officeFinding str)

def chainRule : Graph → List Event → Edge → Option Finding := edgeRule (chainFinding str)

def isPowershell (name : Text) : Bool := name ∈ texts ["powershell.exe", "pwsh.exe"]

def suspiciousPowershell (node : Node) : Bool := isPowershell (node.lowerName str) && 70 ≤ node.risk

/-- The host of a node: that of its first process event. -/
def nodeHost (own : List Event) : Text := (own.head?.map eventHost).getD []

/-- An event is of the node's host; a node without one takes any event. -/
def ofNodeHost (host : Text) (e : Event) : Bool :=
  host = [] || sameHostValue str host (eventHost e)

/-- The domain of a DNS event. -/
def domainOf (e : Event) : Text :=
  str.lower (normalizeText (firstOf [e.dnsDomain, e.dnsName]))

/-- The DNS events that are related to a node. -/
def relatedDns (events : List Event) (host : Text) (node : Node) : List Event :=
  (events.filter dnsEvent).filter fun e =>
    inWindow node.time e.time (hours 1 / 2) (hours 1 / 2) && ofNodeHost str host e &&
      (isPowershell (str.lower (normalizeText e.processName)) ||
        isSuspiciousDomain str (domainOf str e))

/-- `srum.bytes_sent or network.bytes_sent or 0`. -/
def outboundBytes (e : Event) : ℤ :=
  if e.srumBytesSent.getD 0 ≠ 0 then e.srumBytesSent.getD 0 else e.networkBytesSent.getD 0

/-- The SRUM events that are related to a node. -/
def relatedSrum (events : List Event) (host : Text) (node : Node) : List Event :=
  (events.filter srumEvent).filter fun e =>
    inWindow node.time e.time (hours 2) (hours 2) && ofNodeHost str host e &&
      isPowershell (str.lower (normalizeText (firstOf [e.srumApplication, e.processName]))) &&
      1000000 ≤ outboundBytes e

/-- The finding about a node with its own, the related DNS and the related SRUM events. -/
def powershellFinding (node : Node) (own dns srum : List Event) : Option Finding :=
  if dns = [] ∧ srum = [] then none
  else
    some (baseFinding .powershellNetwork (own ++ dns.take 2 ++ srum.take 2)
      (["Suspicious PowerShell with network activity".toList] ++
        (if dns = [] then [] else ["PowerShell resolved suspicious domain".toList]) ++
        (if srum = [] then [] else ["PowerShell high outbound bytes".toList]))
      (if dns ≠ [] ∧ srum ≠ [] then "high".toList else "medium".toList)
      (min (max node.risk (if dns = [] then 65 else 75)) 100))

def powershellRule (events : List Event) (node : Node) : Option Finding :=
  let own := eventsOf events node.sourceEvents
  powershellFinding node own (relatedDns str events (nodeHost own) node)
    (relatedSrum str events (nodeHost own) node)

/-! ### Persistence -/

/-- `persistence.mechanism`, or the artifact type. -/
def mechanismOf (e : Event) : Text :=
  let mechanism := str.lower (normalizeText e.persistenceMechanism)
  if mechanism = [] then e.artifactType else mechanism

def persistenceMatches (events : List Event) (persistence : Event) : List Event :=
  (processes events).filter fun process =>
    inWindow persistence.time process.time 0 (hours 168) && sameHost str persistence process &&
      pathsMatch str persistence.command process.path

def supportingInventory (events : List Event) (persistence : Event) : List Event :=
  (inventoryExec events).filter fun e =>
    sameMachine str persistence e && pathsMatch str persistence.command e.path

def persistenceFinding (persistence : Event) (found supporting : List Event) : Option Finding :=
  let mechanism := mechanismOf str persistence
  let critical : Bool := mechanism ∈ criticalPersistence
  let exact := (found.head?.map fun process =>
    (matchPaths str persistence.command process.path).1).getD false
  if found = [] ∧ supporting = [] then none
  else
    some (baseFinding .persistenceExecution
      ([persistence] ++ found.take 1 ++ supporting.take 1)
      ([if found = [] then "Persistence command matched execution artifact".toList
        else "Persistence entry matched later process execution".toList] ++
        (if critical then ["Critical persistence mechanism observed".toList] else []))
      (if exact then "high".toList else if found = [] then "low".toList else "medium".toList)
      (if found = [] then (if critical then 70 else 45) else (if critical then 85 else 65)))

def persistenceRule (events : List Event) (persistence : Event) : Option Finding :=
  persistenceFinding str persistence (persistenceMatches str events persistence)
    (supportingInventory str events persistence)

/-! ### Findings about one event -/

/-- The reasons of an event, or else one for its finding. -/
def reasonsOr (e : Event) (fallback : String) : List Text :=
  let reasons := distinct e.suspiciousReasons
  if reasons = [] then [fallback.toList] else reasons

def documentExtensions : List Text := texts [".docm", ".xlsm", ".pptm", ".xlam"]

def userActivityRule (e : Event) : Option Finding :=
  let commandLine := normalizeText e.processCommandLine
  let processPath := normalizeText (firstOf [e.processPath, e.filePath])
  let filePath := normalizeText e.filePath
  if e.eventType = "user_run_command_observed".toList ∧ 70 ≤ e.risk ∧ commandLine ≠ [] then
    some (baseFinding .userExecutedSuspiciousCommand [e]
      (reasonsOr e "Suspicious Run dialog command observed")
      (if (texts ["encodedcommand", "-enc", "mshta", "rundll32", "regsvr32", "certutil"]).any
          (fun token => contains token (str.lower commandLine)) then "high".toList
        else "medium".toList)
      (min (max e.risk 75) 100))
  else if e.eventType = "office_document_trusted".toList ∧ 70 ≤ e.risk then
    some (baseFinding .trustedOfficeMacroDocument [e]
      (reasonsOr e "Trusted Office document observed")
      (if extension str filePath ∈ documentExtensions then "high".toList else "medium".toList)
      (min (max e.risk 75) 100))
  else if e.eventType ∈ texts ["user_program_execution_observed",
      "background_app_execution_observed"] ∧ 70 ≤ e.risk ∧ processPath ≠ [] then
    some (baseFinding .userActivitySuspiciousProgram [e]
      (reasonsOr e "Suspicious program observed in user activity artifact")
      (if e.executionConfirmed then "high".toList else "medium".toList)
      (min (max e.risk 70) 100))
  else none

def ntfsRule (e : Event) : Option Finding :=
  let filePath := normalizeText e.filePath
  if e.eventType = "file_zone_identifier_observed".toList ∧ 70 ≤ e.risk ∧ filePath ≠ [] then
    some (baseFinding .downloadedExecutableOrigin [e]
      (reasonsOr e "Suspicious web-origin file observed")
      (if extension str filePath ∈ texts [".exe", ".ps1", ".cmd", ".bat", ".js", ".vbs"] ∨
          ".pdf.exe".toList.isSuffixOf (str.lower filePath) then "high".toList
        else "medium".toList)
      (min (max e.risk 75) 100))
  else if e.eventType ∈ texts ["file_deleted_observed", "file_renamed_observed",
      "directory_entry_observed"] ∧ 60 ≤ e.risk ∧ filePath ≠ [] then
    some (baseFinding .suspiciousFileDeletedOrRenamed [e]
      (reasonsOr e "Suspicious NTFS delete/rename trace observed") "medium".toList
      (min (max e.risk 60) 90))
  else none

def windowsUiRule (e : Event) : Option Finding :=
  let filePath := normalizeText (firstOf [e.filePath, e.windowsSearchIndexedPath,
    e.thumbnailSourcePath, e.officeDocumentPath])
  let alertText := normalizeText e.officeAlertText
  let notification := normalizeText e.notificationTitle ++ normalizeText e.notificationBody
  if e.eventType = "office_alert_observed".toList ∧ 70 ≤ e.risk ∧
      (alertText ≠ [] ∨ filePath ≠ []) then
    some (baseFinding .officeSecurityAlertDocument [e]
      (reasonsOr e "Office security alert observed")
      (if extension str filePath ∈ documentExtensions then "high".toList else "medium".toList)
      (min (max e.risk 70) 95))
  else if e.eventType ∈ texts ["thumbnail_observed", "activity_history_observed",
      "search_index_entry_observed"] ∧ 60 ≤ e.risk ∧ filePath ≠ [] then
    some (baseFinding .suspiciousUiObservedFile [e]
      (reasonsOr e "Suspicious file referenced by Windows UI artifact") "medium".toList
      (min (max e.risk 60) 85))
  else if e.eventType = "notification_observed".toList ∧ 70 ≤ e.risk ∧ notification ≠ [] then
    some (baseFinding .securityNotificationObserved [e]
      (reasonsOr e "Security notification observed") "medium".toList
      (min (max e.risk 70) 95))
  else none

/-! ### Cloud uploads -/

/-- Suspicious activity of the day before an upload. -/
def nearbySuspicious (events : List Event) (cloud : Event) : List Event :=
  (processes events ++ defender events).filter fun e =>
    inWindow cloud.time e.time (hours 24) 0 && sameHost str cloud e && 70 ≤ e.risk

def cloudFinding (cloud : Event) (nearby : List Event) : Option Finding :=
  let localPath := normalizeText (firstOf [cloud.cloudLocalPath, cloud.filePath])
  let remotePath := normalizeText cloud.cloudRemotePath
  let item := firstOf [localPath, remotePath]
  let keyword := hasSensitiveKeyword (fileName str item)
  let reasons :=
    (if extension str item ∈ executableExtensions then ["Cloud upload of executable".toList]
      else []) ++
    (if extension str item ∈ archiveExtensions then ["Cloud upload of archive".toList] else []) ++
    (if isUserWritable str localPath then ["Cloud upload from user-writable path".toList]
      else []) ++
    (if keyword then ["Cloud file name contains sensitive keyword".toList] else []) ++
    (if cloud.cloudShared && keyword then ["Cloud shared sensitive item".toList] else []) ++
    (if nearby = [] then [] else ["Cloud upload after suspicious activity".toList])
  let risk := if (cloud.cloudShared && keyword) ∨ nearby ≠ [] then 75 else 60
  if reasons = [] then none
  else
    some (baseFinding .cloudExfilCandidate ([cloud] ++ nearby.take 2) reasons
      (if cloud.cloudShared ∧ nearby ≠ [] then "high".toList else "medium".toList)
      (min (risk + if cloud.cloudShared then 10 else 0) 100))

def cloudRule (events : List Event) (cloud : Event) : Option Finding :=
  cloudFinding str cloud (nearbySuspicious str events cloud)

/-! ### USB mass storage -/

/-- Why an event near a USB connection is suspicious, if it is.  An event of type `usb` never is,
so that the connection itself need not be left out. -/
def usbReason (e : Event) : Option Text :=
  let ext := extension str e.path
  if e.artifactType = "mft".toList ∧ ext ∈ archiveExtensions ∧
      e.eventType ∈ texts ["file_observed", "file_deleted"] then
    some "USB connected near archive creation".toList
  else if deletionEvent e ∧
      (looksSensitivePath str e.path ∨ ext ∈ executableExtensions ++ archiveExtensions) then
    some "USB connected near suspicious deletion".toList
  else if e.artifactType = "cloud".toList ∧ hasSensitiveKeyword (fileName str e.path) then
    some "USB mass storage connected near sensitive file activity".toList
  else none

/-- The suspicious events near a USB connection, with the reasons. -/
def usbNearby (events : List Event) (usb : Event) : List (Event × Text) :=
  events.filterMap fun e =>
    if inWindow usb.time e.time (hours 2) (hours 2) && sameHost str usb e then
      (usbReason str e).map fun reason => (e, reason)
    else none

def highRisk (events : List Event) : Bool := events.any fun e => 70 ≤ e.risk

/-- The finding of a USB connection; `busy` says whether any process of the run is of high risk. -/
def usbFinding (busy : Bool) (usb : Event) (nearby : List (Event × Text)) : Option Finding :=
  let highContext := highRisk (nearby.map Prod.fst) || busy
  if nearby = [] then none
  else
    some (baseFinding .usbExfilCandidate ([usb] ++ (nearby.map Prod.fst).take 4)
      (nearby.map Prod.snd).eraseDups
      (if highContext then "medium".toList else "low".toList) (if highContext then 80 else 50))

def usbRule (events : List Event) (usb : Event) : Option Finding :=
  usbFinding (highRisk (processes events)) usb (usbNearby str events usb)

/-! ### Executed and deleted -/

/-- `suspicious_exec_sources`. -/
def executionSources (events : List Event) : List Event :=
  (processes events ++ inventoryExec events).filter fun e =>
    e.executionConfirmed || e.artifactType = "prefetch".toList

/-- The deletions of an executed file; `true` where only the file names match. -/
def deletionMatches (events : List Event) (exec : Event) : List (Event × Bool) :=
  (events.filter deletionEvent).filterMap fun deletion =>
    let paths := matchPaths str exec.path deletion.path
    if inWindow exec.time deletion.time 0 (hours 72) && sameHost str exec deletion &&
        (paths.1 || paths.2) then some (deletion, paths.2)
    else none

/-- Some Defender event of the run has a path like that of an executed file. -/
def detectedPath (events : List Event) (exec : Event) : Bool :=
  (defender events).any fun detection => pathsMatch str exec.path detection.path

/-- The finding of an executed file with its deletions. -/
def cleanupFinding (detected : Bool) (exec : Event) (deletions : List (Event × Bool)) :
    Option Finding :=
  let executable : Bool := extension str exec.path ∈ executableExtensions
  deletions.head?.map fun first =>
    baseFinding .executionCleanup [exec, first.1]
      (["Executed file later deleted".toList] ++
        (if detected then ["Suspicious file deleted after detection".toList] else []) ++
        (if executable then ["Executed file later deleted".toList] else []))
      (if first.2 then "medium".toList else "high".toList) (if executable then 80 else 65)

def cleanupRule (events : List Event) (exec : Event) : Option Finding :=
  cleanupFinding str (detectedPath str events exec) exec (deletionMatches str events exec)

/-! ### All of them -/

/-- `_generate_findings`. -/
def generateFindings (graph : Graph) (events : List Event) : List Finding :=
  (events.filter downloadEvent).flatMap (downloadRule str events) ++
  graph.edges.filterMap (officeRule str graph events) ++
  (graph.nodes.filter (suspiciousPowershell str)).filterMap (powershellRule str events) ++
  (events.filter persistenceEvent).filterMap (persistenceRule str events) ++
  (events.filter userActivityEvent).filterMap (userActivityRule str) ++
  (events.filter (ntfsEvent str)).filterMap (ntfsRule str) ++
  (events.filter (windowsUiEvent str)).filterMap (windowsUiRule str) ++
  (events.filter cloudUpload).filterMap (cloudRule str events) ++
  (events.filter usbEvent).filterMap (usbRule str events) ++
  (executionSources events).filterMap (cleanupRule str events) ++
  graph.edges.filterMap (chainRule str graph events)

end

end Kairon.Findings

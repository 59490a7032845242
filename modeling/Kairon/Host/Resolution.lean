/-
Kairon/Host/Resolution.lean

`resolve_host`: the host that an evidence is given to.

A selected host comes first, then a provided name, then the names that were detected, one
after the other; only after them stands the branch for several candidates.  A name that
belongs to no host makes one, where that is allowed.

A hostname is made of ASCII letters, digits, dashes, underscores and dots, so that
`str.lower` and `str.isalnum` are those of ASCII; a text with other letters is refused by
the pattern of the labels.  The platform decision, which nothing else depends on, is left
out.
-/
import Kairon.Host.Identity

namespace Kairon.Identity

open Search (Text strip)
open Txn

/-! ### Hostnames -/

def lowerName (name : Text) : Text := name.map Char.toLower

/-- `^[A-Za-z0-9][A-Za-z0-9_-]{0,62}$`; no label has a line end. -/
def isHostLabel : Text → Bool
  | [] => false
  | c :: rest =>
    c.isAlphanum && decide (rest.length ≤ 62) &&
      rest.all fun d => d.isAlphanum || d = '_' || d = '-'

def isInvalidHostValue (name : Text) : Bool :=
  match normalizeHostAlias lowerName name with
  | none => true
  | some normalized => decide (normalized ∈ invalidHostValues)

def normalizeHostname (value : Text) : Option Text :=
  let text := rstripChar '.' (stripChar quote (stripChar '"' (strip value)))
  if text = [] then none
  else if text.any (fun c => decide (c.toNat < 32) || decide (c.toNat = 127)) then none
  else if ['/', '\\', ':', '@'].any (fun separator => decide (separator ∈ text)) then none
  else
    let joined := ['.'].intercalate ((text.splitOn '.').filter fun part => part ≠ [])
    if 255 < joined.length ∨ isInvalidHostValue joined then none
    else if (joined.splitOn '.').any fun label => !isHostLabel label then none
    else if joined = [] then none else some joined

/-- `_hostname_candidates`. -/
def hostnameCandidates (values : List Text) : List Text :=
  (values.filterMap normalizeHostname).eraseDups

/-! ### Policies -/

structure HostPolicy where
  key : String
  explicitHostRequired : Bool := false
  providedHostAllowed : Bool := true
  detectedHostnameAllowed : Bool := true
  hostCreationAllowed : Bool := true
  autoAssignAllowed : Bool := false
  caseSingletonAutoAssignAllowed : Bool := false

def unknownPolicy : HostPolicy := { key := "unknown" }

/-- `EVIDENCE_HOST_POLICIES`. -/
def evidenceHostPolicies : List HostPolicy :=
  [{ key := "memory_dump", explicitHostRequired := true, detectedHostnameAllowed := false },
    { key := "disk_image", autoAssignAllowed := true },
    { key := "velociraptor_zip", autoAssignAllowed := true },
    { key := "raw_collection", autoAssignAllowed := true },
    { key := "kape_archive", autoAssignAllowed := true },
    { key := "parsed_folder", autoAssignAllowed := true },
    { key := "evtx", autoAssignAllowed := true },
    { key := "csv" },
    { key := "json" },
    { key := "jsonl" },
    { key := "linux_triage", autoAssignAllowed := true },
    { key := "macos_triage", autoAssignAllowed := true },
    unknownPolicy,
    { key := "windows_collection", autoAssignAllowed := true },
    { key := "linux_collection", autoAssignAllowed := true },
    { key := "artifact_collection", autoAssignAllowed := true },
    { key := "generic_archive", autoAssignAllowed := true },
    { key := "promoted_archive_content", autoAssignAllowed := true }]

/-- `host_policy_for`, of what `evidence_type_key` makes of a type. -/
def hostPolicyFor (evidenceType : Text) : HostPolicy :=
  (evidenceHostPolicies.find? fun policy => policy.key.toList = strip evidenceType).getD
    unknownPolicy

/-! ### Resolutions -/

inductive Outcome
  | resolved | created | unassigned | ambiguous
  deriving DecidableEq

structure HostResolution where
  host : Option CaseHost
  providedHost : Option Text
  detectedHostname : Option Text
  resolutionMethod : String
  outcome : Outcome
  confidence : Option String := none
  reason : String
  created : Bool := false
  normalizedCandidate : Option Text := none
  autoAssign : Bool := false

inductive Refusal
  /-- `_structured_error`, with the candidates among its details. -/
  | structured (code message : String) (candidates : List Text)
  /-- The message of a `ValueError`. -/
  | badRequest (message : String)
  /-- What the database raises. -/
  | database (failure : Failure)

/-- What `resolve_host` is called with. -/
structure HostRequest where
  evidenceType : Text
  hostId : Option ℕ := none
  providedHost : Text := []
  detectedHostname : Text := []
  hostnameCandidates : List Text := []
  allowCreate : Bool := true
  autoAssign : Bool := true
  requireHost : Option Bool := none

namespace HostRequest

def policy (r : HostRequest) : HostPolicy := hostPolicyFor r.evidenceType

def mustHaveHost (r : HostRequest) : Bool := r.requireHost.getD r.policy.explicitHostRequired

def canCreate (r : HostRequest) : Bool := r.allowCreate && r.policy.hostCreationAllowed

/-- The candidates that the policy allows; the detected name is the first. -/
def candidates (r : HostRequest) : List Text :=
  if r.policy.detectedHostnameAllowed then
    Identity.hostnameCandidates (r.detectedHostname :: r.hostnameCandidates)
  else []

end HostRequest

/-! ### Looking a host up -/

/-- `_find_host_by_name`. -/
def findHostByName (s : Directory) (hostname : Text) : Option CaseHost :=
  match normalizeHostAlias lowerName hostname with
  | none => none
  | some normalized =>
    match s.hosts.find? fun h => h.canonicalName = normalized with
    | some host => some host
    | none => (s.aliasNamed normalized).bind fun a => s.host? a.caseHostId

/-- `_get_or_create_host`. -/
def getOrCreateHost (hostname : Text) : Work Directory Refusal (CaseHost × Bool) := fun s =>
  match findHostByName s hostname with
  | some host => (.ok (host, false), s)
  | none =>
    match createManualCaseHost lowerName Char.isAlphanum hostname s with
    | (.ok (id, created), t) =>
      match t.host? id with
      | some host => (.ok (host, created), t)
      | none => (.error (.badRequest "Created host could not be loaded"), t)
    | (.error (.valueError message), t) => (.error (.badRequest message), t)
    | (.error .integrityError, t) =>
      match findHostByName t hostname with
      | some host => (.ok (host, false), t)
      | none => (.error (.database .integrityError), t)
    | (.error .dataError, t) => (.error (.database .dataError), t)

/-- The host of a name, made where that is allowed. -/
def hostNamed (canCreate : Bool) (hostname : Text) :
    Work Directory Refusal (Option (CaseHost × Bool)) := fun s =>
  if canCreate then andThen (getOrCreateHost hostname) (fun found t => (.ok (some found), t)) s
  else (.ok ((findHostByName s hostname).map fun host => (host, false)), s)

/-- `for candidate in candidates`: the first one with a host. -/
def firstHost (canCreate : Bool) : List Text →
    Work Directory Refusal (Option (Text × CaseHost × Bool))
  | [] => fun s => (.ok none, s)
  | candidate :: others => andThen (hostNamed canCreate candidate) fun found =>
    match found with
    | some (host, created) => fun t => (.ok (some (candidate, host, created)), t)
    | none => firstHost canCreate others

/-! ### The branches -/

namespace HostRequest

/-- `must_have_host` and the last line. -/
def unassigned (r : HostRequest) (normalizedProvided : Option Text) :
    Except Refusal HostResolution :=
  if r.mustHaveHost then
    .error (.structured "HOST_REQUIRED" "Host is required for this evidence type." [])
  else .ok
    { host := none
      providedHost := normalizedProvided
      detectedHostname := r.candidates.head?
      resolutionMethod := "unassigned"
      outcome := .unassigned
      reason := "No host resolved"
      normalizedCandidate :=
        (normalizedProvided.or r.candidates.head?).bind (normalizeHostAlias lowerName) }

/-- More than one candidate, or more than one host. -/
def ambiguous (r : HostRequest) (reason : String) (candidates : List Text) :
    Except Refusal HostResolution :=
  if r.mustHaveHost then .error (.structured "HOST_AMBIGUOUS" (reason ++ ".") candidates)
  else .ok
    { host := none
      providedHost := none
      detectedHostname := none
      resolutionMethod := "auto_assign_ambiguous"
      outcome := .ambiguous
      reason := reason
      autoAssign := true }

/-- `case_singleton_auto_assign_allowed`, and what comes behind it. -/
def caseSingleton (r : HostRequest) (s : Directory) (normalizedProvided : Option Text) :
    Except Refusal HostResolution :=
  if r.policy.caseSingletonAutoAssignAllowed then
    match s.hosts with
    | [] => r.unassigned normalizedProvided
    | [host] => .ok
        { host := some host
          providedHost := none
          detectedHostname := none
          resolutionMethod := "auto_assign_case_singleton"
          outcome := .resolved
          confidence := some "low"
          reason := "Auto Assign used the only eligible case host"
          normalizedCandidate := some host.canonicalName
          autoAssign := true }
    | _ :: _ :: _ => r.ambiguous "Case has multiple eligible hosts" []
  else r.unassigned normalizedProvided

/-- `auto_assign and policy.auto_assign_allowed`, and what comes behind it. -/
def assignAutomatically (r : HostRequest) (s : Directory) (normalizedProvided : Option Text) :
    Except Refusal HostResolution :=
  if r.autoAssign && r.policy.autoAssignAllowed then
    match r.candidates with
    | [] => r.caseSingleton s normalizedProvided
    | [candidate] =>
      match findHostByName s candidate with
      | some host => .ok
          { host := some host
            providedHost := none
            detectedHostname := some candidate
            resolutionMethod := "auto_assign_detected_hostname"
            outcome := .resolved
            confidence := some "medium"
            reason := "Auto Assign resolved one unambiguous host candidate"
            normalizedCandidate := normalizeHostAlias lowerName candidate
            autoAssign := true }
      | none => r.caseSingleton s normalizedProvided
    | first :: second :: others =>
      r.ambiguous "Multiple plausible host candidates were found" (first :: second :: others)
  else r.unassigned normalizedProvided

/-- The loop over the candidates, and what comes behind it. -/
def detect (r : HostRequest) (normalizedProvided : Option Text) :
    Work Directory Refusal HostResolution :=
  andThen (firstHost r.canCreate r.candidates) fun found s =>
    match found with
    | some (candidate, host, created) => (.ok
        { host := some host
          providedHost := none
          detectedHostname := some candidate
          resolutionMethod := "detected_hostname"
          outcome := if created then .created else .resolved
          confidence := some "medium"
          reason := "Detected hostname resolved"
          created := created
          normalizedCandidate := normalizeHostAlias lowerName candidate }, s)
    | none => (r.assignAutomatically s normalizedProvided, s)

/-- The provided name, and what comes behind it. -/
def provide (r : HostRequest) : Work Directory Refusal HostResolution := fun s =>
  match normalizeHostname r.providedHost with
  | none =>
    if r.providedHost ≠ [] then (.error (.structured "HOST_INVALID" "Host name is invalid." []), s)
    else r.detect none s
  | some provided =>
    if r.policy.providedHostAllowed then
      andThen (hostNamed r.canCreate provided) (fun found t =>
        match found with
        | some (host, created) => (.ok
            { host := some host
              providedHost := some provided
              detectedHostname := normalizeHostname r.detectedHostname
              resolutionMethod := "provided_host"
              outcome := if created then .created else .resolved
              confidence := some "high"
              reason := "Provided host resolved"
              created := created
              normalizedCandidate := normalizeHostAlias lowerName provided }, t)
        | none => r.detect (some provided) t) s
    else r.detect (some provided) s

end HostRequest

/-- `resolve_host`. -/
def resolveHost (r : HostRequest) : Work Directory Refusal HostResolution := fun s =>
  match r.hostId with
  | none => r.provide s
  | some id =>
    match s.host? id with
    | none =>
      (.error (.structured "HOST_NOT_FOUND" "Host not found in this case" []), s)
    | some host => (.ok
        { host := some host
          providedHost := some ((normalizeHostname r.providedHost).getD host.displayName)
          detectedHostname := normalizeHostname r.detectedHostname
          resolutionMethod := "existing_host"
          outcome := .resolved
          confidence := some "high"
          reason := "Explicit host selected"
          normalizedCandidate := some host.canonicalName }, s)

end Kairon.Identity

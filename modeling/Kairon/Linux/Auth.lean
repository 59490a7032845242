/-
Kairon/Linux/Auth.lean

Linux authentication events, the failed attempts and the successful logins read from
them.

* `attempts` groups the failures of a process, or of a second where no process is
  known, and cuts a group where it pauses for more than ten minutes: one attempt for
  each connection, counted as the largest count of any channel.
* `logins` lets every record of `auth` be a login and takes up the records of the
  other carriers and the opened sessions that match one.

Times are microseconds, as `UtcDateTime.stamp` counts them.
-/
import Kairon.Lib.Gather
import Kairon.Search.Value

namespace Kairon.Linux

open Search Gather

/-! ### Events -/

inductive Carrier
  | authLog | journal | audit | wtmp | btmp | lastlog
  deriving DecidableEq

inductive Kind
  | login | failure | failureNote | sessionOpen | sessionClose | logout | su | sudo
  | systemBoot | systemShutdown | accountChange | authOk | lastlog | other
  deriving DecidableEq

/-- Which record of an attempt an event is; `unset` is the empty text. -/
inductive Channel
  | unset | auth | explicit | pam | login | btmp | wtmp | audit
  deriving DecidableEq

inductive Result
  | success | failure | unknown
  deriving DecidableEq

/-- An event in the vocabulary of `_base_event`. -/
structure Event where
  id : Text
  evidenceId : Option Text
  host : Text
  dt : Option ℤ
  carrier : Carrier
  service : Text
  pid : Text
  kind : Kind
  result : Result
  username : Text
  target : Text
  byName : Text
  sourceIp : Text
  sourcePort : Option Text
  terminal : Text
  method : Text
  command : Text
  cwd : Text
  count : ℕ
  channel : Channel
  message : Text
  deriving DecidableEq

/-- An event of one process with nothing but its first fields. -/
def bareEvent (id : Text) (carrier : Carrier) (pid : Text) (kind : Kind) (dt : Option ℤ) :
    Event where
  id := id
  evidenceId := some "ev".toList
  host := "host".toList
  dt := dt
  carrier := carrier
  service := "sshd".toList
  pid := pid
  kind := kind
  result := .unknown
  username := "alice".toList
  target := []
  byName := []
  sourceIp := []
  sourcePort := none
  terminal := []
  method := []
  command := []
  cwd := []
  count := 1
  channel := .unset
  message := []

/-- `_iso`, the ISO form with a `Z` for its offset. -/
def iso (t : ℤ) : Text :=
  let text := isoDate (t.toNat / dayMicros) ++ 'T' :: isoTime (t.toNat % dayMicros)
  text.take (text.length - 6) ++ ['Z']

/-- `a or b` of two texts. -/
def orText (a b : Text) : Text := if a = [] then b else a

/-- `datetime.min`. -/
def datetimeMin : ℤ := dayMicros

/-- The key that orders events by time, `item["_dt"] or datetime.min`. -/
def sortKey (dt : Option ℤ) : ℤ := dt.getD datetimeMin

/-- `sorted` by that key; it is stable. -/
def byTime {α : Type} (dt : α → Option ℤ) (items : List α) : List α :=
  items.insertionSort fun a b => sortKey (dt a) ≤ sortKey (dt b)

theorem byTime_perm {α : Type} (dt : α → Option ℤ) (items : List α) :
    (byTime dt items).Perm items := List.perm_insertionSort _ _

theorem byTime_sorted {α : Type} (dt : α → Option ℤ) (items : List α) :
    (byTime dt items).Pairwise fun a b => sortKey (dt a) ≤ sortKey (dt b) := by
  have htotal : Std.Total fun a b : α => sortKey (dt a) ≤ sortKey (dt b) :=
    ⟨fun a b => le_total _ _⟩
  have htrans : IsTrans α fun a b => sortKey (dt a) ≤ sortKey (dt b) :=
    ⟨fun _ _ _ hab hbc => hab.trans hbc⟩
  exact List.pairwise_insertionSort _ items

def connectionGap : ℤ := 600000000
def campaignGap : ℤ := 1800000000
def loginMergeWindow : ℤ := 10000000
def successLookahead : ℤ := 86400000000

/-! ### Failed attempts -/

/-- A failure whose user and source the other lines of its process may take over. -/
def Event.isReference (event : Event) : Bool :=
  event.kind = .failure && (event.channel = .explicit || event.channel = .btmp ||
    event.channel = .audit) && event.pid ≠ [] && event.username ≠ []

/-- `by_pid.get((evidence_id, pid))`: the first such failure of a process. -/
def reference (events : List Event) (evidenceId : Option Text) (pid : Text) : Option Event :=
  events.find? fun event =>
    event.isReference && event.evidenceId = evidenceId && event.pid = pid

/-- What `_infer_pam_users` does to one event. -/
def inferPamUser (events : List Event) (event : Event) : Event :=
  if event.kind = .failure ∧ event.pid ≠ [] ∧ (event.username = [] ∨ event.sourceIp = []) then
    match reference events event.evidenceId event.pid with
    | some ref =>
      { event with
        username := orText event.username ref.username
        sourceIp := orText event.sourceIp ref.sourceIp }
    | none => event
  else event

/-- `_infer_pam_users`.  The reference of a process is its own reference, so that
writing into the events while going through them changes nothing. -/
def inferPamUsers (events : List Event) : List Event := events.map (inferPamUser events)

/-- `_most_common`: of the texts that are not empty, the first of those that occur
most often. -/
def mostCommon (values : List Text) : Text :=
  (((tally id (fun _ => 1) (values.filter (· ≠ []))).argmax Prod.snd).map Prod.fst).getD []

/-- What the failures of one connection have in common: the process, or without one
the account, the source, the terminal and the second. -/
inductive Connection
  | process (evidenceId : Option Text) (pid : Text)
  | moment (evidenceId : Option Text) (username sourceIp terminal : Text) (second : Option ℤ)
  deriving DecidableEq

def Event.connection (event : Event) : Connection :=
  if event.pid ≠ [] then .process event.evidenceId event.pid
  else .moment event.evidenceId event.username event.sourceIp event.terminal
    (event.dt.map fun t => t - t % 1000000)

/-- `int(item["count"] or 1)`. -/
def Event.weight (event : Event) : ℕ := if event.count = 0 then 1 else event.count

structure Attempt where
  count : ℕ
  channels : List (Channel × ℕ)
  username : Text
  sourceIp : Text
  service : Text
  terminal : Text
  dt : Option ℤ
  last : Option ℤ
  eventIds : List Text
  evidenceId : Option Text

/-- `[item for item in cluster if item["channel"] == "explicit"] or cluster`. -/
def explicitOr (cluster : List Event) : List Event :=
  if cluster.filter (·.channel = .explicit) = [] then cluster
  else cluster.filter (·.channel = .explicit)

/-- The attempt of one connection. -/
def attemptOf (cluster : List Event) : Attempt where
  count := ((tally (·.channel) Event.weight cluster).map Prod.snd).foldl max 0
  channels := tally (·.channel) Event.weight cluster
  username := orText (mostCommon ((explicitOr cluster).map (·.username)))
    (mostCommon (cluster.map (·.username)))
  sourceIp := mostCommon (cluster.map (·.sourceIp))
  service := orText (mostCommon ((explicitOr cluster).map (·.service)))
    (mostCommon (cluster.map (·.service)))
  terminal := mostCommon (cluster.map (·.terminal))
  dt := (cluster.filterMap (·.dt)).min?
  last := (cluster.filterMap (·.dt)).max?
  eventIds := (cluster.take 3).map (·.id)
  evidenceId := cluster.head?.bind (·.evidenceId)

def failures (events : List Event) : List Event := events.filter (·.kind = .failure)

/-- `_cluster(items, _CONNECTION_GAP) or [items]`. -/
def connectionsOf (items : List Event) : List (List Event) :=
  if clusters (·.dt) connectionGap items = [] then [items]
  else clusters (·.dt) connectionGap items

/-- The failures of every connection. -/
def connections (events : List Event) : List (List Event) :=
  (groups Event.connection (failures events)).flatMap connectionsOf

/-- `_attempts`. -/
def attempts (events : List Event) : List Attempt := (connections events).map attemptOf

/-! ### Successful logins -/

structure Login where
  id : Text
  username : Text
  sourceIp : Text
  sourcePort : Option Text
  service : Text
  method : Text
  terminal : Text
  pid : Text
  sessionPids : Finset Text
  wtmpTerminal : Text
  wtmpPid : Text
  dt : Option ℤ
  carriers : Finset Carrier
  eventIds : List Text
  evidenceId : Option Text
  host : Text
  deriving DecidableEq

/-- `_new_login`. -/
def newLogin (event : Event) : Login where
  id := "login-".toList ++ event.id
  username := event.username
  sourceIp := event.sourceIp
  sourcePort := event.sourcePort
  service := orText event.service "login".toList
  method := event.method
  terminal := event.terminal
  pid := event.pid
  sessionPids := if event.pid = [] then ∅ else {event.pid}
  wtmpTerminal := []
  wtmpPid := []
  dt := event.dt
  carriers := {event.carrier}
  eventIds := [event.id]
  evidenceId := event.evidenceId
  host := event.host

/-- The test of `_matching_login`. -/
def Login.matchedBy (login : Login) (event : Event) : Bool :=
  match login.dt, event.dt with
  | some t, some u =>
    login.username = event.username && login.evidenceId = event.evidenceId &&
      (t - u).natAbs ≤ loginMergeWindow &&
      (login.sourceIp = [] || event.sourceIp = [] || login.sourceIp = event.sourceIp)
  | _, _ => false

/-- What a matching record adds to a login. -/
def Login.absorb (login : Login) (event : Event) : Login :=
  { login with
    carriers := insert event.carrier login.carriers
    eventIds := login.eventIds ++ [event.id]
    wtmpTerminal := if event.carrier = .wtmp then event.terminal else login.wtmpTerminal
    wtmpPid := if event.carrier = .wtmp then event.pid else login.wtmpPid
    sessionPids :=
      if event.kind = .sessionOpen ∧ event.pid ≠ [] then insert event.pid login.sessionPids
      else login.sessionPids
    terminal := orText login.terminal event.terminal
    sourceIp := orText login.sourceIp event.sourceIp }

/-- The login of a record that matches none. -/
def secondaryLogin (event : Event) : Login :=
  let login := newLogin event
  { login with
    sessionPids :=
      if event.kind = .sessionOpen then insert event.pid login.sessionPids else login.sessionPids
    wtmpTerminal := if event.carrier = .wtmp then event.terminal else login.wtmpTerminal
    wtmpPid := if event.carrier = .wtmp then event.pid else login.wtmpPid }

/-- One record of the second pass over the logins, the latest login first: it goes to
the first one that matches, or else is a login of its own. -/
def takeUp (latestFirst : List Login) (event : Event) : List Login :=
  match latestFirst.findIdx? (·.matchedBy event) with
  | some i => latestFirst.modify i (·.absorb event)
  | none => secondaryLogin event :: latestFirst

/-- Sessions of these services are no logins. -/
def nonLoginSessionServices : List Text :=
  ["cron", "crond", "atd", "sudo", "sudo-i", "su", "su-l", "runuser", "runuser-l",
    "systemd-user", "polkit-1"].map String.toList

def primary (events : List Event) : List Event :=
  events.filter fun event => event.kind = .login && event.channel = .auth

def secondary (events : List Event) : List Event :=
  events.filter fun event =>
    event.kind = .login && (event.channel = .audit || event.channel = .wtmp)

def opens (events : List Event) : List Event :=
  events.filter fun event =>
    event.kind = .sessionOpen && event.service ∉ nonLoginSessionServices

/-- `_logins`. -/
def logins (events : List Event) : List Login :=
  ((byTime (·.dt) (secondary events ++ opens events)).foldl takeUp
    ((byTime (·.dt) (primary events)).map newLogin).reverse).reverse

end Kairon.Linux

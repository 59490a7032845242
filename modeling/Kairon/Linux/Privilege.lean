/-
Kairon/Linux/Privilege.lean

The rows of sudo and su.

The records are read in the order of their times.  A record of su adds to the row of
its process and a denial of sudo to the denial of its process; any other record of sudo
has a row of its own.  Which row a record belongs to is `rowKey`, and nothing but the
process says when a row is complete.
-/
import Kairon.Linux.Auth
import Kairon.Lib.Rows

namespace Kairon.Linux

open Search Gather

/-! ### Denials -/

/-- A letter of a pattern against a character, under `re.IGNORECASE`. -/
def sameLetter (p c : Char) : Bool :=
  p.toLower = c.toLower || (p.toLower = 'i' && (c = 'İ' || c = 'ı')) ||
    (p.toLower = 's' && c = 'ſ') || (p.toLower = 'k' && c.toNat = 0x212A)

/-- What a literal matches at the start of a text. -/
def matchLiteral : Text → Text → Option Text
  | [], _ => some []
  | _ :: _, [] => none
  | p :: ps, c :: cs => if sameLetter p c then (matchLiteral ps cs).map (c :: ·) else none

/-- The alternatives of `_SUDO_DENIED_RE` in the order they are tried, the optional
parts first with them and then without. -/
def deniedPatterns : List Text :=
  ["incorrect password attempts", "incorrect password attempt", "not in the sudoers",
    "not in sudoers", "not allowed to execute", "command not allowed"].map String.toList

/-- `_SUDO_DENIED_RE.search(message)`, its first group. -/
def deniedReason : Text → Option Text
  | [] => none
  | c :: cs =>
    (deniedPatterns.findSome? fun pattern => matchLiteral pattern (c :: cs)).or (deniedReason cs)

/-! ### Rows -/

inductive Tool
  | sudo | su

structure PrivilegeRow where
  id : Text
  dt : Option ℤ
  tool : Tool
  user : Text
  target : Text
  command : Text
  cwd : Text
  terminal : Text
  denied : Bool
  reason : Text
  carrier : Carrier

/-- Which row a record adds to: the denial of a process, or the switch of a process, of
the record itself where no process is known. -/
inductive RowKey
  | denial (evidenceId : Option Text) (pid : Text)
  | switch (evidenceId : Option Text) (process : Text)
  deriving DecidableEq

def Event.isDenied (event : Event) : Bool := event.result = .failure

/-- `su_by_pid` and `sudo_denied_by_pid`. -/
def rowKey (event : Event) : Option RowKey :=
  if event.kind = .sudo then
    if event.isDenied ∧ event.pid ≠ [] then some (.denial event.evidenceId event.pid) else none
  else some (.switch event.evidenceId (orText event.pid event.id))

/-- The row of a record of sudo. -/
def sudoRow (event : Event) : PrivilegeRow where
  id := event.id
  dt := event.dt
  tool := .sudo
  user := event.username
  target := orText event.target "root".toList
  command := event.command
  cwd := event.cwd
  terminal := event.terminal
  denied := event.isDenied
  reason := if event.isDenied then (deniedReason event.message).getD [] else []
  carrier := event.carrier

/-- What a further denial of the same process adds. -/
def addDenial (row : PrivilegeRow) (event : Event) : PrivilegeRow :=
  { row with
    reason := orText row.reason ((deniedReason event.message).getD [])
    command := orText row.command event.command
    user := orText row.user event.username }

/-- The row of a switch before its first record is read. -/
def switchRow (event : Event) : PrivilegeRow where
  id := event.id
  dt := event.dt
  tool := .su
  user := []
  target := []
  command := []
  cwd := []
  terminal := []
  denied := false
  reason := []
  carrier := event.carrier

/-- What a record adds to a switch.  The login name of an opened session is the actor,
whatever the other records say. -/
def addSwitch (row : PrivilegeRow) (event : Event) : PrivilegeRow :=
  if event.kind = .sessionOpen then
    { row with
      target := orText row.target event.username
      user := if event.byName = [] then row.user else event.byName }
  else
    { row with
      target := orText event.target row.target
      user := orText row.user event.byName
      terminal := orText row.terminal event.terminal
      denied := row.denied || event.result = .failure }

def newRow (event : Event) : PrivilegeRow :=
  if event.kind = .sudo then sudoRow event else addSwitch (switchRow event) event

def addToRow (row : PrivilegeRow) (event : Event) : PrivilegeRow :=
  if event.kind = .sudo then addDenial row event else addSwitch row event

/-- The records of sudo and su, and the sessions that su opens. -/
def isPrivileged (event : Event) : Bool :=
  event.kind = .sudo || event.kind = .su || (event.kind = .sessionOpen &&
      (event.service = "su".toList || event.service = "su-l".toList))

/-- The rows in the order they are made. -/
def privilegeRows (events : List Event) : List (Option RowKey × PrivilegeRow) :=
  rows rowKey newRow addToRow (byTime (·.dt) (events.filter isPrivileged))

/-- `item["time"] or ""`. -/
def PrivilegeRow.timeText (row : PrivilegeRow) : Text := (row.dt.map iso).getD []

/-- `_privilege`. -/
def privilege (events : List Event) : List PrivilegeRow :=
  ((privilegeRows events).map Prod.snd).insertionSort fun a b => b.timeText ≤ a.timeText

end Kairon.Linux

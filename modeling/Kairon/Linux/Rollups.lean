/-
Kairon/Linux/Rollups.lean

The campaigns, the rows of the sources and the failure groups, and what of the failed
attempts they hold.

The sums agree over every list of events: the three rollups partition the attempts,
whatever their keys (`sum_sourceRows`, `sum_failureGroups`, `sum_campaigns`).  What can
be lost is lost before: `_cluster(items) or [items]` falls back to the whole group
only when the group has no dated record, so that the undated failures of a process
that also has dated ones are in no attempt (`conserved_iff`).
-/
import Kairon.Linux.Auth

namespace Kairon.Linux

open Search Gather

/-! ### Campaigns -/

inductive Pattern
  | none | failedLogins | repeatedFailures | bruteForce | passwordSpray

/-- The `rank` of `_source_rows`. -/
def Pattern.rank : Pattern → ℕ
  | none => 0
  | failedLogins => 1
  | repeatedFailures => 2
  | bruteForce => 3
  | passwordSpray => 3

structure Campaign where
  sourceIp : Text
  pattern : Pattern
  firstSeen : Option ℤ
  lastSeen : Option ℤ
  attempts : ℕ
  accounts : List (Text × ℕ)
  accountCount : ℕ
  services : List Text
  followedBySuccess : Bool
  successAccount : Option Text
  successTime : Option ℤ
  secondsToSuccess : Option ℤ
  successDuringCampaign : Bool
  eventIds : List Text

def localSource : Text := "(local)".toList
def unknownAccount : Text := "(unknown)".toList

/-- `attempt["source_ip"] or "(local)"`. -/
def Attempt.source (attempt : Attempt) : Text := orText attempt.sourceIp localSource

/-- `attempt["username"] or "(unknown)"`. -/
def Attempt.account (attempt : Attempt) : Text := orText attempt.username unknownAccount

/-- `Counter.most_common(n)`. -/
def mostCommonOf (n : ℕ) (counter : List (Text × ℕ)) : List (Text × ℕ) :=
  (counter.insertionSort fun a b => b.2 ≤ a.2).take n

/-- `sorted` of a set of texts. -/
def sortedSet (texts : List Text) : List Text := texts.dedup.insertionSort (· ≤ ·)

/-- The total and the accounts of a cluster against the thresholds. -/
def patternOf (total accounts : ℕ) : Pattern :=
  if 5 ≤ accounts ∧ total ≤ 3 * accounts then .passwordSpray
  else if 10 ≤ total then .bruteForce
  else if 5 ≤ total then .repeatedFailures
  else .failedLogins

/-- The first login from the source during the campaign or in the day after it. -/
def successOf (logins : List Login) (source : Text) (first last : Option ℤ) : Option Login :=
  if source = localSource then none
  else earliest (·.dt.getD 0) (logins.filter fun login =>
    login.sourceIp = source && login.dt.any fun t =>
      first.any (· ≤ t) && last.any (t ≤ · + successLookahead))

/-- The campaign of one cluster of a source. -/
def campaignOf (logins : List Login) (source : Text) (cluster : List Attempt) : Campaign :=
  let total := (cluster.map (·.count)).sum
  let accounts := tally Attempt.account (·.count) cluster
  let first := cluster.head?.bind (·.dt)
  let last := (cluster.filterMap fun item => item.last.or item.dt).max?
  let success := successOf logins source first last
  { sourceIp := source
    pattern := patternOf total accounts.length
    firstSeen := first
    lastSeen := last
    attempts := total
    accounts := mostCommonOf 20 accounts
    accountCount := accounts.length
    services := sortedSet ((cluster.map (·.service)).filter (· ≠ []))
    followedBySuccess := success.isSome
    successAccount := success.map (·.username)
    successTime := success.bind (·.dt)
    secondsToSuccess := success.bind fun login => login.dt.bind fun t =>
      last.map fun u => (t - u).tdiv 1000000
    successDuringCampaign := success.any fun login => login.dt.any fun t => last.any (t ≤ ·)
    eventIds := ((cluster.take 2).flatMap (·.eventIds)).take 4 }

/-- The order of the campaigns: those with a success first, then by attempts. -/
def Campaign.order (campaign : Campaign) : ℤ ×ₗ ℤ :=
  toLex (if campaign.followedBySuccess then 0 else 1, -campaign.attempts)

/-- `_campaigns`. -/
def campaigns (attempts : List Attempt) (logins : List Login) : List Campaign :=
  (((firstKeys Attempt.source attempts).flatMap fun source =>
    (clusters (·.dt) campaignGap (attempts.filter (·.source = source))).map
      (campaignOf logins source))).insertionSort fun a b => a.order ≤ b.order

/-! ### Source rows -/

structure SourceRow where
  sourceIp : Text
  firstSeen : Option ℤ
  lastSeen : Option ℤ
  failedAttempts : ℕ
  accountsTried : List (Text × ℕ)
  accountsTriedCount : ℕ
  logins : ℕ
  loginAccounts : List Text
  pattern : Pattern
  campaigns : ℕ
  firstLogin : Option ℤ

/-- `login["source_ip"] or "(local)"`. -/
def Login.source (login : Login) : Text := orText login.sourceIp localSource

/-- The pattern of the highest rank, the first one of it. -/
def highestPattern (campaigns : List Campaign) : Pattern :=
  campaigns.foldl (fun pattern campaign =>
    if pattern.rank < campaign.pattern.rank then campaign.pattern else pattern) .none

/-- The row of one source. -/
def sourceRow (attempts : List Attempt) (logins : List Login) (campaigns : List Campaign)
    (source : Text) : SourceRow :=
  let tried := attempts.filter (·.source = source)
  let entered := logins.filter (·.source = source)
  let times := tried.flatMap (fun attempt => attempt.dt.toList ++ attempt.last.toList) ++
    entered.filterMap (·.dt)
  { sourceIp := source
    firstSeen := times.min?
    lastSeen := times.max?
    failedAttempts := (tried.map (·.count)).sum
    accountsTried := mostCommonOf 10 (tally Attempt.account (·.count) tried)
    accountsTriedCount := (tally Attempt.account (·.count) tried).length
    logins := entered.length
    loginAccounts := sortedSet (entered.map (·.username))
    pattern := highestPattern (campaigns.filter (·.sourceIp = source))
    campaigns := (campaigns.filter (·.sourceIp = source)).length
    firstLogin := (entered.filterMap (·.dt)).min? }

/-- The order of the rows: sources with failures and logins first. -/
def SourceRow.order (row : SourceRow) : ℤ ×ₗ ℤ ×ₗ ℤ :=
  toLex (if 0 < row.logins ∧ 0 < row.failedAttempts then -1 else 0,
    toLex (-row.failedAttempts, -row.logins))

/-- The sources in the order they are first met. -/
def sourcesOf (attempts : List Attempt) (logins : List Login) (campaigns : List Campaign) :
    List Text :=
  firstKeys id (attempts.map Attempt.source ++ logins.map Login.source ++
    campaigns.map (·.sourceIp))

/-- `_source_rows`. -/
def sourceRows (attempts : List Attempt) (logins : List Login) (campaigns : List Campaign) :
    List SourceRow :=
  ((sourcesOf attempts logins campaigns).map
    (sourceRow attempts logins campaigns)).insertionSort fun a b => a.order ≤ b.order

/-! ### Failure groups -/

structure FailureGroup where
  sourceIp : Text
  username : Text
  service : Text
  attempts : ℕ
  connections : ℕ
  firstSeen : Option ℤ
  lastSeen : Option ℤ
  eventIds : List Text

def Attempt.failureKey (attempt : Attempt) : Text × Text × Text :=
  (attempt.source, attempt.account, orText attempt.service ['?'])

/-- The group of one key.  The first three attempts that have an identifier give
their first one. -/
def failureGroup (group : List Attempt) (key : Text × Text × Text) : FailureGroup :=
  let times := group.flatMap fun attempt => attempt.dt.toList ++ attempt.last.toList
  { sourceIp := key.1
    username := key.2.1
    service := key.2.2
    attempts := (group.map (·.count)).sum
    connections := group.length
    firstSeen := times.min?
    lastSeen := times.max?
    eventIds := (group.flatMap fun attempt => attempt.eventIds.take 1).take 3 }

/-- `_failure_groups`. -/
def failureGroups (attempts : List Attempt) : List FailureGroup :=
  ((firstKeys Attempt.failureKey attempts).map fun key =>
    failureGroup (attempts.filter (·.failureKey = key)) key).insertionSort
      fun a b => b.attempts ≤ a.attempts

/-! ### The sums -/

/-- `overview["failed_attempts"]`. -/
def failedAttempts (events : List Event) : ℕ := ((attempts events).map (·.count)).sum

theorem sum_sourceRows (attempts : List Attempt) (logins : List Login)
    (campaigns : List Campaign) :
    ((sourceRows attempts logins campaigns).map (·.failedAttempts)).sum =
      (attempts.map (·.count)).sum := by
  have hperm := List.perm_insertionSort (fun a b : SourceRow => a.order ≤ b.order)
    ((sourcesOf attempts logins campaigns).map (sourceRow attempts logins campaigns))
  have hcover : ∀ attempt ∈ attempts, attempt.source ∈ sourcesOf attempts logins campaigns := by
    intro attempt hattempt
    refine mem_firstKeys.2 ⟨attempt.source, ?_, rfl⟩
    exact List.mem_append_left _ (List.mem_append_left _ (List.mem_map_of_mem hattempt))
  rw [sourceRows, (hperm.map _).sum_eq, List.map_map]
  exact sum_map_filter (nodup_firstKeys _) hcover _

theorem sum_failureGroups (attempts : List Attempt) :
    ((failureGroups attempts).map (·.attempts)).sum = (attempts.map (·.count)).sum := by
  have hperm := List.perm_insertionSort (fun a b : FailureGroup => b.attempts ≤ a.attempts)
    ((firstKeys Attempt.failureKey attempts).map fun key =>
      failureGroup (attempts.filter (·.failureKey = key)) key)
  rw [failureGroups, (hperm.map _).sum_eq, List.map_map]
  exact sum_map_filter (nodup_firstKeys _) (fun a ha => mem_firstKeys.2 ⟨a, ha, rfl⟩) _

/-- The campaigns of one source hold its attempts. -/
theorem sum_clusters {items : List Attempt} (h : ∀ item ∈ items, item.dt ≠ none) (gap : ℤ) :
    ((clusters (·.dt) gap items).map fun cluster => (cluster.map (·.count)).sum).sum =
      (items.map (·.count)).sum := by
  rw [← ((flatten_clusters_of_dated h gap).map _).sum_eq, List.map_flatten, List.sum_flatten,
    List.map_map]
  rfl

theorem sum_campaigns {attempts : List Attempt} (h : ∀ attempt ∈ attempts, attempt.dt ≠ none)
    (logins : List Login) :
    ((campaigns attempts logins).map (·.attempts)).sum = (attempts.map (·.count)).sum := by
  have hsource (source : Text) :
      ((clusters (·.dt) campaignGap (attempts.filter (·.source = source))).map
        fun cluster => (campaignOf logins source cluster).attempts).sum =
      ((attempts.filter (·.source = source)).map (·.count)).sum :=
    sum_clusters (fun item hitem => h item (List.mem_of_mem_filter hitem)) campaignGap
  rw [campaigns, ((List.perm_insertionSort _ _).map _).sum_eq, List.map_flatMap,
    List.flatMap_def, List.sum_flatten]
  simp only [List.map_map, Function.comp_def, hsource]
  exact sum_map_filter (nodup_firstKeys _) (fun a ha => mem_firstKeys.2 ⟨a, ha, rfl⟩) _

/-! ### What the attempts hold -/

/-- Two failures of one process, one with a time and the other without. -/
def Mixed (events : List Event) : Prop :=
  ∃ a ∈ failures events, ∃ b ∈ failures events, a.pid ≠ [] ∧ a.pid = b.pid ∧
    a.evidenceId = b.evidenceId ∧ a.dt ≠ none ∧ b.dt = none

/-- Records of one connection that are both dated and not are two failures of one
process. -/
theorem mixed_of_connection {events : List Event} {a b : Event} (ha : a ∈ failures events)
    (hb : b ∈ failures events) (hkey : a.connection = b.connection) (hadt : a.dt ≠ none)
    (hbdt : b.dt = none) : Mixed events := by
  refine ⟨a, ha, b, hb, ?_⟩
  unfold Event.connection at hkey
  split_ifs at hkey with hpa hpb
  · exact ⟨hpa, (Connection.process.inj hkey).2, (Connection.process.inj hkey).1, hadt, hbdt⟩
  · obtain ⟨-, -, -, -, hsecond⟩ := Connection.moment.inj hkey
    rw [hbdt, Option.map_none, Option.map_eq_none_iff] at hsecond
    exact absurd hsecond hadt

/-- A group whose records all have a time, or none, is held by its connections. -/
theorem flatten_connectionsOf {items : List Event}
    (h : (∀ item ∈ items, item.dt = none) ∨ ∀ item ∈ items, item.dt ≠ none) :
    (connectionsOf items).flatten.Perm items := by
  unfold connectionsOf
  split_ifs with hnil
  · rw [List.flatten_cons, List.flatten_nil, List.append_nil]
  · obtain hundated | hdated := h
    · exact absurd (clusters_eq_nil.2 hundated) hnil
    · exact flatten_clusters_of_dated hdated connectionGap

/-- A record of a connection is in the group, and dated if anything in the group is. -/
theorem mem_connectionsOf {items : List Event} {event : Event}
    (h : event ∈ (connectionsOf items).flatten) :
    event ∈ items ∧ ((∀ item ∈ items, item.dt = none) ∨ event.dt ≠ none) := by
  unfold connectionsOf at h
  split_ifs at h with hnil
  · rw [List.flatten_cons, List.flatten_nil, List.append_nil] at h
    exact ⟨h, .inl (clusters_eq_nil.1 hnil)⟩
  · rw [(flatten_clusters connectionGap items).mem_iff, List.mem_filter] at h
    exact ⟨h.1, .inr (Option.isSome_iff_ne_none.1 h.2)⟩

/-- Every failure is in one attempt exactly when no process has failures with and
without a time. -/
theorem flatten_connections_iff (events : List Event) :
    (connections events).flatten.Perm (failures events) ↔ ¬ Mixed events := by
  rw [connections, List.flatMap_def, List.flatten_flatten, List.map_map]
  constructor
  · rintro hperm ⟨a, ha, b, hb, hpid, hsame, hevidence, hadt, hbdt⟩
    have hkey : a.connection = b.connection := by
      rw [Event.connection, Event.connection, if_pos hpid, if_pos (hsame ▸ hpid), hsame, hevidence]
    obtain ⟨records, hrecords, hmem⟩ := List.mem_flatten.1 (hperm.mem_iff.2 hb)
    obtain ⟨group, hgroup, rfl⟩ := List.mem_map.1 hrecords
    obtain ⟨hbgroup, hdated⟩ := mem_connectionsOf hmem
    obtain ⟨c, hc, rfl⟩ := mem_groups.1 hgroup
    have hbc : b.connection = c.connection := of_decide_eq_true (List.mem_filter.1 hbgroup).2
    have hagroup : a ∈ (failures events).filter (·.connection = c.connection) :=
      List.mem_filter.2 ⟨ha, decide_eq_true (hkey.trans hbc)⟩
    obtain hundated | hdated := hdated
    · exact hadt (hundated a hagroup)
    · exact hdated hbdt
  · intro hmixed
    refine List.Perm.trans ?_ (@flatten_groups Event Connection _ Event.connection (failures events))
    have hgroups : ∀ group ∈ groups Event.connection (failures events),
        (connectionsOf group).flatten.Perm group := by
      intro group hgroup
      obtain ⟨c, hc, rfl⟩ := mem_groups.1 hgroup
      refine flatten_connectionsOf ?_
      by_contra hboth
      push Not at hboth
      obtain ⟨⟨a, ha, hadt⟩, b, hb, hbdt⟩ := hboth
      rw [List.mem_filter, decide_eq_true_eq] at ha hb
      exact hmixed (mixed_of_connection ha.1 hb.1 (ha.2.trans hb.2.symm) hadt hbdt)
    rw [← List.flatMap_def, ← List.flatMap_id]
    exact List.Perm.flatMap_left _ hgroups

/-- What the report says about the failed logins of some events. -/
structure Conserved (events : List Event) : Prop where
  once : (connections events).flatten.Perm (failures events)
  sources : failedAttempts events = ((sourceRows (attempts events) (logins events)
      (campaigns (attempts events) (logins events))).map (·.failedAttempts)).sum
  groups : failedAttempts events = ((failureGroups (attempts events)).map (·.attempts)).sum
  campaigns : (∀ attempt ∈ attempts events, attempt.dt ≠ none) → failedAttempts events =
      ((campaigns (attempts events) (logins events)).map (·.attempts)).sum

/-- **A failed login is lost from the rollups exactly when a process has failures with
and without a time.** -/
theorem conserved_iff (events : List Event) : Conserved events ↔ ¬ Mixed events :=
  ⟨fun h => (flatten_connections_iff events).1 h.once, fun h => {
    once := (flatten_connections_iff events).2 h
    sources := (sum_sourceRows _ _ _).symm
    groups := (sum_failureGroups _).symm
    campaigns := fun hdated => (sum_campaigns hdated _).symm }⟩

/-- Process 700 failed at second one and, in a record without a time, five times more:
the five are in no attempt. -/
def undatedFailures : List Event :=
  [{ bareEvent "a".toList .authLog "700".toList .failure (some 1000000) with
      result := .failure, channel := .explicit },
    { bareEvent "b".toList .journal "700".toList .failure none with
      result := .failure, channel := .pam, count := 5 }]

theorem undatedFailures_lost :
    ¬ Conserved undatedFailures ∧ failedAttempts undatedFailures = 1 := by
  refine ⟨fun h => (flatten_connections_iff undatedFailures).1 h.once ?_, by decide +kernel⟩
  refine ⟨_, .head _, _, .tail _ (.head _), ?_⟩
  decide +kernel

end Kairon.Linux

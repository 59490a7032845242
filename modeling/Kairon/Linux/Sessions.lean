/-
Kairon/Linux/Sessions.lean

Where the sessions of the logins end.

`closeUp` goes through the logins by their start and gives each one the earliest unused
record that can end it: a close of its process, else a logout on its terminal, else the
next restart.  That a session ends after its start and by the next restart, and that a
record ends one session, is so in every run (`endingOf_within`, `closeUp_once`).

The choice of the earliest record is right only while the record belongs to the login:
if the process identifier has passed to another login before the first close, that close
goes to the first login and the second is left open.  `OwnClose` says that this does not
happen, and it is what the sessions need (`sessionsEnd_iff`).
-/
import Kairon.Linux.Auth

namespace Kairon.Linux

open Search Gather

/-! ### The records that end a session -/

def closes (events : List Event) : List Event :=
  events.filter fun event => event.kind = .sessionClose && event.dt.isSome

def logouts (events : List Event) : List Event :=
  events.filter fun event => event.kind = .logout && event.dt.isSome

def restarts (events : List Event) : List Event :=
  byTime (·.dt) (events.filter fun event =>
    (event.kind = .systemBoot || event.kind = .systemShutdown) && event.dt.isSome)

/-- The first restart of the host after the start of a login. -/
def nextRestart (events : List Event) (login : Login) : Option Event :=
  login.dt.bind fun start => (restarts events).find? fun event =>
    event.evidenceId = login.evidenceId && event.dt.any (start < ·)

/-- A time from the start of a login to the next restart. -/
def inSpan (events : List Event) (login : Login) (event : Event) : Bool :=
  login.dt.any fun start => event.dt.any fun t =>
    start ≤ t && ((nextRestart events login).bind (·.dt)).all (t ≤ ·)

/-- A close of a process of the login. -/
def closing (events : List Event) (login : Login) (event : Event) : Bool :=
  event.evidenceId = login.evidenceId && event.pid ∈ login.sessionPids &&
    inSpan events login event && (event.username = [] || event.username = login.username)

/-- A logout on the terminal of the login. -/
def loggingOut (events : List Event) (login : Login) (event : Event) : Bool :=
  event.evidenceId = login.evidenceId && event.terminal = login.wtmpTerminal &&
    inSpan events login event &&
    (login.wtmpPid = [] || event.pid = [] || event.pid = login.wtmpPid)

/-- The closes of a login among the records that are not used. -/
def closesOf (events : List Event) (used : List Text) (login : Login) : List Event :=
  (closes events).filter fun event => event.id ∉ used && closing events login event

def logoutsOf (events : List Event) (used : List Text) (login : Login) : List Event :=
  (logouts events).filter fun event => event.id ∉ used && loggingOut events login event

/-- The close or logout that ends a session. -/
def endRecord (events : List Event) (used : List Text) (login : Login) : Option Event :=
  earliest (·.dt.getD 0)
    (if closesOf events used login = [] ∧ login.wtmpTerminal ≠ [] then
      logoutsOf events used login
    else closesOf events used login)

/-! ### Sessions -/

inductive Status
  | closed | endedByRestart | noCloseRecord
  deriving DecidableEq

/-- A login with the record that ends its session. -/
structure Ending where
  login : Login
  endEvent : Option Event
  status : Status
  deriving DecidableEq

/-- One round of the loop.  A login without a time is not looked at and keeps the
first status. -/
def endingOf (events : List Event) (used : List Text) (login : Login) : Ending where
  login := login
  endEvent := (endRecord events used login).or (nextRestart events login)
  status :=
    if (endRecord events used login).isSome ∨ login.dt = none then .closed
    else if (nextRestart events login).isSome then .endedByRestart
    else .noCloseRecord

/-- The loop over the logins, with the records used so far. -/
def closeUp (events : List Event) : List Text → List Login → List Ending
  | _, [] => []
  | used, login :: rest =>
    endingOf events used login ::
      closeUp events (used ++ ((endRecord events used login).map (·.id)).toList) rest

def endings (logins : List Login) (events : List Event) : List Ending :=
  closeUp events [] (byTime (·.dt) logins)

inductive SessionKind
  | ssh | graphical | console | other

/-- `_session_kind`. -/
def sessionKind (login : Login) : SessionKind :=
  let terminal := orText login.terminal login.wtmpTerminal
  if login.service = "sshd".toList ∨ "ssh".toList <+: terminal then .ssh
  else if (∃ name ∈ ["gdm", "lightdm", "sddm", "xdm", "xrdp"].map String.toList,
      name <:+: login.service) ∨ ":".toList <+: terminal then .graphical
  else if login.service = "login".toList ∨ "tty".toList <+: terminal then .console
  else .other

/-- `text.replace(old, new, 1)`. -/
def replaceFirst (old new : Text) : Text → Text
  | [] => []
  | c :: cs =>
    if old <+: c :: cs then new ++ (c :: cs).drop old.length
    else c :: replaceFirst old new cs

structure Session where
  id : Text
  kind : SessionKind
  username : Text
  sourceIp : Text
  sourcePort : Option Text
  service : Text
  method : Text
  terminal : Text
  host : Text
  start : Option ℤ
  end_ : Option ℤ
  durationSeconds : Option ℤ
  status : Status
  carriers : Finset Carrier
  eventIds : List Text

def sessionOf (ending : Ending) : Session where
  id := replaceFirst "login-".toList "session-".toList ending.login.id
  kind := sessionKind ending.login
  username := ending.login.username
  sourceIp := ending.login.sourceIp
  sourcePort := ending.login.sourcePort
  service := ending.login.service
  method := ending.login.method
  terminal := orText ending.login.terminal ending.login.wtmpTerminal
  host := ending.login.host
  start := ending.login.dt
  end_ := ending.endEvent.bind (·.dt)
  durationSeconds := ending.login.dt.bind fun start =>
    (ending.endEvent.bind (·.dt)).map fun t => (t - start).tdiv 1000000
  status := ending.status
  carriers := ending.login.carriers
  eventIds := ending.login.eventIds.take 5

/-- `item["start"] or ""`. -/
def Session.startText (session : Session) : Text := (session.start.map iso).getD []

/-- `_sessions`. -/
def sessions (logins : List Login) (events : List Event) : List Session :=
  ((endings logins events).map sessionOf).insertionSort fun a b => b.startText ≤ a.startText

/-! ### One session -/

variable {events : List Event} {used : List Text} {login later : Login}

def Event.isRestart (event : Event) : Prop :=
  event.kind = .systemBoot ∨ event.kind = .systemShutdown

variable {event : Event}

theorem mem_restarts :
    event ∈ restarts events ↔ event ∈ events ∧ event.isRestart ∧ event.dt ≠ none := by
  rw [restarts, (byTime_perm _ _).mem_iff, List.mem_filter]
  simp [Event.isRestart, Option.isSome_iff_ne_none]

/-- The next restart comes after the start, and none of the host comes between. -/
theorem nextRestart_spec {restart : Event} (h : nextRestart events login = some restart) :
    restart ∈ restarts events ∧ ∃ start t, login.dt = some start ∧ restart.dt = some t ∧
      start < t ∧ ∀ other ∈ events, other.isRestart → other.evidenceId = login.evidenceId →
        ∀ u, other.dt = some u → start < u → t ≤ u := by
  obtain ⟨start, hstart, hfind⟩ := Option.bind_eq_some_iff.1 h
  obtain ⟨hp, before, after, hlist, hbefore⟩ := List.find?_eq_some_iff_append.1 hfind
  rw [Bool.and_eq_true, decide_eq_true_eq, Option.any_eq_true] at hp
  obtain ⟨hevidence, t, ht, hlt⟩ := hp
  have hmem : restart ∈ restarts events := List.mem_of_find?_eq_some hfind
  refine ⟨hmem, start, t, hstart, ht, of_decide_eq_true hlt, ?_⟩
  intro other hother hkind hsame u hu hafter
  have hsorted : (restarts events).Pairwise fun a b => sortKey a.dt ≤ sortKey b.dt :=
    byTime_sorted _ _
  have hin : other ∈ before ++ restart :: after := by
    rw [← hlist]
    exact mem_restarts.2 ⟨hother, hkind, by rw [hu]; exact Option.some_ne_none u⟩
  rw [hlist, List.pairwise_append] at hsorted
  rcases List.mem_append.1 hin with hin | hin
  · have hnot := hbefore other hin
    simp [hsame, hu, hafter] at hnot
  · rcases List.mem_cons.1 hin with rfl | hin
    · exact (Option.some.inj (ht.symm.trans hu)).le
    · have hle := (List.pairwise_cons.1 hsorted.2.1).1 other hin
      rw [ht, hu] at hle
      exact hle

theorem inSpan_spec (h : inSpan events login event) :
    ∃ start t, login.dt = some start ∧ event.dt = some t ∧ start ≤ t ∧
      ∀ restart, nextRestart events login = some restart → ∀ u, restart.dt = some u → t ≤ u := by
  obtain ⟨start, hstart, h⟩ := (Option.any_eq_true _ _).1 h
  obtain ⟨t, ht, h⟩ := (Option.any_eq_true _ _).1 h
  rw [Bool.and_eq_true, decide_eq_true_eq] at h
  refine ⟨start, t, hstart, ht, h.1, fun restart hrestart u hu => ?_⟩
  rw [hrestart, Option.bind_some, hu] at h
  exact of_decide_eq_true h.2

theorem mem_closesOf : event ∈ closesOf events used login ↔
      (event ∈ events ∧ event.kind = .sessionClose ∧ event.dt ≠ none) ∧ event.id ∉ used ∧
        closing events login event := by
  simp only [closesOf, closes, List.mem_filter, Bool.and_eq_true, decide_eq_true_eq,
    Option.isSome_iff_ne_none]

theorem mem_logoutsOf : event ∈ logoutsOf events used login ↔
      (event ∈ events ∧ event.kind = .logout ∧ event.dt ≠ none) ∧ event.id ∉ used ∧
        loggingOut events login event := by
  simp only [logoutsOf, logouts, List.mem_filter, Bool.and_eq_true, decide_eq_true_eq,
    Option.isSome_iff_ne_none]

/-- The record found is an unused close of the login, or without any an unused logout. -/
theorem endRecord_cases (h : endRecord events used login = some event) :
    event ∈ closesOf events used login ∨
      closesOf events used login = [] ∧ event ∈ logoutsOf events used login := by
  have hmem := (earliest_spec h).1
  split_ifs at hmem with hnone
  · exact .inr ⟨hnone.1, hmem⟩
  · exact .inl hmem

theorem endRecord_inSpan (h : endRecord events used login = some event) :
    event ∈ events ∧ event.id ∉ used ∧ ¬ event.isRestart ∧ inSpan events login event := by
  rcases endRecord_cases h with hmem | ⟨-, hmem⟩
  · obtain ⟨⟨hevents, hkind, -⟩, hused, hclosing⟩ := mem_closesOf.1 hmem
    simp only [closing, Bool.and_eq_true] at hclosing
    exact ⟨hevents, hused, by simp [Event.isRestart, hkind], hclosing.1.2⟩
  · obtain ⟨⟨hevents, hkind, -⟩, hused, hlogging⟩ := mem_logoutsOf.1 hmem
    simp only [loggingOut, Bool.and_eq_true] at hlogging
    exact ⟨hevents, hused, by simp [Event.isRestart, hkind], hlogging.1.2⟩

/-- The end lies between the start and every restart of the host that follows it. -/
def Within (events : List Event) (ending : Ending) : Prop :=
  ∀ event, ending.endEvent = some event → ∃ start t, ending.login.dt = some start ∧
    event.dt = some t ∧ start ≤ t ∧
    ∀ restart ∈ events, restart.isRestart → restart.evidenceId = ending.login.evidenceId →
      ∀ u, restart.dt = some u → start < u → t ≤ u

theorem endingOf_within (events : List Event) (used : List Text) (login : Login) :
    Within events (endingOf events used login) := by
  intro event hend
  rcases Option.or_eq_some_iff.1 hend with hrecord | ⟨-, hrestart⟩
  · obtain ⟨start, t, hstart, ht, hle, hnext⟩ := inSpan_spec (endRecord_inSpan hrecord).2.2.2
    refine ⟨start, t, hstart, ht, hle, ?_⟩
    intro restart hrestart hkind hsame u hu hlt
    rcases hcase : nextRestart events login with - | next
    · -- a restart after the start would have been found
      have hfind := hcase
      rw [nextRestart, hstart, Option.bind_some, List.find?_eq_none] at hfind
      have hnot := hfind restart
        (mem_restarts.2 ⟨hrestart, hkind, by rw [hu]; exact Option.some_ne_none u⟩)
      have hsame' : restart.evidenceId = login.evidenceId := hsame
      simp [hsame', hu, hlt] at hnot
    · obtain ⟨-, start', v, hstart', hv, -, hfirst⟩ := nextRestart_spec hcase
      obtain rfl := Option.some.inj (hstart.symm.trans hstart')
      exact (hnext next hcase v hv).trans (hfirst restart hrestart hkind hsame u hu hlt)
  · obtain ⟨-, start, t, hstart, ht, hlt, hfirst⟩ := nextRestart_spec hrestart
    exact ⟨start, t, hstart, ht, hlt.le, hfirst⟩

/-! ### All sessions -/

variable {logins : List Login}

theorem mem_closeUp {ending : Ending} (h : ending ∈ closeUp events used logins) :
    ∃ taken, ∃ login ∈ logins, ending = endingOf events taken login := by
  induction logins generalizing used with
  | nil => cases h
  | cons login rest ih =>
    rcases List.mem_cons.1 h with rfl | h
    · exact ⟨used, login, .head _, rfl⟩
    · obtain ⟨taken, other, hother, heq⟩ := ih h
      exact ⟨taken, other, List.mem_cons_of_mem login hother, heq⟩

theorem map_login_closeUp (events : List Event) (used : List Text) (logins : List Login) :
    (closeUp events used logins).map (·.login) = logins := by
  induction logins generalizing used with
  | nil => rfl
  | cons login rest ih => exact congrArg (login :: ·) (ih _)

/-- A record that is no restart and ends a session was unused before. -/
theorem endingOf_notMem (hend : (endingOf events used login).endEvent = some event)
    (hkind : ¬ event.isRestart) : endRecord events used login = some event ∧ event.id ∉ used := by
  rcases Option.or_eq_some_iff.1 hend with hrecord | ⟨-, hrestart⟩
  · exact ⟨hrecord, (endRecord_inSpan hrecord).2.1⟩
  · exact absurd (mem_restarts.1 (nextRestart_spec hrestart).1).2.1 hkind

/-- The two sessions are not ended by one close or logout. -/
def EndedApart (first second : Ending) : Prop :=
  ∀ event other, first.endEvent = some event → second.endEvent = some other →
    ¬ event.isRestart → ¬ other.isRestart → event.id ≠ other.id

theorem closeUp_unused {ending : Ending} (h : ending ∈ closeUp events used logins)
    (hend : ending.endEvent = some event) (hkind : ¬ event.isRestart) : event.id ∉ used := by
  induction logins generalizing used with
  | nil => cases h
  | cons login rest ih =>
    rcases List.mem_cons.1 h with rfl | h
    · exact (endingOf_notMem hend hkind).2
    · exact fun hmem => ih h (List.mem_append_left _ hmem)

theorem closeUp_once (events : List Event) (used : List Text) (logins : List Login) :
    (closeUp events used logins).Pairwise EndedApart := by
  induction logins generalizing used with
  | nil => exact List.Pairwise.nil
  | cons login rest ih =>
    refine List.pairwise_cons.2 ⟨?_, ih _⟩
    intro later hlater event other hend hother hkind hkind' heq
    have hrecord := (endingOf_notMem hend hkind).1
    refine closeUp_unused hlater hother hkind' (List.mem_append_right _ ?_)
    rw [hrecord, ← heq]
    exact List.mem_singleton_self event.id

/-! ### Whose record a close is -/

/-- The close is one of the login by its host, its process, its account and its time. -/
def Closable (login : Login) (event : Event) : Prop :=
  login.evidenceId = event.evidenceId ∧ event.pid ∈ login.sessionPids ∧
    (event.username = [] ∨ event.username = login.username) ∧
    ∃ start t, login.dt = some start ∧ event.dt = some t ∧ start ≤ t

/-- The first close of a login, whether or not another login has used it. -/
def firstClose (events : List Event) (login : Login) : Option Event :=
  earliest (·.dt.getD 0) (closesOf events [] login)

/-- The first logout on the terminal of a login. -/
def firstLogout (events : List Event) (login : Login) : Option Event :=
  earliest (·.dt.getD 0) (if login.wtmpTerminal = [] then [] else logoutsOf events [] login)

/-- Where the records say that a session ends, with no other login in view. -/
def ownEnd (events : List Event) (login : Login) : Option Event :=
  ((firstClose events login).or (firstLogout events login)).or (nextRestart events login)

/-- The first close of a login is no close of a later login. -/
def OwnClose (logins : List Login) (events : List Event) : Prop :=
  (byTime (·.dt) logins).Pairwise fun login later =>
    ∀ event, firstClose events login = some event → ¬ Closable later event

/-- The same of the closes that have a process. -/
def OwnProcessClose (logins : List Login) (events : List Event) : Prop :=
  (byTime (·.dt) logins).Pairwise fun login later =>
    ∀ event, firstClose events login = some event → event.pid ≠ [] → ¬ Closable later event

/-- Two logins without a close do not begin with one logout. -/
def OwnLogout (logins : List Login) (events : List Event) : Prop :=
  (byTime (·.dt) logins).Pairwise fun login later =>
    firstClose events login = none → firstClose events later = none →
      ∀ event, firstLogout events login = some event → firstLogout events later ≠ some event

/-- One process of one host is a process of both. -/
def ShareProcess (login later : Login) : Prop :=
  login.evidenceId = later.evidenceId ∧
    ∃ pid, pid ≠ [] ∧ pid ∈ login.sessionPids ∧ pid ∈ later.sessionPids

/-- The record is not written after the start of the login. -/
def NotAfter (event : Event) (later : Login) : Prop :=
  ∀ t start, event.dt = some t → later.dt = some start → t ≤ start

/-- When a process passes to a later login, what ends the first has been written. -/
def HandedOn (logins : List Login) (events : List Event) : Prop :=
  (byTime (·.dt) logins).Pairwise fun login later => ShareProcess login later →
    ∀ event, ownEnd events login = some event → NotAfter event later

/-- Where the sessions end. -/
structure SessionsEnd (logins : List Login) (events : List Event) : Prop where
  within : ∀ ending ∈ endings logins events, Within events ending
  once : (endings logins events).Pairwise EndedApart
  latest : (endings logins events).Pairwise fun ending later => ∀ event,
    ending.endEvent = some event → event.kind = .sessionClose → event.pid ≠ [] →
      ¬ Closable later.login event
  apart : (endings logins events).Pairwise fun ending later =>
    ShareProcess ending.login later.login → ∀ event, ending.endEvent = some event →
      NotAfter event later.login

/-- An identifier names one event. -/
def Identified (events : List Event) : Prop :=
  ∀ event ∈ events, ∀ other ∈ events, event.id = other.id → event = other

theorem Closable.of_closing (h : closing events login event) : Closable login event := by
  simp only [closing, Bool.and_eq_true, Bool.or_eq_true, decide_eq_true_eq] at h
  obtain ⟨⟨⟨hevidence, hpid⟩, hspan⟩, huser⟩ := h
  obtain ⟨start, t, hstart, ht, hle, -⟩ := inSpan_spec hspan
  exact ⟨hevidence.symm, hpid, huser, start, t, hstart, ht, hle⟩

theorem firstClose_spec (h : firstClose events login = some event) :
    event ∈ events ∧ event.kind = .sessionClose ∧ Closable login event := by
  obtain ⟨⟨hevents, hkind, -⟩, -, hclosing⟩ := mem_closesOf.1 (earliest_spec h).1
  exact ⟨hevents, hkind, Closable.of_closing hclosing⟩

theorem firstLogout_spec (h : firstLogout events login = some event) :
    event ∈ events ∧ event.kind = .logout := by
  have hmem := (earliest_spec h).1
  split_ifs at hmem with hterminal
  · cases hmem
  · exact ⟨(mem_logoutsOf.1 hmem).1.1, (mem_logoutsOf.1 hmem).1.2.1⟩

theorem closesOf_eq_filter (events : List Event) (used : List Text) (login : Login) :
    closesOf events used login = (closesOf events [] login).filter (·.id ∉ used) := by
  rw [closesOf, closesOf, List.filter_filter]
  refine List.filter_congr fun event _ => ?_
  simp

theorem logoutsOf_eq_filter (events : List Event) (used : List Text) (login : Login) :
    logoutsOf events used login = (logoutsOf events [] login).filter (·.id ∉ used) := by
  rw [logoutsOf, logoutsOf, List.filter_filter]
  refine List.filter_congr fun event _ => ?_
  simp

/-- An unused first close ends the session. -/
theorem endRecord_of_firstClose (h : firstClose events login = some event)
    (hused : event.id ∉ used) : endRecord events used login = some event := by
  have hfirst : earliest (·.dt.getD 0) (closesOf events used login) = some event := by
    rw [closesOf_eq_filter]
    exact earliest_filter h (decide_eq_true hused)
  have hne : closesOf events used login ≠ [] := fun hnil => by
    rw [hnil] at hfirst
    cases hfirst
  rw [endRecord, if_neg fun hnone => hne hnone.1]
  exact hfirst

/-- Without a close the session is ended by the first logout, if it is unused. -/
theorem endRecord_of_firstLogout (h : firstClose events login = none)
    (hused : ∀ event, firstLogout events login = some event → event.id ∉ used) :
    endRecord events used login = firstLogout events login := by
  have hnil : closesOf events used login = [] := by
    rw [closesOf_eq_filter, earliest_eq_none.1 h, List.filter_nil]
  unfold endRecord firstLogout at *
  by_cases hterminal : login.wtmpTerminal = []
  · rw [if_neg fun hnone => hnone.2 hterminal, if_pos hterminal, hnil]
  · rw [if_pos ⟨hnil, hterminal⟩, if_neg hterminal, logoutsOf_eq_filter]
    rw [if_neg hterminal] at hused
    rcases hfirst : earliest (·.dt.getD 0) (logoutsOf events [] login) with - | event
    · rw [earliest_eq_none.1 hfirst]
      rfl
    · rw [hfirst]
      refine earliest_filter hfirst ?_
      exact decide_eq_true (hused event hfirst)

/-! ### Sessions ended by their own records -/

/-- A used record is no close of a login to come, and not the logout it begins with. -/
def Foreign (events : List Event) (used : List Text) (login : Login) : Prop :=
  ∀ event ∈ events, event.id ∈ used → (event.kind = .sessionClose → ¬ Closable login event) ∧
    (event.kind = .logout → firstClose events login = none → firstLogout events login ≠ some event)

theorem endRecord_own (hforeign : Foreign events used login) :
    endRecord events used login = (firstClose events login).or (firstLogout events login) := by
  rcases hfirst : firstClose events login with - | event
  · rw [Option.none_or]
    refine endRecord_of_firstLogout hfirst fun event hlogout hused => ?_
    obtain ⟨hevent, hkind⟩ := firstLogout_spec hlogout
    exact (hforeign event hevent hused).2 hkind hfirst hlogout
  · obtain ⟨hevent, hkind, hclosable⟩ := firstClose_spec hfirst
    rw [Option.some_or]
    exact endRecord_of_firstClose hfirst fun hused =>
      (hforeign event hevent hused).1 hkind hclosable

/-- **Step lemma**: after a login that is ended by its own record, the used records are
still foreign to the logins to come. -/
theorem foreign_step (hid : Identified events) (hlogin : Foreign events used login)
    (hforeign : Foreign events used later)
    (hclose : ∀ event, firstClose events login = some event → ¬ Closable later event)
    (hlogout : firstClose events login = none → firstClose events later = none →
      ∀ event, firstLogout events login = some event → firstLogout events later ≠ some event) :
    Foreign events (used ++ ((endRecord events used login).map (·.id)).toList) later := by
  intro event hevent hmem
  rcases List.mem_append.1 hmem with hused | hrecord
  · exact hforeign event hevent hused
  · rw [Option.mem_toList, Option.map_eq_some_iff] at hrecord
    obtain ⟨record, hrecord, heq⟩ := hrecord
    obtain rfl := hid record (endRecord_inSpan hrecord).1 event hevent heq
    rw [endRecord_own hlogin] at hrecord
    rcases Option.or_eq_some_iff.1 hrecord with hfirst | ⟨hnone, hfirst⟩
    · refine ⟨fun _ => hclose record hfirst, fun hkind => ?_⟩
      exact absurd ((firstClose_spec hfirst).2.1.symm.trans hkind) (by decide)
    · refine ⟨fun hkind => ?_, fun _ hlater => hlogout hnone hlater record hfirst⟩
      exact absurd ((firstLogout_spec hfirst).2.symm.trans hkind) (by decide)

/-- **Run lemma**: when the logins do not share their first records, every session ends
where its own records say. -/
theorem closeUp_own (hid : Identified events)
    (hforeign : ∀ login ∈ logins, Foreign events used login)
    (hclose : logins.Pairwise fun login later =>
      ∀ event, firstClose events login = some event → ¬ Closable later event)
    (hlogout : logins.Pairwise fun login later =>
      firstClose events login = none → firstClose events later = none →
        ∀ event, firstLogout events login = some event → firstLogout events later ≠ some event) :
    ∀ ending ∈ closeUp events used logins, ending.endEvent = ownEnd events ending.login := by
  induction logins generalizing used with
  | nil => exact fun _ h => absurd h List.not_mem_nil
  | cons login rest ih =>
    obtain ⟨hclose, hcloses⟩ := List.pairwise_cons.1 hclose
    obtain ⟨hlogout, hlogouts⟩ := List.pairwise_cons.1 hlogout
    obtain ⟨hlogin, hrest⟩ := List.forall_mem_cons.1 hforeign
    refine List.forall_mem_cons.2 ⟨?_, ih (fun later hlater => ?_) hcloses hlogouts⟩
    · exact congrArg (·.or (nextRestart events login)) (endRecord_own hlogin)
    · exact foreign_step hid hlogin (hrest later hlater) (hclose later hlater)
        (hlogout later hlater)

/-- A close that is the own end of a login is its first close. -/
theorem firstClose_of_ownEnd (h : ownEnd events login = some event)
    (hkind : event.kind = .sessionClose) : firstClose events login = some event := by
  rcases Option.or_eq_some_iff.1 h with h | ⟨-, hrestart⟩
  · rcases Option.or_eq_some_iff.1 h with hfirst | ⟨-, hlogout⟩
    · exact hfirst
    · exact absurd ((firstLogout_spec hlogout).2.symm.trans hkind) (by decide)
  · have hboot := (mem_restarts.1 (nextRestart_spec hrestart).1).2.1
    rw [Event.isRestart, hkind] at hboot
    exact absurd hboot (by decide)

/-! ### When the sessions end where they should -/

/-- When every close that has a process ends the latest login, no first close is one
of a later login. -/
theorem ownProcessClose_of_latest (hid : Identified events)
    (hforeign : ∀ event ∈ events, event.kind = .sessionClose → event.pid ≠ [] →
      event.id ∈ used → ∀ login ∈ logins, ¬ Closable login event)
    (hlatest : (closeUp events used logins).Pairwise fun ending later => ∀ event,
      ending.endEvent = some event → event.kind = .sessionClose → event.pid ≠ [] →
        ¬ Closable later.login event) :
    logins.Pairwise fun login later => ∀ event, firstClose events login = some event →
      event.pid ≠ [] → ¬ Closable later event := by
  induction logins generalizing used with
  | nil => exact List.Pairwise.nil
  | cons login rest ih =>
    obtain ⟨hhead, htail⟩ := List.pairwise_cons.1 hlatest
    have hrest : ∀ event, endRecord events used login = some event →
        event.kind = .sessionClose → event.pid ≠ [] → ∀ later ∈ rest, ¬ Closable later event := by
      intro event hrecord hkind hpid later hlater
      rw [← map_login_closeUp events _ rest] at hlater
      obtain ⟨ending, hending, rfl⟩ := List.mem_map.1 hlater
      refine hhead ending hending event ?_ hkind hpid
      show (endRecord events used login).or _ = some event
      rw [hrecord, Option.some_or]
    refine List.pairwise_cons.2 ⟨fun later hlater event hfirst hpid => ?_, ih ?_ htail⟩
    · obtain ⟨hevent, hkind, hclosable⟩ := firstClose_spec hfirst
      have hused : event.id ∉ used := fun hmem =>
        hforeign event hevent hkind hpid hmem login (.head _) hclosable
      exact hrest event (endRecord_of_firstClose hfirst hused) hkind hpid later hlater
    · intro event hevent hkind hpid hmem later hlater
      rcases List.mem_append.1 hmem with hused | hrecord
      · exact hforeign event hevent hkind hpid hused later (List.mem_cons_of_mem login hlater)
      · rw [Option.mem_toList, Option.map_eq_some_iff] at hrecord
        obtain ⟨record, hrecord, heq⟩ := hrecord
        obtain rfl := hid record (endRecord_inSpan hrecord).1 event hevent heq
        exact hrest record hrecord hkind hpid later hlater

/-- A relation of the logins holds of the endings they have, and the other way. -/
theorem pairwise_endings {R : Login → Login → Prop} :
    ((endings logins events).Pairwise fun ending later => R ending.login later.login) ↔
      (byTime (·.dt) logins).Pairwise R := by
  rw [endings, ← List.pairwise_map, map_login_closeUp]

def loginAt (id : Text) (t : ℤ) : Login :=
  newLogin { bareEvent id .authLog "700".toList .login (some t) with channel := .auth }

def closeAt (id : Text) (t : ℤ) : Event :=
  bareEvent id .authLog "700".toList .sessionClose (some t)

def firstLogin : Login := loginAt "a".toList 1000000
def secondLogin : Login := loginAt "b".toList 100000000

theorem byTime_logins : byTime (·.dt) [firstLogin, secondLogin] = [firstLogin, secondLogin] := by
  decide +kernel

end Kairon.Linux

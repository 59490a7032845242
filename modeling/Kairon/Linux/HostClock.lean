/-
Kairon/Linux/HostClock.lean

When a host was running, from its login records.

The boots and shutdowns in the records become a list of intervals from boot to end, in order and
without overlap (`readUptime_ordered`).  A moment is in one of them, give or take ten minutes at
both ends, exactly if it is in the one that begins last (`runningAt_iff`); the intervals before that
one have ended when it begins.  A `datetime` has a last year, so the ten minutes can be too many:
the sum raises at the end of the year 9999, and this is the only thing that can go wrong.
-/
import Kairon.Lib.Spans
import Kairon.Search.Safety

namespace Kairon.Linux

open Search (UtcDateTime InYears dayMicros maxOrdinal yearOf stamp_ofStamp ok_bind)
open Spans Settle

/-! ### Dates and times -/

/-- A `datetime`, in UTC or in local time, as the context says. -/
abbrev DateTime := UtcDateTime

/-- A date that is not in the years 1..9999. -/
inductive DateError
  | overflow

/-- `d + timedelta(..)`. -/
def plus (d : DateTime) (micros : ℕ) : Except DateError DateTime :=
  if h : InYears (d.stamp + micros : ℕ) then .ok (.ofStamp (d.stamp + micros : ℕ) h)
  else .error .overflow

theorem plus_ok {d : DateTime} {micros : ℕ} (h : InYears (d.stamp + micros : ℕ)) :
    ∃ e, plus d micros = .ok e ∧ e.stamp = d.stamp + micros := by
  refine ⟨_, dif_pos h, ?_⟩
  have hstamp := stamp_ofStamp h
  exact_mod_cast hstamp

theorem stamp_plus {d e : DateTime} {micros : ℕ} (h : plus d micros = .ok e) :
    e.stamp = d.stamp + micros := by
  unfold plus at h
  split at h
  · next hyears =>
      cases h
      have hstamp := stamp_ofStamp hyears
      exact_mod_cast hstamp
  · cases h

/-- `max(a, b)`: the first one where they are the same. -/
def later (a b : DateTime) : DateTime := if a.stamp < b.stamp then b else a

theorem le_later_right (a b : DateTime) : b.stamp ≤ (later a b).stamp := by
  unfold later
  split
  · exact le_rfl
  · next h => exact not_lt.1 h

/-- Ten minutes. -/
def uptimeSlack : ℕ := 600000000

/-! ### Running -/

/-- From boot to end; the end is missing while the last boot never ended. -/
abbrev Interval := DateTime × Option DateTime

/-- The beginning and the end of an interval as instants. -/
def spanOf (interval : Interval) : Span ℕ := (interval.1.stamp, interval.2.map UtcDateTime.stamp)

/-- `HostClock.running_at`. -/
def runningAt (uptime : List Interval) (moment : DateTime) : Except DateError Bool :=
  if uptime = [] then .ok false
  else
    plus moment uptimeSlack >>= fun upTo =>
      match Bisect.bisectRight (uptime.map fun interval => interval.1.stamp) upTo.stamp with
      | 0 => .ok false
      | n + 1 =>
        match uptime[n]? with
        | none => .ok false
        | some (_, none) => .ok true
        | some (_, some stop) =>
          (plus stop uptimeSlack).map fun limit => decide (moment.stamp ≤ limit.stamp)

/-- `HostClock.boot_years`, each as often as there are intervals with it. -/
def bootYears (uptime : List Interval) : List ℕ :=
  uptime.flatMap fun interval =>
    let first := yearOf interval.1.ordinal
    let last := yearOf (interval.2.getD interval.1).ordinal
    List.range' first (last + 1 - first)

/-! ### Reading the records -/

/-- A boot or a shutdown. -/
structure BootEvent where
  moment : DateTime
  isBoot : Bool

/-- The order of `(moment, action)`: of two events of one moment the boot comes first, since
`system_boot` is the smaller text. -/
def BootEvent.le (a b : BootEvent) : Bool :=
  a.moment.stamp < b.moment.stamp || (a.moment.stamp = b.moment.stamp && (a.isBoot || !b.isBoot))

/-- What a record says. -/
inductive Action
  | systemBoot
  | systemShutdown
  | other
  deriving DecidableEq

/-- A row of `parse_wtmp_btmp`. -/
structure LoginRow where
  timestamp : Option DateTime
  eventAction : Action

/-- A file `wtmp*` or `btmp*`.  The modification time is missing where the file cannot be asked for
it or it is no date; the rows are missing where the file cannot be read. -/
structure RecordFile where
  isWtmp : Bool
  isGzip : Bool
  size : ℕ
  modified : Option DateTime
  rows : Option (List LoginRow)

/-- What the loop over the files knows. -/
structure Records where
  events : List BootEvent
  lastSeen : Option DateTime

/-- `last_seen = max(last_seen, moment) if last_seen else moment`. -/
def see (lastSeen : Option DateTime) (moment : DateTime) : Option DateTime :=
  some (lastSeen.elim moment fun seen => later seen moment)

/-- One row of a file. -/
def readRow (isWtmp : Bool) (records : Records) (row : LoginRow) : Records :=
  match row.timestamp with
  | none => records
  | some moment =>
    let lastSeen := see records.lastSeen moment
    if isWtmp ∧ row.eventAction ≠ .other then
      ⟨records.events ++ [⟨moment, row.eventAction = .systemBoot⟩], lastSeen⟩
    else ⟨records.events, lastSeen⟩

/-- One file: a compressed or a large one is passed over, and so is one that fails. -/
def readFile (fresh : DateTime) (records : Records) (file : RecordFile) : Records :=
  if file.isGzip ∨ file.size > 64 * 1024 * 1024 then records
  else
    match file.modified with
    | none => records
    | some modified =>
      -- a modification time kept from the evidence, not the extraction time
      let records : Records :=
        if modified.stamp < fresh.stamp then
          ⟨records.events, see records.lastSeen modified⟩
        else records
      (file.rows.getD []).foldl (readRow file.isWtmp) records

/-- One event; the last interval stands first. -/
def noteEvent : List Interval → BootEvent → List Interval
  | (start, none) :: intervals, event =>
    if event.isBoot then
      -- booted again without a shutdown record
      (event.moment, none) :: (start, some event.moment) :: intervals
    else (start, some event.moment) :: intervals
  | intervals, event => if event.isBoot then (event.moment, none) :: intervals else intervals

/-- The last boot never ended in the records: it ran at least until the last thing they saw. -/
def closeLast (lastSeen : Option DateTime) : List Interval → Except DateError (List Interval)
  | (start, none) :: intervals =>
    match lastSeen with
    | some seen => (plus (later seen start) dayMicros).map fun stop =>
      (start, some stop) :: intervals
    | none => .ok ((start, none) :: intervals)
  | intervals => .ok intervals

/-- `_read_uptime`, of the files in the order of their names; `fresh` is a day ago. -/
def readUptime (fresh : DateTime) (files : List RecordFile) : Except DateError (List Interval) :=
  let records := files.foldl (readFile fresh) ⟨[], none⟩
  let events := records.events.mergeSort BootEvent.le
  (closeLast records.lastSeen (events.foldl noteEvent [])).map List.reverse

/-! ### The intervals are in order -/

/-- The instants of intervals of which the last one stands first. -/
def spansOf (intervals : List Interval) : List (Span ℕ) := (intervals.map spanOf).reverse

theorem spansOf_cons (interval : Interval) (intervals : List Interval) :
    spansOf (interval :: intervals) = spansOf intervals ++ [spanOf interval] := by
  rw [spansOf, List.map_cons, List.reverse_cons]
  rfl

/-- Intervals made of the events up to an instant. -/
structure MadeUpTo (intervals : List Interval) (now : ℕ) : Prop where
  ordered : Ordered (spansOf intervals)
  started : ∀ a ∈ spansOf intervals, a.1 ≤ now
  ended : ∀ a ∈ spansOf intervals, ∀ stop, a.2 = some stop → stop ≤ now

section Events

variable {intervals : List Interval} {now : ℕ}

/-- Intervals without an open one may be followed by another. -/
theorem MadeUpTo.closed (h : MadeUpTo intervals now)
    (hclosed : ∀ start, intervals.head? ≠ some (start, none)) :
    ∀ a ∈ spansOf intervals, ∃ stop, a.2 = some stop ∧ stop ≤ now := by
  intro a ha
  rcases intervals with - | ⟨⟨start, stop⟩, intervals⟩
  · cases ha
  have hcons := spansOf_cons (start, stop) intervals
  rcases stop with - | stop
  · exact absurd rfl (hclosed start)
  have hmem := ha
  rw [hcons, List.mem_append, List.mem_singleton] at hmem
  obtain hmem | rfl := hmem
  · have hordered := h.ordered
    rw [hcons, ordered_concat] at hordered
    obtain ⟨stop', hstop', -⟩ := hordered.2.1 a hmem
    exact ⟨stop', hstop', h.ended a ha stop' hstop'⟩
  · exact ⟨stop.stamp, rfl, h.ended _ ha _ rfl⟩

/-- A boot may follow intervals that have ended. -/
theorem MadeUpTo.boot {moment : DateTime} (h : MadeUpTo intervals now) (hle : now ≤ moment.stamp)
    (hclosed : ∀ start, intervals.head? ≠ some (start, none)) :
    MadeUpTo ((moment, none) :: intervals) moment.stamp := by
  refine ⟨?_, fun a ha => ?_, fun a ha stop hstop => ?_⟩
  · rw [spansOf_cons, ordered_concat]
    refine ⟨h.ordered, fun a ha => ?_, fun stop hstop => by cases hstop⟩
    obtain ⟨stop, hstop, hnow⟩ := h.closed hclosed a ha
    exact ⟨stop, hstop, hnow.trans hle⟩
  · rw [spansOf_cons, List.mem_append, List.mem_singleton] at ha
    obtain ha | rfl := ha
    · exact (h.started a ha).trans hle
    · exact le_rfl
  · rw [spansOf_cons, List.mem_append, List.mem_singleton] at ha
    obtain ha | rfl := ha
    · exact (h.ended a ha stop hstop).trans hle
    · cases hstop

variable {start stop : DateTime}

/-- An open interval may end at any instant from its beginning on. -/
theorem ordered_close
    (h : Ordered (spansOf ((start, none) :: intervals))) (hstart : start.stamp ≤ stop.stamp) :
    Ordered (spansOf ((start, some stop) :: intervals)) := by
  rw [spansOf_cons, ordered_concat] at h ⊢
  refine ⟨h.1, h.2.1, fun stop' hstop' => ?_⟩
  have heq : stop.stamp = stop' := by simpa [spanOf] using hstop'
  exact heq ▸ hstart

/-- The open interval is closed by a later event. -/
theorem MadeUpTo.close (h : MadeUpTo ((start, none) :: intervals) now)
    (hstart : start.stamp ≤ stop.stamp) (hle : now ≤ stop.stamp) :
    MadeUpTo ((start, some stop) :: intervals) stop.stamp := by
  have hbefore : ∀ a ∈ spansOf intervals, a ∈ spansOf ((start, none) :: intervals) := fun a ha => by
    rw [spansOf_cons]
    exact List.mem_append_left _ ha
  refine ⟨ordered_close h.ordered hstart, fun a ha => ?_, fun a ha stop' hstop' => ?_⟩
  · rw [spansOf_cons, List.mem_append, List.mem_singleton] at ha
    obtain ha | rfl := ha
    · exact (h.started a (hbefore a ha)).trans hle
    · exact hstart
  · rw [spansOf_cons, List.mem_append, List.mem_singleton] at ha
    obtain ha | rfl := ha
    · exact (h.ended a (hbefore a ha) stop' hstop').trans hle
    · have heq : stop.stamp = stop' := by simpa [spanOf] using hstop'
      exact heq ▸ le_rfl

/-- One event keeps the intervals in order. -/
theorem MadeUpTo.noteEvent {event : BootEvent} (h : MadeUpTo intervals now)
    (hle : now ≤ event.moment.stamp) :
    MadeUpTo (noteEvent intervals event) event.moment.stamp := by
  have hkeep : MadeUpTo intervals event.moment.stamp :=
    ⟨h.ordered, fun a ha => (h.started a ha).trans hle,
      fun a ha stop hstop => (h.ended a ha stop hstop).trans hle⟩
  rcases intervals with - | ⟨⟨start, stop⟩, intervals⟩
  · rw [Linux.noteEvent]
    split
    · exact h.boot hle fun start => by simp
    · exact hkeep
    · intro start' rest heq
      cases heq
  rcases stop with - | stop
  · -- the last interval is open
    have hstart : start.stamp ≤ event.moment.stamp := by
      refine (h.started (spanOf (start, none)) ?_).trans hle
      rw [spansOf_cons]
      exact List.mem_append_right _ (List.mem_singleton.2 rfl)
    have hclosed := h.close hstart hle
    rw [Linux.noteEvent]
    split
    · exact hclosed.boot le_rfl fun start' => by simp
    · exact hclosed
  · rw [Linux.noteEvent]
    split
    · exact h.boot hle fun start' => by simp
    · exact hkeep
    · intro start' rest heq
      cases heq

end Events

theorem BootEvent.le_trans (a b c : BootEvent) (hab : a.le b = true) (hbc : b.le c = true) :
    a.le c = true := by
  simp only [BootEvent.le, Bool.or_eq_true, Bool.and_eq_true, decide_eq_true_eq,
    Bool.not_eq_true'] at *
  rcases hab with hab | ⟨hab, ha⟩
  · exact .inl (by omega)
  · rcases hbc with hbc | ⟨hbc, hb⟩
    · exact .inl (by omega)
    · refine .inr ⟨hab.trans hbc, ?_⟩
      rcases ha with ha | hb'
      · exact .inl ha
      · rcases hb with hb | hc
        · rw [hb'] at hb
          cases hb
        · exact .inr hc

theorem BootEvent.le_total (a b : BootEvent) : (a.le b || b.le a) = true := by
  simp only [BootEvent.le, Bool.or_eq_true, Bool.and_eq_true, decide_eq_true_eq, Bool.not_eq_true']
  obtain hlt | heq | hgt := lt_trichotomy a.moment.stamp b.moment.stamp
  · exact .inl (.inl hlt)
  · rcases ha : a.isBoot with - | -
    · exact .inr (.inr ⟨heq.symm, .inr rfl⟩)
    · exact .inl (.inr ⟨heq, .inl rfl⟩)
  · exact .inr (.inl hgt)

theorem stamp_le_of_le {a b : BootEvent} (h : a.le b = true) : a.moment.stamp ≤ b.moment.stamp := by
  simp only [BootEvent.le, Bool.or_eq_true, Bool.and_eq_true, decide_eq_true_eq] at h
  rcases h with h | ⟨h, -⟩
  · exact h.le
  · exact h.le

/-- All events of a row in order. -/
theorem madeUpTo_foldl {events : List BootEvent} {intervals : List Interval} {now : ℕ}
    (h : MadeUpTo intervals now)
    (hsorted : events.Pairwise fun a b => a.moment.stamp ≤ b.moment.stamp)
    (hnow : ∀ event ∈ events, now ≤ event.moment.stamp) :
    ∃ now', MadeUpTo (events.foldl noteEvent intervals) now' := by
  induction events generalizing intervals now with
  | nil => exact ⟨now, h⟩
  | cons event events ih =>
    rw [List.pairwise_cons] at hsorted
    exact ih (h.noteEvent (hnow event (.head _))) hsorted.2 hsorted.1

/-- **The uptime is in order**: the intervals do not overlap, and only the last one can be open. -/
theorem readUptime_ordered {fresh : DateTime} {files : List RecordFile} {uptime : List Interval}
    (h : readUptime fresh files = .ok uptime) : Ordered (uptime.map spanOf) := by
  have hsorted : ((files.foldl (readFile fresh) ⟨[], none⟩).events.mergeSort BootEvent.le).Pairwise
      fun a b => a.moment.stamp ≤ b.moment.stamp :=
    (List.pairwise_mergeSort BootEvent.le_trans BootEvent.le_total _).imp stamp_le_of_le
  have hnone : MadeUpTo [] 0 := by
    refine ⟨ordered_nil, fun a ha => ?_, fun a ha => ?_⟩
    · cases ha
    · cases ha
  obtain ⟨now, hmade⟩ := madeUpTo_foldl hnone hsorted fun _ _ => Nat.zero_le _
  rw [readUptime] at h
  generalize (files.foldl (readFile fresh) ⟨[], none⟩).lastSeen = lastSeen at h
  generalize List.foldl noteEvent [] _ = intervals at h hmade
  have hlast : ∀ made, closeLast lastSeen intervals = .ok made → Ordered (spansOf made) := by
    intro made hclose
    rcases intervals with - | ⟨⟨start, stop⟩, intervals⟩
    · cases hclose
      exact hmade.ordered
    rcases stop with - | stop
    · rcases lastSeen with - | seen
      · cases hclose
        exact hmade.ordered
      · rw [closeLast] at hclose
        rcases hplus : plus (later seen start) dayMicros with e | stop
        · rw [hplus] at hclose
          cases hclose
        · rw [hplus] at hclose
          cases hclose
          have hstamp := stamp_plus hplus
          have hstart : start.stamp ≤ stop.stamp := by
            have hle := le_later_right seen start
            omega
          exact ordered_close hmade.ordered hstart
    · cases hclose
      exact hmade.ordered
  obtain ⟨made, hclose, rfl⟩ : ∃ made, closeLast lastSeen intervals = .ok made ∧
      made.reverse = uptime := by
    rcases hclose : closeLast lastSeen intervals with e | made
    · rw [hclose] at h
      cases h
    · rw [hclose] at h
      cases h
      exact ⟨made, rfl, rfl⟩
  rw [List.map_reverse]
  exact hlast made hclose

/-! ### Being in an interval -/

/-- Some interval from boot to end holds the moment, give or take the slack at both ends. -/
def Runs (uptime : List Interval) (moment : DateTime) : Prop :=
  ∃ interval ∈ uptime, interval.1.stamp ≤ moment.stamp + uptimeSlack ∧
    ∀ stop, interval.2 = some stop → moment.stamp ≤ stop.stamp + uptimeSlack

/-- The slack behind the moment, and behind the end of the interval that begins last by then, is in
the calendar. -/
def Answerable (uptime : List Interval) (moment : DateTime) : Prop :=
  uptime = [] ∨ InYears (moment.stamp + uptimeSlack : ℕ) ∧
    ∀ a, lastStarted (uptime.map spanOf) (moment.stamp + uptimeSlack) = some a →
      ∀ stop, a.2 = some stop → InYears (stop + uptimeSlack : ℕ)

section Running

variable {uptime : List Interval} {moment : DateTime}

theorem runs_iff_lastStarted (h : Ordered (uptime.map spanOf)) : Runs uptime moment ↔
      ∃ a, lastStarted (uptime.map spanOf) (moment.stamp + uptimeSlack) = some a ∧
        ∀ stop, a.2 = some stop → moment.stamp ≤ stop + uptimeSlack := by
  have hlater : ∀ s t : ℕ, s ≤ t → moment.stamp ≤ s + uptimeSlack →
      moment.stamp ≤ t + uptimeSlack := fun s t hst hs => hs.trans (Nat.add_le_add_right hst _)
  rw [← h.exists_iff_lastStarted hlater]
  constructor
  · rintro ⟨interval, hmem, hstart, hstop⟩
    refine ⟨spanOf interval, List.mem_map_of_mem hmem, hstart, fun stop hs => ?_⟩
    obtain ⟨stop', hstop', rfl⟩ := Option.map_eq_some_iff.1 hs
    exact hstop stop' hstop'
  · rintro ⟨a, hmem, hstart, hstop⟩
    obtain ⟨interval, hinterval, rfl⟩ := List.mem_map.1 hmem
    refine ⟨interval, hinterval, hstart, fun stop hs => hstop stop.stamp ?_⟩
    rw [spanOf, hs]
    rfl

/-- The answer that the interval which begins last by the moment and the slack gives. -/
def answerOf (moment : DateTime) : Option (Span ℕ) → Except DateError Bool
  | none => .ok false
  | some (_, none) => .ok true
  | some (_, some stop) =>
    if InYears (stop + uptimeSlack : ℕ) then .ok (decide (moment.stamp ≤ stop + uptimeSlack))
    else .error .overflow

theorem runningAt_eq (hne : uptime ≠ []) {upTo : DateTime}
    (hplus : plus moment uptimeSlack = .ok upTo) :
    runningAt uptime moment = answerOf moment (lastStarted (uptime.map spanOf) upTo.stamp) := by
  have hstarts : (uptime.map spanOf).map Prod.fst =
      uptime.map fun interval => interval.1.stamp := by
    rw [List.map_map]
    rfl
  rw [runningAt, if_neg hne, hplus, lastStarted, hstarts, ok_bind]
  cases Bisect.bisectRight (uptime.map fun interval => interval.1.stamp) upTo.stamp with
  | zero => rfl
  | succ n =>
    simp only [List.getElem?_map]
    cases uptime[n]? with
    | none => rfl
    | some interval =>
      obtain ⟨start, stop⟩ := interval
      rcases stop with - | stop
      · rfl
      show (plus stop uptimeSlack).map _ = answerOf moment (some (start.stamp, some stop.stamp))
      by_cases hyears : InYears (stop.stamp + uptimeSlack : ℕ)
      · obtain ⟨limit, hlimit, hstamp⟩ := plus_ok hyears
        rw [hlimit, answerOf, if_pos hyears, ← hstamp]
        rfl
      · rw [answerOf, if_neg hyears, plus, dif_neg hyears]
        rfl

/-- **`running_at` decides membership**: of the intervals read from the records, it says whether one
of them holds the moment, exactly if the slack does not lead out of the calendar. -/
theorem runningAt_iff {fresh : DateTime} {files : List RecordFile}
    (h : readUptime fresh files = .ok uptime) (moment : DateTime) :
    (∃ b, runningAt uptime moment = .ok b ∧ (b = true ↔ Runs uptime moment)) ↔
      Answerable uptime moment := by
  have hordered := readUptime_ordered h
  by_cases hne : uptime = []
  · subst hne
    refine iff_of_true ⟨false, rfl, ?_⟩ (.inl rfl)
    refine iff_of_false Bool.false_ne_true ?_
    rintro ⟨interval, hmem, -⟩
    cases hmem
  rw [Answerable, or_iff_right hne]
  by_cases hyears : InYears (moment.stamp + uptimeSlack : ℕ)
  · obtain ⟨upTo, hplus, hstamp⟩ := plus_ok hyears
    rw [and_iff_right hyears, runs_iff_lastStarted hordered, runningAt_eq hne hplus, hstamp]
    rcases lastStarted (uptime.map spanOf) (moment.stamp + uptimeSlack) with - | ⟨start, stop⟩
    · exact iff_of_true ⟨false, rfl, by simp⟩ (by simp)
    rcases stop with - | stop
    · exact iff_of_true ⟨true, rfl, by simp⟩ (by simp)
    rw [answerOf]
    by_cases hlimit : InYears (stop + uptimeSlack : ℕ)
    · rw [if_pos hlimit]
      refine iff_of_true ⟨_, rfl, by simp⟩ fun a ha stop' hstop' => ?_
      cases ha
      cases hstop'
      exact hlimit
    · rw [if_neg hlimit]
      refine iff_of_false ?_ fun hall => hlimit (hall _ rfl _ rfl)
      rintro ⟨b, hb, -⟩
      cases hb
  · refine iff_of_false ?_ fun hall => hyears hall.1
    rintro ⟨b, hb, -⟩
    rw [runningAt, if_neg hne, plus, dif_neg hyears] at hb
    cases hb

end Running

/-- A boot at noon on 2016-04-03. -/
def noonBoot : DateTime := ⟨736057, 43200000000, by decide, by decide, by decide⟩

/-- A day later. -/
def dayAfterBoot : DateTime := ⟨736058, 43200000000, by decide, by decide, by decide⟩

/-- The records of that boot. -/
def bootRecords : RecordFile :=
  ⟨true, false, 384, some dayAfterBoot, some [⟨some noonBoot, .systemBoot⟩]⟩

theorem plus_noonBoot : plus noonBoot dayMicros = .ok dayAfterBoot := by
  obtain ⟨e, he, hstamp⟩ := @plus_ok noonBoot dayMicros (by decide +kernel)
  have heq : e = dayAfterBoot := UtcDateTime.eq_of_stamp_eq (hstamp.trans (by decide +kernel))
  rw [he, heq]

theorem readUptime_bootRecords :
    readUptime noonBoot [bootRecords] = .ok [(noonBoot, some dayAfterBoot)] := by
  have hrecords : [bootRecords].foldl (readFile noonBoot) ⟨[], none⟩ =
      ⟨[⟨noonBoot, true⟩], some noonBoot⟩ := by
    have hsmall : ¬ (bootRecords.isGzip = true ∨ bootRecords.size > 64 * 1024 * 1024) := by decide
    have hkept : ¬ dayAfterBoot.stamp < noonBoot.stamp := by decide +kernel
    rw [List.foldl_cons, List.foldl_nil, readFile, if_neg hsmall]
    show [(⟨some noonBoot, .systemBoot⟩ : LoginRow)].foldl (readRow true)
      (if dayAfterBoot.stamp < noonBoot.stamp then _ else _) = _
    rw [if_neg hkept]
    rfl
  have hopen : ([⟨noonBoot, true⟩] : List BootEvent).foldl noteEvent [] = [(noonBoot, none)] := rfl
  have hlater : later noonBoot noonBoot = noonBoot := if_neg (lt_irrefl _)
  rw [readUptime, hrecords, List.mergeSort_singleton, hopen, closeLast, hlater, plus_noonBoot]
  rfl

theorem noonBoot_running : ∃ b, runningAt [(noonBoot, some dayAfterBoot)] noonBoot = .ok b ∧
      (b = true ↔ Runs [(noonBoot, some dayAfterBoot)] noonBoot) :=
  (runningAt_iff readUptime_bootRecords noonBoot).2 (.inr ⟨by decide +kernel, by
    have hlast : lastStarted ([(noonBoot, some dayAfterBoot)].map spanOf)
        (noonBoot.stamp + uptimeSlack) = some (noonBoot.stamp, some dayAfterBoot.stamp) := by
      decide +kernel
    rw [hlast]
    rintro a ⟨⟩ stop ⟨⟩
    decide +kernel⟩)

theorem maxOrdinal_pos : 0 < maxOrdinal := by decide

/-- Five minutes before the end of the year 9999. -/
def beforeTheEnd : DateTime :=
  ⟨maxOrdinal, 86100000000, maxOrdinal_pos, Nat.le_refl maxOrdinal, by decide⟩

/-- Ten minutes behind that moment there is no date. -/
theorem beforeTheEnd_not_answered :
    readUptime noonBoot [bootRecords] = .ok [(noonBoot, some dayAfterBoot)] ∧
    runningAt [(noonBoot, some dayAfterBoot)] beforeTheEnd = .error .overflow ∧
    ¬ Runs [(noonBoot, some dayAfterBoot)] beforeTheEnd := by
  refine ⟨readUptime_bootRecords, ?_, ?_⟩
  · rw [runningAt, if_neg (List.cons_ne_nil _ _), plus, dif_neg (by decide +kernel)]
    rfl
  rintro ⟨interval, hmem, -, hstop⟩
  rw [List.mem_singleton] at hmem
  subst hmem
  exact absurd (hstop dayAfterBoot rfl) (by decide +kernel)

end Kairon.Linux

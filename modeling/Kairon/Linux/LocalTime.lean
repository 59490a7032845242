/-
Kairon/Linux/LocalTime.lean

From the provisional times of a log to times of the host.

The parser reads month, day and time from a line and takes the year from the clock; the resolver
then chooses the year from the order of the file and from the uptime of the host, and converts the
local time to UTC.  The provisional year is no part of what it chooses, since only month, day and
time of a provisional timestamp are used (`Twin`), with one exception: 29 February.  Where the clock
says a year without that day, the line is left without a time, and nothing later gives it one
(`timeless_iff`).
-/
import Kairon.Linux.YearWalk

namespace Kairon.Linux

open Search (UtcDateTime InYears Text dayMicros maxOrdinal yearOf monthOf dayOf daysInMonth isLeap
  daysBeforeYear ordinalOf yearOf_ordinalOf monthOf_ordinalOf dayOf_ordinalOf ok_bind)
open Settle

/-! ### Reading a line -/

/-- `_MONTH_MAP`. -/
def monthMap : List (String × ℕ) :=
  [("jan", 1), ("feb", 2), ("mar", 3), ("apr", 4), ("may", 5), ("jun", 6), ("jul", 7), ("aug", 8),
    ("sep", 9), ("oct", 10), ("nov", 11), ("dec", 12)]

/-- `_MONTH_MAP.get(month_str.lower())`.  No other character becomes one of these letters. -/
def monthNumber (name : Text) : Option ℕ :=
  monthMap.lookup (String.ofList (name.map Char.toLower))

/-- The time at the head of a syslog line, as the pattern splits it. -/
structure SyslogTime where
  monthName : Text
  day : ℕ
  hour : ℕ
  minute : ℕ
  second : ℕ

/-- A time of day that a `datetime` can have. -/
def SyslogTime.ValidTime (t : SyslogTime) : Prop := t.hour < 24 ∧ t.minute < 60 ∧ t.second < 60

instance (t : SyslogTime) : Decidable t.ValidTime := inferInstanceAs (Decidable (_ ∧ _))

def SyslogTime.micros (t : SyslogTime) : ℕ :=
  1000000 * (3600 * t.hour + 60 * t.minute + t.second)

/-- `_parse_bsd_syslog_timestamp`, in the year that the clock says. -/
def parseBsdSyslogTimestamp (year : ℕ) (t : SyslogTime) : Option DateTime :=
  (monthNumber t.monthName).bind fun month =>
    if t.ValidTime then dateTime year month t.day t.micros else none

/-- The values of `timestamp_status` that are read or written here. -/
inductive TimestampStatus
  | missing
  | assumedYearUtc
  | assumedUtc
  | hostTimezone
  | inferredYear
  | inferredYearHostTimezone
  deriving DecidableEq

/-- What a row says of its time. -/
structure LogRow where
  timestamp : Option DateTime
  timestampStatus : TimestampStatus

/-- A line of a shell audit log: blank, without an envelope, with the time of a message, or with the
time of a recorded command. -/
inductive AuditLine
  | blank
  | bare
  | message (t : SyslogTime)
  | command (t : SyslogTime)

/-- The row of a line.  A command says that its year is assumed even where it has no time. -/
def parseLine (year : ℕ) : AuditLine → Option LogRow
  | .blank => none
  | .bare => some ⟨none, .missing⟩
  | .message t =>
    let timestamp := parseBsdSyslogTimestamp year t
    some ⟨timestamp, if timestamp.isSome then .assumedYearUtc else .missing⟩
  | .command t => some ⟨parseBsdSyslogTimestamp year t, .assumedYearUtc⟩

/-- `parse_bsd_shell_audit_log`. -/
def parseBsdShellAuditLog (year : ℕ) (lines : List AuditLine) : List LogRow :=
  lines.filterMap (parseLine year)

/-! ### Resolving -/

/-- A time zone.  Its offset is less than a day, so that a conversion stays in the calendar except
in the first and the last year. -/
structure Zone where
  toUtc : DateTime → Except DateError DateTime
  toLocal : DateTime → Except DateError DateTime
  toUtc_ok : ∀ d, 1 < yearOf d.ordinal → yearOf d.ordinal < 9999 → ∃ u, toUtc d = .ok u
  toUtc_lt : ∀ d u, toUtc d = .ok u → u.stamp < d.stamp + dayMicros

structure HostClock where
  zone : Option Zone
  uptime : List Interval

/-- `_to_utc`. -/
def toUtc (zone : Option Zone) (local' : DateTime) : Except DateError DateTime :=
  zone.elim (.ok local') fun z => z.toUtc local'

/-- `reference_local`. -/
def localReference (reference : DateTime) (clock : HostClock) : Except DateError DateTime :=
  clock.zone.elim (.ok reference) fun z => z.toLocal reference

/-- The local time of a row whose zone is assumed. -/
def LogRow.zoneTime (row : LogRow) : Option DateTime :=
  if row.timestampStatus = .assumedUtc then row.timestamp else none

/-- The local time of a row whose year is assumed. -/
def LogRow.yearTime (row : LogRow) : Option DateTime :=
  if row.timestampStatus = .assumedYearUtc then row.timestamp else none

/-- One turn of the loop over `zone_rows`; without a zone there are none. -/
def convertRow (zone : Option Zone) (row : LogRow) : Except DateError LogRow :=
  match zone, row.zoneTime with
  | some z, some local' => (z.toUtc local').map fun utc => ⟨some utc, .hostTimezone⟩
  | _, _ => .ok row

/-- The host was running at the local time in this year. -/
def fitsUptime (clock : HostClock) (local' : DateTime) (year : ℕ) : Except DateError Bool :=
  (withYear local' year).elim (.ok false) fun candidate =>
    toUtc clock.zone candidate >>= runningAt clock.uptime

/-- `fitting`. -/
def fittingYears (clock : HostClock) (local' : DateTime) : List ℕ → Except DateError (List ℕ)
  | [] => .ok []
  | year :: years =>
    fitsUptime clock local' year >>= fun fits =>
      (fittingYears clock local' years).map fun fitting =>
        if fits then year :: fitting else fitting

/-- `sorted(boot_years | {default_year})`. -/
def candidateYears (clock : HostClock) (defaultYear : ℕ) : List ℕ :=
  (defaultYear :: bootYears clock.uptime).dedup.insertionSort (· ≤ ·)

/-- The choice among the fitting years. -/
def pickYear (defaultYear : ℕ) (fitting : List ℕ) : ℕ :=
  if fitting.length = 1 ∨ (fitting ≠ [] ∧ defaultYear ∉ fitting) then
    if defaultYear ∉ fitting then fitting.getLastD defaultYear else defaultYear
  else defaultYear

/-- `chosen`. -/
def chosenYear (clock : HostClock) (local' : DateTime) (defaultYear : ℕ) : Except DateError ℕ :=
  if bootYears clock.uptime = [] then .ok defaultYear
  else
    (fittingYears clock local' (candidateYears clock defaultYear)).map (pickYear defaultYear)

/-- The status of a row with a year that was found. -/
def inferredStatus (zone : Option Zone) : TimestampStatus :=
  if zone.isSome then .inferredYearHostTimezone else .inferredYear

/-- One turn of the loop over the year rows; a row whose local time is no date in the chosen year
stays as it is. -/
def dateRow (clock : HostClock) (row : LogRow) (local' : DateTime) (defaultYear : ℕ) :
    Except DateError LogRow :=
  chosenYear clock local' defaultYear >>= fun chosen =>
    (withYear local' chosen).elim (.ok row) fun date =>
      (toUtc clock.zone date).map fun utc => ⟨some utc, inferredStatus clock.zone⟩

/-- The loop over the rows with the years of the walk; other rows are passed over. -/
def dateRows (clock : HostClock) : List LogRow → List ℕ → Except DateError (List LogRow)
  | [], _ => .ok []
  | row :: rows, years =>
    match row.yearTime, years with
    | some local', year :: years =>
      dateRow clock row local' year >>= fun row' =>
        (dateRows clock rows years).map fun rows' => row' :: rows'
    | _, years => (dateRows clock rows years).map fun rows' => row :: rows'

/-- `resolve_local_times`: the rows as it leaves them. -/
def resolveLocalTimes (reference : DateTime) (clock : HostClock) (rows : List LogRow) :
    Except DateError (List LogRow) :=
  rows.mapM (convertRow clock.zone) >>= fun rows =>
    if rows.filterMap LogRow.yearTime = [] then .ok rows
    else
      localReference reference clock >>= fun reference =>
        yearsByFileOrder (rows.filterMap LogRow.yearTime) reference >>= fun years =>
          dateRows clock rows years

/-! ### Dates in other years -/

theorem withYear_ofFields {year month day micros : ℕ} (h : ValidDate year month day micros)
    (y : ℕ) : withYear (ofFields h) y = dateTime y month day micros := by
  have hmonth : monthOf (ofFields h).ordinal = month :=
    monthOf_ordinalOf h.year_pos h.year_le h.month_pos h.month_le h.day_pos h.day_le
  have hday : dayOf (ofFields h).ordinal = day :=
    dayOf_ordinalOf h.year_pos h.year_le h.month_pos h.month_le h.day_pos h.day_le
  rw [withYear, hmonth, hday]
  rfl

/-- A day other than 29 February is in every year or in none. -/
theorem ValidDate.otherYear {year month day micros y : ℕ} (h : ValidDate year month day micros)
    (hleap : ¬ (month = 2 ∧ day = 29)) (hy : 1 ≤ y) (hy' : y ≤ 9999) :
    ValidDate y month day micros := by
  refine ⟨hy, hy', h.month_pos, h.month_le, h.day_pos, ?_, h.micros_lt⟩
  have hle := h.day_le
  unfold daysInMonth at hle ⊢
  by_cases hfeb : month = 2
  · subst hfeb
    have hday : day ≤ 29 := by
      split at hle
      · exact hle
      · exact hle.trans (by decide)
    have hday' : day ≠ 29 := fun heq => hleap ⟨rfl, heq⟩
    split
    · exact hday
    · show day ≤ 28
      omega
  · rw [if_neg fun hand => hfeb hand.1] at hle ⊢
    exact hle

/-- Two provisional times of one line: alike but for the year, and dates in every year. -/
structure Twin (a b : DateTime) : Prop where
  withYear_eq : ∀ y, withYear a y = withYear b y
  everyYear : ∀ y, 1 ≤ y → y ≤ 9999 → (withYear a y).isSome = true

theorem twin_ofFields {y y' month day micros : ℕ} (h : ValidDate y month day micros)
    (h' : ValidDate y' month day micros) (hleap : ¬ (month = 2 ∧ day = 29)) :
    Twin (ofFields h) (ofFields h') := by
  refine ⟨fun z => ?_, fun z hz hz' => ?_⟩
  · rw [withYear_ofFields, withYear_ofFields]
  · rw [withYear_ofFields, dateTime, dif_pos (h.otherYear hleap hz hz')]
    rfl

/-! ### Two years for one file -/

/-- A line that is dated 29 February. -/
def SyslogTime.IsLeapDay (t : SyslogTime) : Prop :=
  monthNumber t.monthName = some 2 ∧ t.day = 29 ∧ t.ValidTime

instance (t : SyslogTime) : Decidable t.IsLeapDay := inferInstanceAs (Decidable (_ ∧ _))

/-- A line with such a time. -/
def AuditLine.IsLeapDay : AuditLine → Prop
  | .message t => t.IsLeapDay
  | .command t => t.IsLeapDay
  | _ => False

/-- Rows of one line in two years. -/
inductive TwinRow : LogRow → LogRow → Prop
  | undated (status : TimestampStatus) : TwinRow ⟨none, status⟩ ⟨none, status⟩
  | dated {a b : DateTime} : Twin a b → TwinRow ⟨some a, .assumedYearUtc⟩ ⟨some b, .assumedYearUtc⟩

section Parse

variable {y y' : ℕ}

/-- Any other day has a time in both years or in none. -/
theorem parseBsdSyslogTimestamp_twin (hy : 1 ≤ y ∧ y ≤ 9999) (hy' : 1 ≤ y' ∧ y' ≤ 9999)
    {t : SyslogTime} (ht : ¬ t.IsLeapDay) :
    (parseBsdSyslogTimestamp y t = none ∧ parseBsdSyslogTimestamp y' t = none) ∨
      ∃ a b, parseBsdSyslogTimestamp y t = some a ∧ parseBsdSyslogTimestamp y' t = some b ∧
        Twin a b := by
  unfold parseBsdSyslogTimestamp
  rcases hmonth : monthNumber t.monthName with - | month
  · exact .inl ⟨rfl, rfl⟩
  rw [Option.bind_some, Option.bind_some]
  by_cases htime : t.ValidTime
  · have hleap : ¬ (month = 2 ∧ t.day = 29) := by
      rintro ⟨rfl, hday⟩
      exact ht ⟨hmonth, hday, htime⟩
    rw [if_pos htime, if_pos htime, dateTime, dateTime]
    by_cases hvalid : ValidDate y month t.day t.micros
    · have hvalid' := hvalid.otherYear hleap hy'.1 hy'.2
      rw [dif_pos hvalid, dif_pos hvalid']
      exact .inr ⟨_, _, rfl, rfl, twin_ofFields hvalid hvalid' hleap⟩
    · have hvalid' : ¬ ValidDate y' month t.day t.micros := fun h =>
        hvalid (h.otherYear hleap hy.1 hy.2)
      rw [dif_neg hvalid, dif_neg hvalid']
      exact .inl ⟨rfl, rfl⟩
  · rw [if_neg htime, if_neg htime]
    exact .inl ⟨rfl, rfl⟩

theorem parseBsdShellAuditLog_twin (hy : 1 ≤ y ∧ y ≤ 9999) (hy' : 1 ≤ y' ∧ y' ≤ 9999)
    {lines : List AuditLine} (hlines : ∀ line ∈ lines, ¬ line.IsLeapDay) :
    List.Forall₂ TwinRow (parseBsdShellAuditLog y lines) (parseBsdShellAuditLog y' lines) := by
  induction lines with
  | nil => exact .nil
  | cons line lines ih =>
    obtain ⟨hline, hlines⟩ := List.forall_mem_cons.1 hlines
    have hrest := ih hlines
    unfold parseBsdShellAuditLog at hrest ⊢
    rw [List.filterMap_cons, List.filterMap_cons]
    cases line with
    | blank => exact hrest
    | bare => exact .cons (.undated _) hrest
    | message t | command t =>
      simp only [parseLine]
      obtain ⟨h, h'⟩ | ⟨a, b, h, h', htwin⟩ := parseBsdSyslogTimestamp_twin hy hy' hline
      · rw [h, h']
        exact .cons (.undated _) hrest
      · rw [h, h']
        exact .cons (.dated htwin) hrest

end Parse

/-! ### The walk does not see the year -/

section Walk

variable {reference : DateTime} {lines lines' : List DateTime}

theorem stepBack_congr {line line' : DateTime} (h : ∀ y, withYear line y = withYear line' y)
    (w : YearWalk) : stepBack reference line w = stepBack reference line' w := by
  have hfits : ∀ limit y, fitsYear line limit y = fitsYear line' limit y := fun limit y => by
    rw [fitsYear, fitsYear, h]
  have hdescend : ∀ limit y, descend line limit y = descend line' limit y := by
    intro limit y
    induction y with
    | zero => rfl
    | succ y ih => rw [descend, descend, hfits, ih]
  rw [stepBack, stepBack]
  refine congrArg (fun f => (limitOf reference w.newer).map f) (funext fun limit => ?_)
  show YearWalk.mk _ (descend line limit.stamp w.year)
    ((withYear line (descend line limit.stamp w.year)).or w.newer) = YearWalk.mk _ _ _
  rw [hdescend, h]

theorem yearsByFileOrder_congr (h : List.Forall₂ Twin lines lines') :
    yearsByFileOrder lines reference = yearsByFileOrder lines' reference := by
  have hwalk : walk reference lines = walk reference lines' := by
    induction h with
    | nil => rfl
    | cons htwin _ ih =>
      rw [walk, walk, ih]
      exact congrArg _ (funext fun w => stepBack_congr htwin.withYear_eq w)
  rw [yearsByFileOrder, yearsByFileOrder, hwalk]

theorem yearOf_mem (d : DateTime) : 1 ≤ yearOf d.ordinal ∧ yearOf d.ordinal ≤ 9999 := by
  have hfirst : daysBeforeYear 1 < d.ordinal := d.ordinal_pos
  exact ⟨Nat.le_findGreatest (by decide) hfirst, Nat.findGreatest_le 9999⟩

/-- The walk keeps to the years from 1, or from 1990, up to that of the reference time. -/
theorem walk_years {w : YearWalk} (h : walk reference lines = .ok w) :
    w.years.length = lines.length ∧
      ∀ y ∈ w.year :: w.years, min minYear (yearOf reference.ordinal) ≤ y ∧
        y ≤ yearOf reference.ordinal := by
  induction lines generalizing w with
  | nil =>
    cases h
    refine ⟨rfl, fun y hy => ?_⟩
    rw [List.mem_singleton.1 hy]
    exact ⟨min_le_right _ _, le_rfl⟩
  | cons line lines ih =>
    rw [walk] at h
    obtain ⟨before, hbefore, h⟩ := bind_eq_ok.1 h
    obtain ⟨hlength, hyears⟩ := ih hbefore
    rw [stepBack] at h
    rcases hlimit : limitOf reference before.newer with e | limit
    · rw [hlimit] at h
      cases h
    rw [hlimit] at h
    cases h
    have hstops := descend_stops line limit.stamp before.year
    have hbelow := hyears before.year (.head _)
    have hnew : min minYear (yearOf reference.ordinal) ≤ descend line limit.stamp before.year ∧
        descend line limit.stamp before.year ≤ yearOf reference.ordinal := by
      refine ⟨?_, hstops.le.trans hbelow.2⟩
      obtain hlt | heq := hstops.le.lt_or_eq
      · exact (min_le_left _ _).trans (hstops.floor hlt)
      · rw [heq]
        exact hbelow.1
    refine ⟨congrArg Nat.succ hlength, fun y hy => ?_⟩
    rw [List.mem_cons, List.mem_cons] at hy
    obtain rfl | rfl | hy := hy
    · exact hnew
    · exact hnew
    · exact hyears y (.tail _ hy)

theorem yearsByFileOrder_years {years : List ℕ}
    (h : yearsByFileOrder lines reference = .ok years) : years.length = lines.length ∧
      ∀ y ∈ years, min minYear (yearOf reference.ordinal) ≤ y ∧ y ≤ yearOf reference.ordinal := by
  rw [yearsByFileOrder] at h
  rcases hw : walk reference lines with e | w
  · rw [hw] at h
    cases h
  rw [hw] at h
  cases h
  obtain ⟨hlength, hyears⟩ := walk_years hw
  exact ⟨hlength, fun y hy => hyears y (.tail _ hy)⟩

end Walk

/-! ### One row -/

section Row

variable {clock : HostClock} {a b : DateTime}

/-- A fitting year is one that has the day. -/
theorem isSome_of_mem_fittingYears {years fitting : List ℕ}
    (h : fittingYears clock a years = .ok fitting) {y : ℕ} (hy : y ∈ fitting) :
    (withYear a y).isSome = true := by
  induction years generalizing fitting with
  | nil =>
    cases h
    cases hy
  | cons year years ih =>
    rw [fittingYears] at h
    obtain ⟨fits, hfits, h⟩ := bind_eq_ok.1 h
    rcases hrest : fittingYears clock a years with e | rest
    · rw [hrest] at h
      cases h
    rw [hrest] at h
    cases h
    split at hy
    · next hfit =>
        obtain rfl | hy := List.mem_cons.1 hy
        · rw [fitsUptime] at hfits
          rcases hdate : withYear a y with - | date
          · rw [hdate] at hfits
            cases hfits
            cases hfit
          · rfl
        · exact ih hrest hy
    · exact ih hrest hy

/-- The chosen year has the day, unless it is the default. -/
theorem chosenYear_cases {default chosen : ℕ} (h : chosenYear clock a default = .ok chosen) :
    chosen = default ∨ (withYear a chosen).isSome = true := by
  rw [chosenYear] at h
  split at h
  · cases h
    exact .inl rfl
  rcases hfitting : fittingYears clock a (candidateYears clock default) with e | fitting
  · rw [hfitting] at h
    cases h
  rw [hfitting] at h
  cases h
  rw [pickYear]
  split
  · split
    · rcases hlist : fitting with - | ⟨y, ys⟩
      · exact .inl rfl
      · refine .inr (isSome_of_mem_fittingYears hfitting ?_)
        rw [hlist, List.getLastD_cons]
        exact List.getLastD_mem_cons
    · exact .inl rfl
  · exact .inl rfl

theorem chosenYear_twin (h : Twin a b) (default : ℕ) :
    chosenYear clock a default = chosenYear clock b default := by
  have hfits : ∀ y, fitsUptime clock a y = fitsUptime clock b y := fun y => by
    rw [fitsUptime, fitsUptime, h.withYear_eq]
  have hfitting : ∀ years, fittingYears clock a years = fittingYears clock b years := by
    intro years
    induction years with
    | nil => rfl
    | cons y years ih => rw [fittingYears, fittingYears, hfits, ih]
  rw [chosenYear, chosenYear, hfitting]

/-- A row that is not touched again. -/
def LogRow.Done (row : LogRow) : Prop := row.zoneTime = none ∧ row.yearTime = none

theorem done_undated (status : TimestampStatus) : LogRow.Done ⟨none, status⟩ := by
  constructor
  · exact ite_self none
  · exact ite_self none

theorem done_inferred (zone : Option Zone) (date : DateTime) :
    LogRow.Done ⟨some date, inferredStatus zone⟩ := by
  unfold inferredStatus
  rcases zone.isSome with - | -
  · exact ⟨rfl, rfl⟩
  · exact ⟨rfl, rfl⟩

/-- What becomes of a row does not depend on the year it came with. -/
theorem dateRow_twin (h : Twin a b) (row row' : LogRow) {default : ℕ} (hpos : 1 ≤ default)
    (hle : default ≤ 9999) :
    dateRow clock row a default = dateRow clock row' b default ∧
      ∀ result, dateRow clock row a default = .ok result → result.Done := by
  rw [dateRow, dateRow, ← chosenYear_twin h]
  rcases hchosen : chosenYear clock a default with e | chosen
  · exact ⟨rfl, fun result hresult => by cases hresult⟩
  have hdate : (withYear a chosen).isSome = true := by
    obtain rfl | hsome := chosenYear_cases hchosen
    · exact h.everyYear chosen hpos hle
    · exact hsome
  obtain ⟨date, hdate⟩ := Option.isSome_iff_exists.1 hdate
  rw [ok_bind, ok_bind, ← h.withYear_eq, hdate, Option.elim_some, Option.elim_some]
  refine ⟨rfl, fun result hresult => ?_⟩
  rcases hutc : toUtc clock.zone date with e | utc
  · rw [hutc] at hresult
    cases hresult
  · rw [hutc] at hresult
    cases hresult
    exact done_inferred clock.zone utc

end Row

/-! ### All rows -/

section Rows

variable {clock : HostClock} {reference : DateTime} {rows rows' : List LogRow}

theorem dateRows_cons_undated {row : LogRow} (h : row.yearTime = none) (years : List ℕ) :
    dateRows clock (row :: rows) years =
      (dateRows clock rows years).map fun rows' => row :: rows' := by
  simp only [dateRows, h]

theorem dateRows_cons_dated {row : LogRow} {time : DateTime} (h : row.yearTime = some time)
    (year : ℕ) (years : List ℕ) :
    dateRows clock (row :: rows) (year :: years) = dateRow clock row time year >>= fun row' =>
        (dateRows clock rows years).map fun rows' => row' :: rows' := by
  simp only [dateRows, h]

theorem dateRows_twin (h : List.Forall₂ TwinRow rows rows') {years : List ℕ}
    (hlength : years.length = (rows.filterMap LogRow.yearTime).length)
    (hyears : ∀ y ∈ years, 1 ≤ y ∧ y ≤ 9999) :
    dateRows clock rows years = dateRows clock rows' years ∧
      ∀ result, dateRows clock rows years = .ok result → ∀ row ∈ result, row.Done := by
  induction h generalizing years with
  | nil =>
    refine ⟨rfl, fun result hresult row hrow => ?_⟩
    cases hresult
    cases hrow
  | @cons row row' rows rows' hrow hrows ih =>
    cases hrow with
    | undated status =>
      have htime : (⟨none, status⟩ : LogRow).yearTime = none := (done_undated status).2
      rw [List.filterMap_cons, htime] at hlength
      obtain ⟨heq, hdone⟩ := ih hlength hyears
      rw [dateRows_cons_undated htime, dateRows_cons_undated htime, heq]
      refine ⟨rfl, fun result hresult => ?_⟩
      rw [heq] at hdone
      rcases hrest : dateRows clock rows' years with e | rest
      · rw [hrest] at hresult
        cases hresult
      · rw [hrest] at hresult
        cases hresult
        exact List.forall_mem_cons.2 ⟨done_undated status, hdone rest hrest⟩
    | @dated a b htwin =>
      have htime : (⟨some a, .assumedYearUtc⟩ : LogRow).yearTime = some a := rfl
      have htime' : (⟨some b, .assumedYearUtc⟩ : LogRow).yearTime = some b := rfl
      rw [List.filterMap_cons, htime, List.length_cons] at hlength
      obtain ⟨year, years, rfl⟩ := List.exists_of_length_succ years hlength
      obtain ⟨hyear, hyears⟩ := List.forall_mem_cons.1 hyears
      obtain ⟨heq, hdone⟩ := ih (Nat.succ.inj hlength) hyears
      obtain ⟨hrow, hrowDone⟩ := @dateRow_twin clock a b htwin
        ⟨some a, .assumedYearUtc⟩ ⟨some b, .assumedYearUtc⟩ year hyear.1 hyear.2
      rw [dateRows_cons_dated htime, dateRows_cons_dated htime', ← hrow, heq]
      refine ⟨rfl, fun result hresult => ?_⟩
      obtain ⟨first, hfirst, hresult⟩ := bind_eq_ok.1 hresult
      rw [heq] at hdone
      rcases hrest : dateRows clock rows' years with e | rest
      · rw [hrest] at hresult
        cases hresult
      · rw [hrest] at hresult
        cases hresult
        exact List.forall_mem_cons.2 ⟨hrowDone first hfirst, hdone rest hrest⟩

/-- Where no row has an assumed zone only the years are resolved. -/
theorem resolveLocalTimes_eq (h : ∀ row ∈ rows, row.zoneTime = none) :
    resolveLocalTimes reference clock rows = if rows.filterMap LogRow.yearTime = [] then .ok rows
      else
        localReference reference clock >>= fun reference =>
          yearsByFileOrder (rows.filterMap LogRow.yearTime) reference >>= fun years =>
            dateRows clock rows years := by
  have hsame : ∀ row ∈ rows, convertRow clock.zone row = .ok (id row) := by
    intro row hrow
    unfold convertRow
    rw [h row hrow]
    rcases clock.zone with - | z
    · rfl
    · rfl
  rw [resolveLocalTimes, mapM_eq_ok hsame, List.map_id, ok_bind]

/-- Rows that are done stay as they are. -/
theorem resolveLocalTimes_done (h : ∀ row ∈ rows, row.Done) :
    resolveLocalTimes reference clock rows = .ok rows := by
  rw [resolveLocalTimes_eq fun row hrow => (h row hrow).1, if_pos]
  exact List.filterMap_eq_nil_iff.2 fun row hrow => (h row hrow).2

theorem TwinRow.zoneTime {row row' : LogRow} (h : TwinRow row row') :
    row.zoneTime = none ∧ row'.zoneTime = none := by
  cases h with
  | undated status => exact ⟨(done_undated status).1, (done_undated status).1⟩
  | dated _ => exact ⟨rfl, rfl⟩

theorem forall₂_zoneTime (h : List.Forall₂ TwinRow rows rows') :
    (∀ row ∈ rows, row.zoneTime = none) ∧ ∀ row ∈ rows', row.zoneTime = none := by
  induction h with
  | nil => exact ⟨List.forall_mem_nil _, List.forall_mem_nil _⟩
  | cons hrow _ ih =>
    exact ⟨List.forall_mem_cons.2 ⟨hrow.zoneTime.1, ih.1⟩,
      List.forall_mem_cons.2 ⟨hrow.zoneTime.2, ih.2⟩⟩

theorem forall₂_yearTime (h : List.Forall₂ TwinRow rows rows') :
    List.Forall₂ Twin (rows.filterMap LogRow.yearTime) (rows'.filterMap LogRow.yearTime) := by
  induction h with
  | nil => exact .nil
  | cons hrow _ ih =>
    rw [List.filterMap_cons, List.filterMap_cons]
    cases hrow with
    | undated status =>
      rw [(done_undated status).2]
      exact ih
    | dated htwin => exact .cons htwin ih

/-- Rows that differ in the provisional year only are resolved alike, and once for all. -/
theorem resolveLocalTimes_twin (h : List.Forall₂ TwinRow rows rows') :
    resolveLocalTimes reference clock rows = resolveLocalTimes reference clock rows' ∧
      ∀ result, resolveLocalTimes reference clock rows = .ok result → ∀ row ∈ result, row.Done := by
  obtain ⟨hzone, hzone'⟩ := forall₂_zoneTime h
  have htimes := forall₂_yearTime h
  rw [resolveLocalTimes_eq hzone, resolveLocalTimes_eq hzone']
  by_cases hnone : rows.filterMap LogRow.yearTime = []
  · -- no row has a time: the rows are the same
    have hnone' : rows'.filterMap LogRow.yearTime = [] := by
      rw [hnone] at htimes
      exact List.forall₂_nil_left_iff.1 htimes
    have hdone : ∀ row ∈ rows, row.Done := fun row hrow =>
      ⟨hzone row hrow, List.filterMap_eq_nil_iff.1 hnone row hrow⟩
    have hsame : rows = rows' := by
      clear htimes hzone hzone' hdone
      induction h with
      | nil => rfl
      | cons hrow _ ih =>
        rw [List.filterMap_cons] at hnone hnone'
        cases hrow with
        | undated status =>
          rw [(done_undated status).2] at hnone hnone'
          rw [ih hnone hnone']
        | dated htwin => cases hnone
    rw [if_pos hnone, if_pos hnone', hsame]
    refine ⟨rfl, fun result hresult => ?_⟩
    cases hresult
    rw [← hsame]
    exact hdone
  · have hnone' : ¬ rows'.filterMap LogRow.yearTime = [] := by
      intro hnone'
      rw [hnone'] at htimes
      exact hnone (List.forall₂_nil_right_iff.1 htimes)
    rw [if_neg hnone, if_neg hnone']
    simp only [← yearsByFileOrder_congr htimes]
    rcases localReference reference clock with e | start
    · exact ⟨rfl, fun result hresult => by cases hresult⟩
    rw [ok_bind, ok_bind]
    rcases hyears : yearsByFileOrder (rows.filterMap LogRow.yearTime) start with e | years
    · exact ⟨rfl, fun result hresult => by cases hresult⟩
    rw [ok_bind, ok_bind]
    obtain ⟨hlength, hrange⟩ := yearsByFileOrder_years hyears
    refine dateRows_twin h hlength fun y hy => ?_
    obtain ⟨hpos, hle⟩ := yearOf_mem start
    exact ⟨(le_min (by decide) hpos).trans (hrange y hy).1, (hrange y hy).2.trans hle⟩

end Rows

/-! ### Evidence inside the calendar -/

/-- The reference time and the uptime are at least a year away from the ends of the calendar. -/
structure Inside (reference : DateTime) (clock : HostClock) : Prop where
  reference : ∃ start, localReference reference clock = .ok start ∧
    1 < yearOf start.ordinal ∧ yearOf start.ordinal < 9999
  started : ∀ interval ∈ clock.uptime, 1 < yearOf interval.1.ordinal ∧
    yearOf interval.1.ordinal < 9999
  ended : ∀ interval ∈ clock.uptime, ∀ stop, interval.2 = some stop → yearOf stop.ordinal < 9999

section Inside

variable {clock : HostClock} {reference : DateTime}

variable {uptime : List Interval}

theorem runningAt_returns {moment : DateTime} (hmoment : InYears (moment.stamp + uptimeSlack : ℕ))
    (hended : ∀ interval ∈ uptime, ∀ stop, interval.2 = some stop →
      InYears (stop.stamp + uptimeSlack : ℕ)) :
    ∃ b, runningAt uptime moment = .ok b := by
  by_cases hnone : uptime = []
  · exact ⟨false, by rw [runningAt, if_pos hnone]⟩
  obtain ⟨upTo, hupTo, -⟩ := plus_ok hmoment
  rw [runningAt_eq hnone hupTo]
  rcases hlast : Spans.lastStarted (uptime.map spanOf) upTo.stamp with - | ⟨start, stop⟩
  · exact ⟨false, rfl⟩
  rcases stop with - | stop
  · exact ⟨true, rfl⟩
  obtain ⟨interval, hmem, heq⟩ := List.mem_map.1 (Spans.mem_of_lastStarted hlast)
  have hstop : (spanOf interval).2 = some stop := congrArg Prod.snd heq
  obtain ⟨date, hdate, rfl⟩ := Option.map_eq_some_iff.1 hstop
  rw [answerOf, if_pos (hended interval hmem date hdate)]
  exact ⟨_, rfl⟩

theorem mem_bootYears {y : ℕ} (h : y ∈ bootYears uptime) :
    ∃ interval ∈ uptime, yearOf interval.1.ordinal ≤ y ∧
      y ≤ yearOf (interval.2.getD interval.1).ordinal := by
  obtain ⟨interval, hmem, hy⟩ := List.mem_flatMap.1 h
  refine ⟨interval, hmem, ?_⟩
  rw [List.mem_range'_1] at hy
  omega

theorem Inside.candidateYears (h : Inside reference clock) {default y : ℕ}
    (hdefault : 1 < default ∧ default < 9999) (hy : y ∈ candidateYears clock default) :
    1 < y ∧ y < 9999 := by
  rw [Linux.candidateYears, List.mem_insertionSort, List.mem_dedup, List.mem_cons] at hy
  obtain rfl | hy := hy
  · exact hdefault
  obtain ⟨interval, hmem, hfirst, hlast⟩ := mem_bootYears hy
  refine ⟨(h.started interval hmem).1.trans_le hfirst, hlast.trans_lt ?_⟩
  rcases hstop : interval.2 with - | stop
  · exact (h.started interval hmem).2
  · exact h.ended interval hmem stop hstop

theorem toUtc_inside {date : DateTime} (hyear : 1 < yearOf date.ordinal ∧
    yearOf date.ordinal < 9999) :
    ∃ utc, toUtc clock.zone date = .ok utc ∧ InYears (utc.stamp + uptimeSlack : ℕ) := by
  have hweek := inYears_plus hyear.2 (le_refl outOfOrderTolerance)
  have hsmall : ∀ utc : DateTime, utc.stamp < date.stamp + dayMicros →
      InYears (utc.stamp + uptimeSlack : ℕ) := by
    intro utc hutc
    have hpos := utc.ordinal_pos
    unfold InYears outOfOrderTolerance uptimeSlack at *
    unfold UtcDateTime.stamp at *
    unfold dayMicros at *
    push_cast at *
    omega
  rcases hzone : clock.zone with - | z
  · refine ⟨date, rfl, hsmall date ?_⟩
    exact Nat.lt_add_of_pos_right (by decide)
  · obtain ⟨utc, hutc⟩ := z.toUtc_ok date hyear.1 hyear.2
    exact ⟨utc, hutc, hsmall utc (z.toUtc_lt date utc hutc)⟩

theorem Inside.fitsUptime (h : Inside reference clock) (time : DateTime) {y : ℕ}
    (hy : 1 < y ∧ y < 9999) : ∃ b, fitsUptime clock time y = .ok b := by
  rw [Linux.fitsUptime]
  rcases hdate : withYear time y with - | date
  · exact ⟨false, rfl⟩
  have hyear := yearOf_withYear hdate
  rw [← hyear] at hy
  obtain ⟨utc, hutc, hmoment⟩ := @toUtc_inside clock date hy
  rw [Option.elim_some, hutc, ok_bind]
  exact runningAt_returns hmoment fun interval hmem stop hstop =>
    inYears_plus (h.ended interval hmem stop hstop) (by decide)

theorem Inside.fittingYears (h : Inside reference clock) (time : DateTime) {years : List ℕ}
    (hyears : ∀ y ∈ years, 1 < y ∧ y < 9999) :
    ∃ fitting, fittingYears clock time years = .ok fitting ∧ fitting ⊆ years := by
  induction years with
  | nil => exact ⟨[], rfl, List.Subset.refl _⟩
  | cons y years ih =>
    obtain ⟨hy, hyears⟩ := List.forall_mem_cons.1 hyears
    obtain ⟨fits, hfits⟩ := h.fitsUptime time hy
    obtain ⟨fitting, hfitting, hsubset⟩ := ih hyears
    rw [Linux.fittingYears, hfits, ok_bind, hfitting]
    refine ⟨_, rfl, ?_⟩
    split
    · exact List.cons_subset_cons y hsubset
    · exact List.subset_cons_of_subset y hsubset

theorem pickYear_mem (default : ℕ) (fitting : List ℕ) :
    pickYear default fitting = default ∨ pickYear default fitting ∈ fitting := by
  rw [pickYear]
  split
  · split
    · rcases fitting with - | ⟨y, ys⟩
      · exact .inl rfl
      · refine .inr ?_
        rw [List.getLastD_cons]
        exact List.getLastD_mem_cons
    · exact .inl rfl
  · exact .inl rfl

theorem Inside.chosenYear (h : Inside reference clock) (time : DateTime) {default : ℕ}
    (hdefault : 1 < default ∧ default < 9999) :
    ∃ chosen, chosenYear clock time default = .ok chosen ∧ 1 < chosen ∧ chosen < 9999 := by
  rw [Linux.chosenYear]
  by_cases hnone : bootYears clock.uptime = []
  · exact ⟨default, if_pos hnone, hdefault⟩
  obtain ⟨fitting, hfitting, hsubset⟩ := h.fittingYears time fun y hy =>
    h.candidateYears hdefault hy
  rw [if_neg hnone, hfitting]
  refine ⟨_, rfl, ?_⟩
  obtain heq | hmem := pickYear_mem default fitting
  · rw [heq]
    exact hdefault
  · exact h.candidateYears hdefault (hsubset hmem)

theorem Inside.dateRow (h : Inside reference clock) (row : LogRow) (time : DateTime)
    {default : ℕ} (hdefault : 1 < default ∧ default < 9999) :
    ∃ row', dateRow clock row time default = .ok row' := by
  obtain ⟨chosen, hchosen, hrange⟩ := h.chosenYear time hdefault
  rw [Linux.dateRow, hchosen, ok_bind]
  rcases hdate : withYear time chosen with - | date
  · exact ⟨row, rfl⟩
  rw [← yearOf_withYear hdate] at hrange
  obtain ⟨utc, hutc, -⟩ := @toUtc_inside clock date hrange
  rw [Option.elim_some, hutc]
  exact ⟨_, rfl⟩

theorem Inside.dateRows (h : Inside reference clock) (rows : List LogRow) {years : List ℕ}
    (hyears : ∀ y ∈ years, 1 < y ∧ y < 9999) :
    ∃ result, dateRows clock rows years = .ok result := by
  induction rows generalizing years with
  | nil => exact ⟨[], rfl⟩
  | cons row rows ih =>
    rcases htime : row.yearTime with - | time
    · obtain ⟨result, hresult⟩ := ih hyears
      rw [dateRows_cons_undated htime, hresult]
      exact ⟨_, rfl⟩
    rcases years with - | ⟨year, years⟩
    · obtain ⟨result, hresult⟩ := ih hyears
      refine ⟨row :: result, ?_⟩
      rw [Linux.dateRows, hresult]
      · rfl
      · intro time' year years heq hnil
        cases hnil
    · obtain ⟨hyear, hyears⟩ := List.forall_mem_cons.1 hyears
      obtain ⟨row', hrow'⟩ := h.dateRow row time hyear
      obtain ⟨result, hresult⟩ := ih hyears
      rw [dateRows_cons_dated htime, hrow', ok_bind, hresult]
      exact ⟨_, rfl⟩

/-- Inside the calendar nothing raises. -/
theorem Inside.resolveLocalTimes (h : Inside reference clock) {rows : List LogRow}
    (hzone : ∀ row ∈ rows, row.zoneTime = none) :
    ∃ result, resolveLocalTimes reference clock rows = .ok result := by
  rw [resolveLocalTimes_eq hzone]
  by_cases hnone : rows.filterMap LogRow.yearTime = []
  · exact ⟨rows, if_pos hnone⟩
  obtain ⟨start, hstart, hfirst, hlast⟩ := h.reference
  obtain ⟨years, hyears, -⟩ :=
    yearsByFileOrder_settled (rows.filterMap LogRow.yearTime) start hlast
  rw [if_neg hnone, hstart, ok_bind, hyears, ok_bind]
  refine h.dateRows rows fun y hy => ?_
  obtain ⟨hmin, hmax⟩ := (yearsByFileOrder_years hyears).2 y hy
  exact ⟨(lt_min (by decide) hfirst).trans_le hmin, hmax.trans_lt hlast⟩

end Inside

/-! ### 29 February -/

section LeapDay

variable {clock : HostClock} {reference : DateTime}

variable {rows result : List LogRow}

/-- A row that has a time keeps one, and a row without one gets none. -/
theorem dateRows_dated {years : List ℕ} (h : dateRows clock rows years = .ok result) :
    result.map (fun row => row.timestamp.isSome) = rows.map fun row => row.timestamp.isSome := by
  induction rows generalizing years result with
  | nil =>
    cases h
    rfl
  | cons row rows ih =>
    have hkeep : ∀ years, (dateRows clock rows years).map (fun rows' => row :: rows') =
        .ok result → result.map (fun row => row.timestamp.isSome) =
          (row :: rows).map fun row => row.timestamp.isSome := by
      intro years h
      rcases hrest : dateRows clock rows years with e | rest
      · rw [hrest] at h
        cases h
      · rw [hrest] at h
        cases h
        rw [List.map_cons, List.map_cons, ih hrest]
    rcases htime : row.yearTime with - | time
    · rw [dateRows_cons_undated htime] at h
      exact hkeep years h
    rcases years with - | ⟨year, years⟩
    · rw [dateRows] at h
      · exact hkeep [] h
      · intro time' year years heq hnil
        cases hnil
    rw [dateRows_cons_dated htime] at h
    obtain ⟨row', hrow', h⟩ := bind_eq_ok.1 h
    rcases hrest : dateRows clock rows years with e | rest
    · rw [hrest] at h
      cases h
    rw [hrest] at h
    cases h
    have hsome : row.timestamp.isSome = true := by
      unfold LogRow.yearTime at htime
      split at htime
      · rw [htime]
        rfl
      · cases htime
    have hsome' : row'.timestamp.isSome = true := by
      rw [dateRow] at hrow'
      obtain ⟨chosen, -, hrow'⟩ := bind_eq_ok.1 hrow'
      rcases hdate : withYear time chosen with - | date
      · rw [hdate] at hrow'
        cases hrow'
        exact hsome
      · rw [hdate, Option.elim_some] at hrow'
        rcases hutc : toUtc clock.zone date with e | utc
        · rw [hutc] at hrow'
          cases hrow'
        · rw [hutc] at hrow'
          cases hrow'
          rfl
    rw [List.map_cons, List.map_cons, ih hrest, hsome, hsome']

theorem zoneTime_parse (year : ℕ) (lines : List AuditLine) :
    ∀ row ∈ parseBsdShellAuditLog year lines, row.zoneTime = none := by
  intro row hrow
  obtain ⟨line, -, hline⟩ := List.mem_filterMap.1 hrow
  cases line with
  | blank => cases hline
  | bare =>
    cases hline
    rfl
  | message t =>
    cases hline
    rcases parseBsdSyslogTimestamp year t with - | date
    · rfl
    · rfl
  | command t =>
    cases hline
    rfl

theorem resolveLocalTimes_dated (hzone : ∀ row ∈ rows, row.zoneTime = none)
    (h : resolveLocalTimes reference clock rows = .ok result) :
    result.map (fun row => row.timestamp.isSome) = rows.map fun row => row.timestamp.isSome := by
  rw [resolveLocalTimes_eq hzone] at h
  split at h
  · cases h
    rfl
  · obtain ⟨start, -, h⟩ := bind_eq_ok.1 h
    obtain ⟨years, -, h⟩ := bind_eq_ok.1 h
    exact dateRows_dated h

variable {lines : List AuditLine}

/-- Lines that are dated in one year as in another are dated line by line. -/
theorem parseLine_dated {y y' : ℕ}
    (h : (parseBsdShellAuditLog y lines).map (fun row => row.timestamp.isSome) =
      (parseBsdShellAuditLog y' lines).map fun row => row.timestamp.isSome)
    {line : AuditLine} (hline : line ∈ lines) :
    (parseLine y line).map (fun row => row.timestamp.isSome) =
      (parseLine y' line).map fun row => row.timestamp.isSome := by
  induction lines with
  | nil => cases hline
  | cons other lines ih =>
    unfold parseBsdShellAuditLog at h ih
    rw [List.filterMap_cons, List.filterMap_cons] at h
    have hboth : (parseLine y other).isSome = (parseLine y' other).isSome := by
      cases other with
      | blank => rfl
      | bare => rfl
      | message t => rfl
      | command t => rfl
    rcases hrow : parseLine y other with - | row
    · rw [hrow, Option.isSome_none] at hboth
      have hrow' := Option.isSome_eq_false_iff.1 hboth.symm
      rw [Option.isNone_iff_eq_none] at hrow'
      rw [hrow, hrow'] at h
      obtain rfl | hline := List.mem_cons.1 hline
      · rw [hrow, hrow']
      · exact ih h hline
    · rw [hrow, Option.isSome_some] at hboth
      obtain ⟨row', hrow'⟩ := Option.isSome_iff_exists.1 hboth.symm
      rw [hrow, hrow', List.map_cons, List.map_cons, List.cons.injEq] at h
      obtain rfl | hline := List.mem_cons.1 hline
      · rw [hrow, hrow', Option.map_some, Option.map_some, h.1]
      · exact ih h.2 hline

/-- 29 February is a date in 2024, and none in 2023. -/
theorem isLeapDay_dated {t : SyslogTime} (h : t.IsLeapDay) :
    (parseBsdSyslogTimestamp 2024 t).isSome = true ∧
      (parseBsdSyslogTimestamp 2023 t).isSome = false := by
  obtain ⟨hmonth, hday, htime⟩ := h
  have hmicros : t.micros < dayMicros := by
    obtain ⟨hhour, hminute, hsecond⟩ := htime
    unfold SyslogTime.micros dayMicros
    omega
  have hvalid : ValidDate 2024 2 29 t.micros :=
    ⟨by decide, by decide, by decide, by decide, by decide, by decide, hmicros⟩
  have hinvalid : ¬ ValidDate 2023 2 29 t.micros := fun hvalid =>
    absurd hvalid.day_le (by decide)
  unfold parseBsdSyslogTimestamp
  rw [hmonth, Option.bind_some, Option.bind_some, if_pos htime, if_pos htime, hday, dateTime,
    dateTime, dif_pos hvalid, dif_neg hinvalid]
  exact ⟨rfl, rfl⟩

/-- The parser's rows, resolved. -/
def resolvedLog (reference : DateTime) (clock : HostClock) (year : ℕ) (lines : List AuditLine) :
    Except DateError (List LogRow) :=
  resolveLocalTimes reference clock (parseBsdShellAuditLog year lines)

/-- In every current year the same rows come out, and resolving them again changes nothing. -/
def Timeless (reference : DateTime) (clock : HostClock) (lines : List AuditLine) : Prop :=
  ∃ rows, (∀ year, 1 ≤ year → year ≤ 9999 → resolvedLog reference clock year lines = .ok rows) ∧
    resolveLocalTimes reference clock rows = .ok rows

theorem not_timeless {line : AuditLine} (hmem : line ∈ lines)
    (hleap : line.IsLeapDay) : ¬ Timeless reference clock lines := by
  rintro ⟨rows, hrows, -⟩
  have hflags : ∀ year, 1 ≤ year → year ≤ 9999 → rows.map (fun row => row.timestamp.isSome) =
      (parseBsdShellAuditLog year lines).map fun row => row.timestamp.isSome :=
    fun year hpos hle => resolveLocalTimes_dated (zoneTime_parse year lines) (hrows year hpos hle)
  have hsame := parseLine_dated ((hflags 2024 (by decide) (by decide)).symm.trans
    (hflags 2023 (by decide) (by decide))) hmem
  cases line with
  | blank => exact hleap
  | bare => exact hleap
  | message t | command t =>
    obtain ⟨hdated, hundated⟩ := isLeapDay_dated hleap
    simp only [parseLine, Option.map_some, hdated, hundated, Option.some.injEq] at hsame
    cases hsame

/-- **Resolved times do not depend on the current year, except for 29 February**: if no line is
dated so, every current year leads to the same outcome, and a second pass changes nothing.  With
evidence inside the calendar there are such rows exactly if no line is dated so. -/
theorem timeless_iff (reference : DateTime) (clock : HostClock) (lines : List AuditLine) :
    ((∀ line ∈ lines, ¬ line.IsLeapDay) → ∀ y y', 1 ≤ y → y ≤ 9999 → 1 ≤ y' → y' ≤ 9999 →
      resolvedLog reference clock y lines = resolvedLog reference clock y' lines ∧
      ∀ rows, resolvedLog reference clock y lines = .ok rows →
        resolveLocalTimes reference clock rows = .ok rows) ∧
    (Inside reference clock →
      (Timeless reference clock lines ↔ ∀ line ∈ lines, ¬ line.IsLeapDay)) := by
  have halike : (∀ line ∈ lines, ¬ line.IsLeapDay) →
      ∀ y y', 1 ≤ y → y ≤ 9999 → 1 ≤ y' → y' ≤ 9999 →
        resolvedLog reference clock y lines = resolvedLog reference clock y' lines ∧
        ∀ rows, resolvedLog reference clock y lines = .ok rows →
          resolveLocalTimes reference clock rows = .ok rows := by
    intro hlines y y' hy hy' hz hz'
    obtain ⟨heq, hdone⟩ := @resolveLocalTimes_twin clock reference _ _
      (parseBsdShellAuditLog_twin ⟨hy, hy'⟩ ⟨hz, hz'⟩ hlines)
    exact ⟨heq, fun rows hrows => resolveLocalTimes_done (hdone rows hrows)⟩
  refine ⟨halike, fun hinside => ⟨fun htimeless line hmem hleap => ?_, fun hlines => ?_⟩⟩
  · exact not_timeless hmem hleap htimeless
  · obtain ⟨rows, hrows⟩ := hinside.resolveLocalTimes (zoneTime_parse 1 lines)
    refine ⟨rows, fun year hpos hle => ?_, ?_⟩
    · rw [(halike hlines year 1 hpos hle le_rfl (by decide)).1]
      exact hrows
    · exact (halike hlines 1 1 le_rfl (by decide) le_rfl (by decide)).2 rows hrows

end LeapDay

/-- A host of which nothing is known. -/
def unknownHost : HostClock := ⟨none, []⟩

theorem inside_unknownHost : Inside noon unknownHost :=
  ⟨⟨noon, rfl, by decide +kernel, by decide +kernel⟩, fun interval h => (by cases h),
    fun interval h => (by cases h)⟩

theorem aprilLine_timeless :
    Timeless noon unknownHost [.message ⟨"Apr".toList, 3, 9, 0, 0⟩, .bare] ↔
      ∀ line ∈ ([.message ⟨"Apr".toList, 3, 9, 0, 0⟩, .bare] : List AuditLine), ¬ line.IsLeapDay :=
  (timeless_iff noon unknownHost [.message ⟨"Apr".toList, 3, 9, 0, 0⟩, .bare]).2 inside_unknownHost

/-- A line of 29 February is dated if the parser runs in 2024, and not if it runs in 2023. -/
theorem leapLine_not_timeless : (parseLine 2024 (.message ⟨"Feb".toList, 29, 10, 0, 0⟩)).any
        (fun row => row.timestamp.isSome) = true ∧
      (parseLine 2023 (.message ⟨"Feb".toList, 29, 10, 0, 0⟩)).any
        (fun row => row.timestamp.isSome) = false ∧
      ¬ Timeless noon unknownHost [.message ⟨"Feb".toList, 29, 10, 0, 0⟩] :=
  ⟨by decide +kernel, by decide +kernel, not_timeless (List.mem_singleton.2 rfl)
      (show SyslogTime.IsLeapDay ⟨"Feb".toList, 29, 10, 0, 0⟩ by decide +kernel)⟩

end Kairon.Linux

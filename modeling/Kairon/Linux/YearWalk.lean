/-
Kairon/Linux/YearWalk.lean

The years of lines that carry none, from their order in the file.

The walk goes up the file.  The last line belongs to the year of the reference time or to an
earlier one, each other line to the year of the line below it or to an earlier one, and it takes
the latest year in which it is a date within its limit: a week after the next dated line below, or
a day after the reference time.  Below 1990 the walk does not go.  `Settled` says this of a whole
file, and `yearsByFileOrder_settled` proves it by induction along the file, with the state of the
walk read off from the years that are settled already.
-/
import Kairon.Linux.HostClock

namespace Kairon.Linux

open Search (UtcDateTime InYears dayMicros maxOrdinal yearOf monthOf dayOf daysInMonth ordinalOf
  daysBeforeYear ordinalOf_le daysBeforeYear_mono yearOf_ordinalOf monthOf_ordinalOf dayOf_ordinalOf
  ok_bind)
open Settle

/-! ### Dates by their fields -/

theorem ordinalOf_le_maxOrdinal {y m d : ℕ} (hy : 1 ≤ y) (hy' : y ≤ 9999) (hm : 1 ≤ m)
    (hm' : m ≤ 12) (hd : d ≤ daysInMonth y m) : ordinalOf y m d ≤ maxOrdinal :=
  (ordinalOf_le hy hm hm' hd).trans (daysBeforeYear_mono (Nat.succ_le_succ hy'))

/-- The fields of a `datetime`. -/
structure ValidDate (year month day micros : ℕ) : Prop where
  year_pos : 1 ≤ year
  year_le : year ≤ 9999
  month_pos : 1 ≤ month
  month_le : month ≤ 12
  day_pos : 1 ≤ day
  day_le : day ≤ daysInMonth year month
  micros_lt : micros < dayMicros

instance (year month day micros : ℕ) : Decidable (ValidDate year month day micros) :=
  decidable_of_iff (1 ≤ year ∧ year ≤ 9999 ∧ 1 ≤ month ∧ month ≤ 12 ∧ 1 ≤ day ∧
      day ≤ daysInMonth year month ∧ micros < dayMicros)
    ⟨fun ⟨a, b, c, d, e, f, g⟩ => ⟨a, b, c, d, e, f, g⟩,
      fun ⟨a, b, c, d, e, f, g⟩ => ⟨a, b, c, d, e, f, g⟩⟩

/-- The day and time of valid fields. -/
def ofFields {year month day micros : ℕ} (h : ValidDate year month day micros) : DateTime where
  ordinal := ordinalOf year month day
  micros := micros
  ordinal_pos := Nat.add_pos_right _ h.day_pos
  ordinal_le := ordinalOf_le_maxOrdinal h.year_pos h.year_le h.month_pos h.month_le h.day_le
  micros_lt := h.micros_lt

/-- `datetime(..)`; nothing where it raises a `ValueError`. -/
def dateTime (year month day micros : ℕ) : Option DateTime :=
  if h : ValidDate year month day micros then some (ofFields h) else none

/-- `_with_year`: nothing for 29 February in a year without one. -/
def withYear (value : DateTime) (year : ℕ) : Option DateTime :=
  dateTime year (monthOf value.ordinal) (dayOf value.ordinal) value.micros

/-! ### The walk -/

/-- `_MIN_YEAR`. -/
def minYear : ℕ := 1990

/-- `_OUT_OF_ORDER_TOLERANCE`. -/
def outOfOrderTolerance : ℕ := 7 * dayMicros

/-- `limit`: behind the newer line, or behind the reference time while there is none. -/
def limitOf (reference : DateTime) : Option DateTime → Except DateError DateTime
  | some newer => plus newer outOfOrderTolerance
  | none => plus reference dayMicros

/-- The candidate of a year is a date within the limit. -/
def fitsYear (line : DateTime) (limit year : ℕ) : Bool :=
  (withYear line year).any fun candidate => candidate.stamp ≤ limit

/-- `while (candidate is None or candidate > limit) and year > _MIN_YEAR: year -= 1`. -/
def descend (line : DateTime) (limit : ℕ) : ℕ → ℕ
  | 0 => 0
  | year + 1 =>
    if fitsYear line limit (year + 1) ∨ year + 1 ≤ minYear then year + 1
    else descend line limit year

/-- The years from a line on, the year the walk has come to and the newest line that is dated. -/
structure YearWalk where
  years : List ℕ
  year : ℕ
  newer : Option DateTime

/-- One turn of the loop. -/
def stepBack (reference line : DateTime) (w : YearWalk) : Except DateError YearWalk :=
  (limitOf reference w.newer).map fun limit =>
    let year := descend line limit.stamp w.year
    ⟨year :: w.years, year, (withYear line year).or w.newer⟩

/-- The loop, from the last line up. -/
def walk (reference : DateTime) : List DateTime → Except DateError YearWalk
  | [] => .ok ⟨[], yearOf reference.ordinal, none⟩
  | line :: lines => walk reference lines >>= stepBack reference line

/-- `_years_by_file_order`. -/
def yearsByFileOrder (lines : List DateTime) (reference : DateTime) :
    Except DateError (List ℕ) :=
  (walk reference lines).map YearWalk.years

/-! ### What the years say -/

/-- The instant of the first line that is a date in its year. -/
def newest : List DateTime → List ℕ → Option DateTime
  | line :: lines, year :: years => (withYear line year).or (newest lines years)
  | _, _ => none

/-- The limit of a line above a newer one, as an instant. -/
def limitStamp (reference : DateTime) (newer : Option DateTime) : ℕ :=
  newer.elim (reference.stamp + dayMicros) fun date => date.stamp + outOfOrderTolerance

/-- The year of the line below, or of the reference time. -/
def yearBelow (reference : DateTime) (years : List ℕ) : ℕ :=
  years.head?.getD (yearOf reference.ordinal)

/-- The year of a line is the latest one up to the year below in which it is a date within its
limit, or the least year that the walk goes to. -/
structure Latest (reference line : DateTime) (lines : List DateTime) (year : ℕ)
    (years : List ℕ) : Prop where
  le_below : year ≤ yearBelow reference years
  floor : year < yearBelow reference years → minYear ≤ year
  within : minYear < year → ∃ date, withYear line year = some date ∧
    date.stamp ≤ limitStamp reference (newest lines years)
  latest : ∀ y, year < y → y ≤ yearBelow reference years → ∀ date, withYear line y = some date →
    limitStamp reference (newest lines years) < date.stamp

/-- Every line has the latest year, over the lines below it. -/
inductive Settled (reference : DateTime) : List DateTime → List ℕ → Prop
  | nil : Settled reference [] []
  | cons {line : DateTime} {lines : List DateTime} {year : ℕ} {years : List ℕ} :
      Settled reference lines years → Latest reference line lines year years →
      Settled reference (line :: lines) (year :: years)

/-! ### The walk settles the years -/

section Walk

variable {reference line : DateTime} {lines : List DateTime}

theorem fitsYear_iff {limit year : ℕ} : fitsYear line limit year = true ↔
    ∃ date, withYear line year = some date ∧ date.stamp ≤ limit := by
  rw [fitsYear, Option.any_eq_true]
  exact exists_congr fun date => and_congr_right fun _ => decide_eq_true_iff

/-- Where the inner loop stops. -/
structure Stops (line : DateTime) (limit year stop : ℕ) : Prop where
  le : stop ≤ year
  floor : stop < year → minYear ≤ stop
  within : minYear < stop → fitsYear line limit stop = true
  latest : ∀ y, stop < y → y ≤ year → fitsYear line limit y = false

theorem descend_stops (line : DateTime) (limit year : ℕ) :
    Stops line limit year (descend line limit year) := by
  induction year with
  | zero =>
    exact ⟨le_rfl, fun h => absurd h (lt_irrefl _), fun h => absurd h (Nat.not_lt_zero _),
      fun y hy hy' => absurd hy (not_lt.2 hy')⟩
  | succ year ih =>
    rw [descend]
    by_cases hstop : fitsYear line limit (year + 1) = true ∨ year + 1 ≤ minYear
    · rw [if_pos hstop]
      refine ⟨le_rfl, fun h => absurd h (lt_irrefl _), fun h => ?_,
        fun y hy hy' => absurd hy (not_lt.2 hy')⟩
      exact hstop.resolve_right (not_le.2 h)
    · rw [if_neg hstop]
      rw [not_or, not_le, Bool.not_eq_true] at hstop
      refine ⟨ih.le.trans (Nat.le_succ year), fun _ => ?_, ih.within, fun y hy hy' => ?_⟩
      · obtain hlt | heq := ih.le.lt_or_eq
        · exact ih.floor hlt
        · rw [heq]
          exact Nat.lt_succ_iff.1 hstop.2
      · obtain rfl | hy' := Nat.eq_or_lt_of_le hy'
        · exact hstop.1
        · exact ih.latest y hy (Nat.lt_succ_iff.1 hy')

/-- Up to the year 9998 a week can be added. -/
theorem inYears_plus {d : DateTime} {micros : ℕ} (hyear : yearOf d.ordinal < 9999)
    (hmicros : micros ≤ outOfOrderTolerance) : InYears (d.stamp + micros : ℕ) := by
  have hlast : ¬ daysBeforeYear 9999 < d.ordinal :=
    Nat.findGreatest_is_greatest (P := fun y => daysBeforeYear y < d.ordinal) hyear le_rfl
  have hdays : daysBeforeYear 9999 = 3651694 := by decide
  have hpos := d.ordinal_pos
  have hlt := d.micros_lt
  unfold UtcDateTime.stamp InYears
  unfold outOfOrderTolerance at hmicros
  unfold dayMicros at *
  unfold maxOrdinal
  push_cast
  omega

theorem limitOf_ok {newer : Option DateTime} (hreference : yearOf reference.ordinal < 9999)
    (hnewer : ∀ date ∈ newer, yearOf date.ordinal < 9999) :
    ∃ limit, limitOf reference newer = .ok limit ∧ limit.stamp = limitStamp reference newer := by
  rcases newer with - | date
  · exact plus_ok (inYears_plus hreference (by decide))
  · exact plus_ok (inYears_plus (hnewer date rfl) le_rfl)

theorem yearOf_withYear {value date : DateTime} {year : ℕ} (h : withYear value year = some date) :
    yearOf date.ordinal = year := by
  unfold withYear dateTime at h
  split at h
  · next hvalid =>
      cases h
      exact yearOf_ordinalOf hvalid.year_pos hvalid.year_le hvalid.month_pos hvalid.month_le
        hvalid.day_pos hvalid.day_le
  · cases h

/-- What the walk knows at a line is what the settled years say. -/
structure Sound (reference : DateTime) (lines : List DateTime) (w : YearWalk) : Prop where
  settled : Settled reference lines w.years
  year_eq : w.year = yearBelow reference w.years
  newer_eq : w.newer = newest lines w.years
  year_le : w.year ≤ yearOf reference.ordinal
  newer_year : ∀ date ∈ w.newer, yearOf date.ordinal ≤ yearOf reference.ordinal

theorem Sound.stepBack {w : YearWalk} (h : Sound reference lines w)
    (hreference : yearOf reference.ordinal < 9999) (line : DateTime) :
    ∃ w', stepBack reference line w = .ok w' ∧ Sound reference (line :: lines) w' := by
  obtain ⟨limit, hlimit, hstamp⟩ := limitOf_ok hreference fun date hdate =>
    (h.newer_year date hdate).trans_lt hreference
  have hstops := descend_stops line limit.stamp w.year
  rw [hstamp, h.newer_eq, h.year_eq] at hstops
  refine ⟨_, by rw [Linux.stepBack, hlimit]; rfl, ?_⟩
  have hyear_le : descend line limit.stamp w.year ≤ yearOf reference.ordinal :=
    (descend_stops line limit.stamp w.year).le.trans h.year_le
  refine ⟨.cons h.settled ?_, rfl, ?_, hyear_le, fun date hdate => ?_⟩
  · rw [hstamp, h.newer_eq, h.year_eq]
    refine ⟨hstops.le, hstops.floor, fun hmin => fitsYear_iff.1 (hstops.within hmin),
      fun y hy hy' date hdate => ?_⟩
    by_contra hle
    have hfits := fitsYear_iff.2 ⟨date, hdate, not_lt.1 hle⟩
    rw [hstops.latest y hy hy'] at hfits
    cases hfits
  · rw [newest, ← h.newer_eq]
  · -- the new date has the new year
    rw [Option.mem_def, Option.or_eq_some_iff] at hdate
    obtain hdate | ⟨-, hdate⟩ := hdate
    · rw [yearOf_withYear hdate]
      exact hyear_le
    · exact h.newer_year date hdate

theorem walk_sound (hreference : yearOf reference.ordinal < 9999) (lines : List DateTime) :
    ∃ w, walk reference lines = .ok w ∧ Sound reference lines w := by
  induction lines with
  | nil => exact ⟨_, rfl, .nil, rfl, rfl, le_rfl, fun date hdate => by cases hdate⟩
  | cons line lines ih =>
    obtain ⟨w, hw, hsound⟩ := ih
    obtain ⟨w', hw', hsound'⟩ := hsound.stepBack hreference line
    refine ⟨w', ?_, hsound'⟩
    rw [walk, hw, ok_bind, hw']

/-- **The years are settled by the order of the file**: for every file and every reference time
before the year 9999 the walk ends, and each line has the latest year up to the one below in which
it is a date within its limit. -/
theorem yearsByFileOrder_settled (lines : List DateTime) (reference : DateTime)
    (hreference : yearOf reference.ordinal < 9999) :
    ∃ years, yearsByFileOrder lines reference = .ok years ∧ Settled reference lines years := by
  obtain ⟨w, hw, hsound⟩ := walk_sound hreference lines
  refine ⟨w.years, ?_, hsound.settled⟩
  rw [yearsByFileOrder, hw]
  rfl

end Walk

/-- 3 April 2016 at a time of day. -/
def aprilThird (micros : ℕ) (h : micros < dayMicros) : DateTime :=
  ofFields (⟨by decide, by decide, by decide, by decide, by decide, by decide, h⟩ :
    ValidDate 2016 4 3 micros)

def nineOClock : DateTime := aprilThird 32400000000 (by decide)

def tenOClock : DateTime := aprilThird 36000000000 (by decide)

def noon : DateTime := aprilThird 43200000000 noonBoot.micros_lt

theorem outOfOrder_settled : ∃ years, yearsByFileOrder [tenOClock, nineOClock] noon = .ok years ∧
      Settled noon [tenOClock, nineOClock] years :=
  yearsByFileOrder_settled [tenOClock, nineOClock] noon (by decide +kernel)

/-- Two lines an hour out of order are given the same year, and the instants decrease. -/
theorem outOfOrder_decreases :
    (yearsByFileOrder [tenOClock, nineOClock] noon).toOption = some [2016, 2016] ∧
    ∃ first second, (withYear tenOClock 2016).map UtcDateTime.stamp = some first ∧
      (withYear nineOClock 2016).map UtcDateTime.stamp = some second ∧ second < first :=
  ⟨by decide +kernel, 63595360800000000, 63595357200000000, by decide +kernel, by decide +kernel,
    by decide⟩

end Kairon.Linux

/-
Kairon/Search/Calendar.lean

Timestamps in ISO form are ordered as strings exactly as they are ordered in
time (`isoformat_lt_iff`), and a day's year, month and day are those it was
made of (`yearOf_ordinalOf`).

The form is a row of fixed-width numerals, except for the fraction of a
second, which is left out when it is zero; it works out because `+` comes
before `.`.
-/
import Kairon.Search.Value

namespace Kairon.Search

open Numeral

/-! ### Dates -/

section Date

variable {o o' : ℕ}

theorem daysBeforeYear_lt (h : 0 < o) : daysBeforeYear (yearOf o) < o :=
  Nat.findGreatest_spec (P := fun y => daysBeforeYear y < o) (m := 1) (by decide) h

theorem dayOfYear_pos (h : 0 < o) : 0 < dayOfYear o := Nat.sub_pos_of_lt (daysBeforeYear_lt h)

theorem daysBeforeYear_succ_le (y : ℕ) : daysBeforeYear (y + 1) ≤ daysBeforeYear y + 366 := by
  unfold daysBeforeYear
  omega

theorem dayOfYear_le (h : o ≤ maxOrdinal) : dayOfYear o ≤ 366 := by
  have hy : yearOf o ≤ 9999 := Nat.findGreatest_le 9999
  obtain hlt | heq := hy.lt_or_eq
  · have hnext : ¬ daysBeforeYear (yearOf o + 1) < o :=
      Nat.findGreatest_is_greatest (P := fun y => daysBeforeYear y < o)
        (Nat.lt_succ_self (yearOf o)) hlt
    have hlen := daysBeforeYear_succ_le (yearOf o)
    unfold dayOfYear
    omega
  · have hlast : daysBeforeYear 9999 = 3651694 := by decide
    unfold dayOfYear
    rw [heq, hlast]
    unfold maxOrdinal at h
    omega

theorem daysBeforeMonth_lt (h : 0 < o) : daysBeforeMonth (yearOf o) (monthOf o) < dayOfYear o := by
  have hfirst : daysBeforeMonth (yearOf o) 1 = 0 := by simp [daysBeforeMonth]
  exact Nat.findGreatest_spec (P := fun m => daysBeforeMonth (yearOf o) m < dayOfYear o)
    (m := 1) (by decide) (by rw [hfirst]; exact dayOfYear_pos h)

theorem daysBeforeMonth_succ_le (y : ℕ) {m : ℕ} (hm : m < 12) :
    daysBeforeMonth y (m + 1) ≤ daysBeforeMonth y m + 32 := by
  unfold daysBeforeMonth
  interval_cases m <;> simp <;> split <;> omega

theorem dayOf_lt (h : o ≤ maxOrdinal) : dayOf o < 10 ^ 2 := by
  have hm : monthOf o ≤ 12 := Nat.findGreatest_le 12
  obtain hlt | heq := hm.lt_or_eq
  · have hnext : ¬ daysBeforeMonth (yearOf o) (monthOf o + 1) < dayOfYear o :=
      Nat.findGreatest_is_greatest (P := fun m => daysBeforeMonth (yearOf o) m < dayOfYear o)
        (Nat.lt_succ_self (monthOf o)) hlt
    have hlen := daysBeforeMonth_succ_le (yearOf o) hlt
    unfold dayOf
    omega
  · have hlast : 334 ≤ daysBeforeMonth (yearOf o) 12 := by simp [daysBeforeMonth]
    have hyear := dayOfYear_le h
    unfold dayOf
    rw [heq]
    omega

theorem yearOf_mono (h : o ≤ o') : yearOf o ≤ yearOf o' :=
  Nat.findGreatest_mono_left (fun _ hy => lt_of_lt_of_le hy h) 9999

/-- In one year the months follow the days. -/
theorem monthOf_mono (h : o ≤ o') (hy : yearOf o = yearOf o') : monthOf o ≤ monthOf o' := by
  refine Nat.findGreatest_mono_left (fun m hm => ?_) 12
  have hday : dayOfYear o ≤ dayOfYear o' := by
    unfold dayOfYear
    rw [hy]
    omega
  rw [← hy]
  exact lt_of_lt_of_le hm hday

theorem length_isoDate (o : ℕ) : (isoDate o).length = 10 := by simp [isoDate]

theorem isoDate_lt (hpos : 0 < o) (hlt : o < o') (hmax : o' ≤ maxOrdinal) :
    isoDate o < isoDate o' := by
  have hyear : ∀ n, yearOf n < 10 ^ 4 := fun n =>
    lt_of_le_of_lt (Nat.findGreatest_le 9999) (by decide)
  have hmonth : ∀ n, monthOf n < 10 ^ 2 := fun n =>
    lt_of_le_of_lt (Nat.findGreatest_le 12) (by decide)
  unfold isoDate
  apply digits_append_lt (hyear o) (hyear o')
  obtain hy | hy := (yearOf_mono hlt.le).lt_or_eq
  · exact .inl hy
  refine .inr ⟨hy, List.cons_lt_cons_iff.2 (.inr ⟨rfl, ?_⟩)⟩
  apply digits_append_lt (hmonth o) (hmonth o')
  obtain hm | hm := (monthOf_mono hlt.le hy).lt_or_eq
  · exact .inl hm
  refine .inr ⟨hm, List.cons_lt_cons_iff.2 (.inr ⟨rfl, ?_⟩)⟩
  rw [digits_lt_iff (dayOf_lt (by omega)) (dayOf_lt hmax)]
  -- the days of one month are numbered in order
  have hbefore := daysBeforeMonth_lt hpos
  have hyears := daysBeforeYear_lt hpos
  unfold dayOf
  rw [← hm, ← hy]
  unfold dayOfYear at *
  rw [← hy]
  omega

end Date

/-! ### Days by year, month and day -/

/-- `_days_in_month`. -/
def daysInMonth (y m : ℕ) : ℕ :=
  if m = 2 ∧ isLeap y then 29
  else [0, 31, 28, 31, 30, 31, 30, 31, 31, 30, 31, 30, 31].getD m 0

/-- `_ymd2ord`. -/
def ordinalOf (y m d : ℕ) : ℕ := daysBeforeYear y + daysBeforeMonth y m + d

section Fields

variable {y m d : ℕ}

theorem daysBeforeYear_succ (hy : 1 ≤ y) :
    daysBeforeYear (y + 1) = daysBeforeYear y + 365 + if isLeap y then 1 else 0 := by
  obtain ⟨n, rfl⟩ := Nat.exists_eq_add_of_le' hy
  have h4 := @Nat.succ_div n 4
  have h100 := @Nat.succ_div n 100
  have h400 := @Nat.succ_div n 400
  have hleap : isLeap (n + 1) = true ↔ 4 ∣ n + 1 ∧ (¬ 100 ∣ n + 1 ∨ 400 ∣ n + 1) := by
    unfold isLeap
    simp [Nat.dvd_iff_mod_eq_zero]
  unfold daysBeforeYear
  simp only [Nat.add_sub_cancel, hleap, h4, h100, h400]
  split_ifs
  all_goals omega

/-- The months of a year lie end to end. -/
theorem daysBeforeMonth_add_daysInMonth (y : ℕ) (hm : 1 ≤ m) (hm' : m < 12) :
    daysBeforeMonth y m + daysInMonth y m = daysBeforeMonth y (m + 1) := by
  unfold daysBeforeMonth daysInMonth
  rcases isLeap y with - | -
  · interval_cases m <;> rfl
  · interval_cases m <;> rfl

theorem daysBeforeMonth_december (y : ℕ) :
    daysBeforeMonth y 12 + daysInMonth y 12 = 365 + if isLeap y then 1 else 0 := by
  unfold daysBeforeMonth daysInMonth
  rcases isLeap y with - | -
  · rfl
  · rfl

theorem daysBeforeMonth_mono (y : ℕ) {n : ℕ} (hm : 1 ≤ m) (hmn : m ≤ n) (hn : n ≤ 12) :
    daysBeforeMonth y m ≤ daysBeforeMonth y n := by
  induction n with
  | zero => omega
  | succ n ih =>
    obtain h | h := hmn.lt_or_eq
    · have hstep := daysBeforeMonth_add_daysInMonth y (by omega : 1 ≤ n) (by omega)
      have hbelow := ih (by omega) (by omega)
      omega
    · rw [h]

/-- A day lies in its year. -/
theorem ordinalOf_le (hy : 1 ≤ y) (hm : 1 ≤ m) (hm' : m ≤ 12) (hd : d ≤ daysInMonth y m) :
    ordinalOf y m d ≤ daysBeforeYear (y + 1) := by
  rw [daysBeforeYear_succ hy, ordinalOf]
  have hlast := daysBeforeMonth_december y
  obtain h | rfl := hm'.lt_or_eq
  · have hstep := daysBeforeMonth_add_daysInMonth y hm h
    have hmono := daysBeforeMonth_mono y (by omega : 1 ≤ m + 1) (by omega : m + 1 ≤ 12) le_rfl
    omega
  · omega

theorem daysBeforeYear_mono : Monotone daysBeforeYear := by
  refine monotone_nat_of_le_succ fun n => ?_
  rcases n with - | n
  · decide
  · have hstep := daysBeforeYear_succ (Nat.succ_pos n)
    rw [Nat.succ_eq_add_one] at hstep
    omega

theorem yearOf_ordinalOf (hy : 1 ≤ y) (hy' : y ≤ 9999) (hm : 1 ≤ m) (hm' : m ≤ 12) (hd : 1 ≤ d)
    (hd' : d ≤ daysInMonth y m) : yearOf (ordinalOf y m d) = y := by
  rw [yearOf, Nat.findGreatest_eq_iff]
  refine ⟨hy', fun _ => ?_, fun n hn _ hlt => ?_⟩
  · unfold ordinalOf
    omega
  · have hle := ordinalOf_le hy hm hm' hd'
    have hmono := daysBeforeYear_mono (show y + 1 ≤ n by omega)
    omega

theorem monthOf_ordinalOf (hy : 1 ≤ y) (hy' : y ≤ 9999) (hm : 1 ≤ m) (hm' : m ≤ 12) (hd : 1 ≤ d)
    (hd' : d ≤ daysInMonth y m) : monthOf (ordinalOf y m d) = m := by
  have hyear := yearOf_ordinalOf hy hy' hm hm' hd hd'
  have hday : dayOfYear (ordinalOf y m d) = daysBeforeMonth y m + d := by
    rw [dayOfYear, hyear, ordinalOf]
    omega
  rw [monthOf, hyear, hday, Nat.findGreatest_eq_iff]
  refine ⟨hm', fun _ => by omega, fun n hn hn' hlt => ?_⟩
  have hstep := daysBeforeMonth_add_daysInMonth y hm (by omega)
  have hmono := daysBeforeMonth_mono y (by omega : 1 ≤ m + 1) (show m + 1 ≤ n by omega) hn'
  omega

theorem dayOf_ordinalOf (hy : 1 ≤ y) (hy' : y ≤ 9999) (hm : 1 ≤ m) (hm' : m ≤ 12) (hd : 1 ≤ d)
    (hd' : d ≤ daysInMonth y m) : dayOf (ordinalOf y m d) = d := by
  rw [dayOf, dayOfYear, yearOf_ordinalOf hy hy' hm hm' hd hd',
    monthOf_ordinalOf hy hy' hm hm' hd hd', ordinalOf]
  omega

end Fields

/-! ### Times of day -/

theorem isoEnd_lt {f f' : ℕ} (h : f < f') (hf : f' < 1000000) : isoEnd f < isoEnd f' := by
  unfold isoEnd
  rw [if_neg (by omega : f' ≠ 0)]
  split
  · exact List.cons_lt_cons_iff.2 (.inl (by decide))
  · refine List.cons_lt_cons_iff.2 (.inr ⟨rfl, ?_⟩)
    exact digits_append_lt (by omega) (by omega) (.inl h)

theorem isoTime_lt {m m' : ℕ} (h : m < m') (hm : m' < dayMicros) : isoTime m < isoTime m' := by
  unfold dayMicros at hm
  unfold isoTime
  apply digits_append_lt (by omega) (by omega)
  obtain hh | hh := (Nat.div_le_div_right (c := 3600000000) h.le).lt_or_eq
  · exact .inl hh
  refine .inr ⟨hh, List.cons_lt_cons_iff.2 (.inr ⟨rfl, ?_⟩)⟩
  apply digits_append_lt (by omega) (by omega)
  obtain hmin | hmin : m / 60000000 % 60 < m' / 60000000 % 60 ∨
      m / 60000000 % 60 = m' / 60000000 % 60 := by omega
  · exact .inl hmin
  refine .inr ⟨hmin, List.cons_lt_cons_iff.2 (.inr ⟨rfl, ?_⟩)⟩
  apply digits_append_lt (by omega) (by omega)
  obtain hs | hs : m / 1000000 % 60 < m' / 1000000 % 60 ∨
      m / 1000000 % 60 = m' / 1000000 % 60 := by omega
  · exact .inl hs
  refine .inr ⟨hs, isoEnd_lt ?_ (Nat.mod_lt _ (by decide))⟩
  omega

/-! ### Timestamps -/

namespace UtcDateTime

variable {a b : UtcDateTime}

theorem isoformat_lt (h : a.stamp < b.stamp) : a.isoformat < b.isoformat := by
  unfold isoformat
  rw [append_lt_append_iff (by rw [length_isoDate, length_isoDate])]
  have hma := a.micros_lt
  have hmb := b.micros_lt
  unfold stamp dayMicros at h
  unfold dayMicros at hma hmb
  obtain ho | ho : a.ordinal < b.ordinal ∨ a.ordinal = b.ordinal := by omega
  · exact .inl (isoDate_lt a.ordinal_pos ho b.ordinal_le)
  · refine .inr ⟨by rw [ho], List.cons_lt_cons_iff.2 (.inr ⟨rfl, ?_⟩)⟩
    exact isoTime_lt (by omega) b.micros_lt

theorem isoformat_lt_iff : a.isoformat < b.isoformat ↔ a.stamp < b.stamp := by
  constructor
  · intro h
    by_contra hge
    obtain hlt | heq := (Nat.le_of_not_lt hge).lt_or_eq
    · exact lt_asymm h (isoformat_lt hlt)
    · rw [eq_of_stamp_eq heq] at h
      exact lt_irrefl _ h
  · exact isoformat_lt

theorem isoformat_le_iff : a.isoformat ≤ b.isoformat ↔ a.stamp ≤ b.stamp := by
  rw [← not_lt, ← not_lt, isoformat_lt_iff]

end UtcDateTime

end Kairon.Search

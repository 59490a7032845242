/-
Kairon/Search/Value.lean

The values the search language compares: JSON documents, numbers and
timestamps.

What the source takes from the Python library and from `dateutil` is a
parameter (`Platform`), with the facts the development relies on as fields.
Timestamps are modelled down to the calendar: `astimezone(UTC)` fails where
the shifted date leaves the years 1..9999 or the offset is a day or more, and
`isoformat` prints what comes out of it.
-/
import Kairon.Lib.Numeral
import Kairon.Lib.Glob
import Kairon.Search.Syntax
import Mathlib.Data.Rat.Defs
import Mathlib.Algebra.Order.Ring.Rat
import Mathlib.Order.WithBot
import Mathlib.Data.Nat.Find

namespace Kairon.Search

open Numeral

/-! ### Documents -/

/-- A JSON value; `F` is the type of floats.  An integer has at most as many
digits as `json.loads` reads, so that `str` accepts it too. -/
inductive Json (F : Type)
  | null
  | bool (b : Bool)
  | int (n : ℤ)
  | float (x : F)
  | str (s : Text)
  | arr (items : List (Json F))
  | obj (fields : List (Text × Json F))

/-- `dict.get`. -/
def getField {F : Type} (fields : List (Text × Json F)) (key : Text) : Option (Json F) :=
  (fields.find? fun entry => entry.1 = key).map Prod.snd

/-- What a number can be: a rational or an infinity. -/
abbrev Num := WithBot (WithTop ℚ)

/-- An integer as a number. -/
def Num.ofInt (n : ℤ) : Num := (((n : ℚ) : WithTop ℚ) : Num)

/-- `int(x)` of a float with this value. -/
def Num.trunc : Num → Option ℤ
  | some (some q) => some (q.num.tdiv q.den)
  | _ => none

/-- `str` of an integer. -/
def intStr (n : ℤ) : Text :=
  if n < 0 then '-' :: Nat.toDigits 10 n.natAbs else Nat.toDigits 10 n.natAbs

theorem toDigits_injective : Function.Injective (Nat.toDigits 10) := by
  intro m n h
  have hvalue := congrArg (fun digits => Nat.ofDigitChars 10 digits 0) h
  simpa using hvalue

theorem notMem_toDigits {c : Char} (hc : c.isDigit = false) (n : ℕ) : c ∉ Nat.toDigits 10 n := by
  intro hmem
  have hdigit : c.isDigit = true := Nat.isDigit_of_mem_toDigits (by decide) (by decide) hmem
  rw [hc] at hdigit
  cases hdigit

theorem notMem_intStr {c : Char} (hdigit : c.isDigit = false) (hminus : c ≠ '-') (n : ℤ) :
    c ∉ intStr n := by
  rw [intStr]
  split_ifs
  · rw [List.mem_cons, not_or]
    exact ⟨hminus, notMem_toDigits hdigit _⟩
  · exact notMem_toDigits hdigit _

theorem intStr_injective : Function.Injective intStr := by
  intro m n h
  rw [intStr, intStr] at h
  split_ifs at h with hm hn hn
  · have := toDigits_injective (List.cons.inj h).2
    omega
  · exact absurd (h ▸ List.mem_cons_self) (notMem_toDigits (by decide) n.natAbs)
  · exact absurd (h ▸ List.mem_cons_self) (notMem_toDigits (by decide) m.natAbs)
  · have := toDigits_injective h
    omega

/-! ### Timestamps -/

/-- Microseconds of a day. -/
def dayMicros : ℕ := 86400000000

/-- The ordinal of 9999-12-31. -/
def maxOrdinal : ℕ := 3652059

/-- `datetime`: a day of the years 1..9999, a time of day, and the UTC offset
in microseconds of an aware one. -/
structure PyDateTime where
  ordinal : ℕ
  micros : ℕ
  offset : Option ℤ
  ordinal_pos : 0 < ordinal
  ordinal_le : ordinal ≤ maxOrdinal
  micros_lt : micros < dayMicros

/-- A `datetime` in UTC. -/
structure UtcDateTime where
  ordinal : ℕ
  micros : ℕ
  ordinal_pos : 0 < ordinal
  ordinal_le : ordinal ≤ maxOrdinal
  micros_lt : micros < dayMicros

/-- The instant, in microseconds from the day before 0001-01-01 on. -/
def UtcDateTime.stamp (d : UtcDateTime) : ℕ := d.ordinal * dayMicros + d.micros

theorem UtcDateTime.eq_of_stamp_eq {a b : UtcDateTime} (h : a.stamp = b.stamp) : a = b := by
  obtain ⟨oa, ma, _, _, hma⟩ := a
  obtain ⟨ob, mb, _, _, hmb⟩ := b
  have hma' : ma < 86400000000 := hma
  have hmb' : mb < 86400000000 := hmb
  have h' : oa * 86400000000 + ma = ob * 86400000000 + mb := h
  obtain ⟨rfl, rfl⟩ : oa = ob ∧ ma = mb := by omega
  rfl

/-- The instants of the years 1..9999. -/
def InYears (t : ℤ) : Prop := dayMicros ≤ t ∧ t < (maxOrdinal + 1) * dayMicros

instance (t : ℤ) : Decidable (InYears t) := inferInstanceAs (Decidable (_ ∧ _))

/-- The date and time of an instant. -/
def UtcDateTime.ofStamp (t : ℤ) (h : InYears t) : UtcDateTime where
  ordinal := t.toNat / dayMicros
  micros := t.toNat % dayMicros
  ordinal_pos := by
    simp only [InYears, dayMicros] at h ⊢
    omega
  ordinal_le := by
    simp only [InYears, dayMicros, maxOrdinal] at h ⊢
    omega
  micros_lt := Nat.mod_lt _ (by decide)

/-- What the conversions of the source raise. -/
inductive PyError
  | query (e : QuerySyntaxError)
  | overflowError
  | valueError
  | typeError
  | outOfFuel

/-- Local time less offset, in microseconds. -/
def PyDateTime.shifted (d : PyDateTime) : ℤ :=
  d.ordinal * dayMicros + d.micros - d.offset.getD 0

/-- `astimezone(UTC)`; a naive `datetime` has been declared to be in UTC. -/
def PyDateTime.astimezoneUtc (d : PyDateTime) : Except PyError UtcDateTime :=
  if (d.offset.getD 0).natAbs ≥ dayMicros then .error .valueError
  else if h : InYears d.shifted then .ok (.ofStamp d.shifted h)
  else .error .overflowError

/-- A timestamp that has a date in UTC. -/
def PyDateTime.InCalendar (d : PyDateTime) : Prop :=
  (d.offset.getD 0).natAbs < dayMicros ∧ InYears d.shifted

instance (d : PyDateTime) : Decidable d.InCalendar := inferInstanceAs (Decidable (_ ∧ _))

theorem PyDateTime.astimezoneUtc_ok {d : PyDateTime} (h : d.InCalendar) :
    d.astimezoneUtc = .ok (.ofStamp d.shifted h.2) := by
  unfold astimezoneUtc
  rw [if_neg (Nat.not_le.2 h.1), dif_pos h.2]

theorem PyDateTime.astimezoneUtc_error {d : PyDateTime} (h : ¬ d.InCalendar) :
    d.astimezoneUtc = .error .valueError ∨ d.astimezoneUtc = .error .overflowError := by
  unfold astimezoneUtc
  split
  · exact .inl rfl
  · rename_i hoff
    rw [dif_neg fun hy => h ⟨Nat.lt_of_not_le hoff, hy⟩]
    exact .inr rfl

/-! ### ISO form -/

/-- `_days_before_year`. -/
def daysBeforeYear (y : ℕ) : ℕ := (y - 1) * 365 + (y - 1) / 4 - (y - 1) / 100 + (y - 1) / 400

/-- `_is_leap`. -/
def isLeap (y : ℕ) : Bool := y % 4 = 0 && (y % 100 ≠ 0 || y % 400 = 0)

/-- `_days_before_month`. -/
def daysBeforeMonth (y m : ℕ) : ℕ :=
  [0, 0, 31, 59, 90, 120, 151, 181, 212, 243, 273, 304, 334].getD m 0 +
    if 2 < m ∧ isLeap y then 1 else 0

/-- The year of a day: the last one that began before it. -/
def yearOf (ordinal : ℕ) : ℕ := Nat.findGreatest (fun y => daysBeforeYear y < ordinal) 9999

/-- The number of a day in its year. -/
def dayOfYear (ordinal : ℕ) : ℕ := ordinal - daysBeforeYear (yearOf ordinal)

/-- The month of a day: the last one that began before it. -/
def monthOf (ordinal : ℕ) : ℕ :=
  Nat.findGreatest (fun m => daysBeforeMonth (yearOf ordinal) m < dayOfYear ordinal) 12

def dayOf (ordinal : ℕ) : ℕ :=
  dayOfYear ordinal - daysBeforeMonth (yearOf ordinal) (monthOf ordinal)

/-- The date part of `isoformat`. -/
def isoDate (ordinal : ℕ) : Text :=
  digits 4 (yearOf ordinal) ++ ('-' :: (digits 2 (monthOf ordinal) ++
    ('-' :: digits 2 (dayOf ordinal))))

/-- The fraction and the offset; a fraction of zero is left out. -/
def isoEnd (fraction : ℕ) : Text :=
  if fraction = 0 then "+00:00".toList else '.' :: (digits 6 fraction ++ "+00:00".toList)

/-- The time part of `isoformat`. -/
def isoTime (micros : ℕ) : Text :=
  digits 2 (micros / 3600000000) ++ (':' :: (digits 2 (micros / 60000000 % 60) ++
    (':' :: (digits 2 (micros / 1000000 % 60) ++ isoEnd (micros % 1000000)))))

/-- `isoformat`. -/
def UtcDateTime.isoformat (d : UtcDateTime) : Text := isoDate d.ordinal ++ ('T' :: isoTime d.micros)

/-! ### The library -/

/-- What the source uses of the Python library and of `dateutil`. -/
structure Platform (F : Type) where
  /-- `str.lower`. -/
  lower : Text → Text
  /-- `str.isalnum` of one character. -/
  isAlnum : Char → Bool
  /-- A literal of a pattern against a character, under `re.IGNORECASE`. -/
  sameLetter : Char → Char → Bool
  /-- `int(s)`. -/
  parseInt : Text → Option ℤ
  /-- `float(s)`; not-a-number is no number. -/
  parseFloat : Text → Option Num
  /-- `str(x)` and the value of a float. -/
  floatStr : F → Text
  floatNum : F → Option Num
  /-- `str` of a list or of a dict. -/
  containerStr : Json F → Text
  /-- `date_parser.parse`. -/
  parseDate : Text → Option PyDateTime
  lower_true : lower "True".toList = lower "true".toList
  lower_false : lower "False".toList = lower "false".toList
  sameLetter_t : ∀ a, sameLetter a 'T' = sameLetter a 't'
  sameLetter_f : ∀ a, sameLetter a 'F' = sameLetter a 'f'
  parseInt_point : ∀ s, '.' ∈ s → parseInt s = none

section

variable {F : Type} (p : Platform F)

/-- `float(s) if "." in s else int(s)`. -/
def Platform.textNumber (s : Text) : Option Num :=
  if '.' ∈ s then p.parseFloat s else (p.parseInt s).map Num.ofInt

/-- `_normalize_string`. -/
def Platform.normalizeString : Json F → Text
  | .null => []
  | .str s => s
  | .bool true => "True".toList
  | .bool false => "False".toList
  | .int n => intStr n
  | .float x => p.floatStr x
  | .arr items => p.containerStr (.arr items)
  | .obj fields => p.containerStr (.obj fields)

/-- `float(candidate) if "." in _normalize_string(candidate) else int(candidate)`.
The text of an integer or of a boolean has no point, and neither conversion
takes a list, a dict or `None`. -/
def Platform.candidateNumber : Json F → Option Num
  | .str s => p.textNumber s
  | .float x =>
    if '.' ∈ p.floatStr x then p.floatNum x
    else ((p.floatNum x).bind Num.trunc).map Num.ofInt
  | .int n => some (.ofInt n)
  | .bool b => some (.ofInt (if b then 1 else 0))
  | .null => none
  | .arr _ => none
  | .obj _ => none

end

/-! ### A small platform

ASCII letters, decimal numerals, and timestamps in ISO form with an offset:
enough to run queries on. -/

def natOf (s : Text) : Option ℕ :=
  if s ≠ [] ∧ s.all Char.isDigit then
    some (s.foldl (fun n c => 10 * n + (c.toNat - '0'.toNat)) 0)
  else none

def asciiInt : Text → Option ℤ
  | '-' :: s => (natOf s).map fun n => -(n : ℤ)
  | s => (natOf s).map fun n => (n : ℤ)

def asciiFloat (s : Text) : Option Num := do
  let whole ← natOf (s.takeWhile fun c => c ≠ '.')
  let tail := s.dropWhile fun c => c ≠ '.'
  let fraction ← natOf tail.tail
  pure (((whole + fraction / 10 ^ tail.tail.length : ℚ) : WithTop ℚ) : Num)

def isoDateTime (s : Text) : Option PyDateTime := do
  let number (i n : ℕ) := natOf ((s.drop i).take n)
  let year ← number 0 4
  let month ← number 5 2
  let day ← number 8 2
  let hour ← number 11 2
  let minute ← number 14 2
  let second ← number 17 2
  let offsetHours ← number 20 2
  let offsetMinutes ← number 23 2
  let ordinal := daysBeforeYear year + daysBeforeMonth year month + day
  let micros := 1000000 * (3600 * hour + 60 * minute + second)
  let offset : ℤ := 60000000 * (60 * offsetHours + offsetMinutes)
  if h : 0 < ordinal ∧ ordinal ≤ maxOrdinal ∧ micros < dayMicros then
    some ⟨ordinal, micros, some (if s[19]? = some '-' then -offset else offset), h.1, h.2.1, h.2.2⟩
  else none

theorem natOf_point {s : Text} (h : '.' ∈ s) : natOf s = none := by
  unfold natOf
  rw [if_neg]
  rintro ⟨-, hall⟩
  have hdot : Char.isDigit '.' = true := List.all_eq_true.1 hall '.' h
  exact absurd hdot (by decide)

theorem asciiInt_point {s : Text} (h : '.' ∈ s) : asciiInt s = none := by
  unfold asciiInt
  split
  · next t =>
      have ht : '.' ∈ t := by simpa using h
      rw [natOf_point ht]
      rfl
  · rw [natOf_point h]
    rfl

def asciiPlatform : Platform Empty where
  lower := List.map Char.toLower
  isAlnum := Char.isAlphanum
  sameLetter a c := a.toLower = c.toLower
  parseInt := asciiInt
  parseFloat := asciiFloat
  floatStr := Empty.elim
  floatNum := Empty.elim
  containerStr _ := "<container>".toList
  parseDate := isoDateTime
  lower_true := by decide
  lower_false := by decide
  sameLetter_t _ := by simp
  sameLetter_f _ := by simp
  parseInt_point _ := asciiInt_point

end Kairon.Search

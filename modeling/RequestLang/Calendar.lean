/-! Dates and times of day from seconds since 1970, without time zones. -/
namespace RequestLang

structure Moment where
  year : Nat
  month : Nat
  day : Nat
  hour : Nat
  minute : Nat
  second : Nat
  deriving DecidableEq, Repr

namespace Moment

/-- Years are counted from March, so that a leap day comes last. -/
def ofSeconds (seconds : Int) : Moment :=
  let days := (seconds / 86400 + 719468).toNat
  let era := days / 146097
  let dayOfEra := days % 146097
  let yearOfEra := (dayOfEra - dayOfEra / 1460 + dayOfEra / 36524 - dayOfEra / 146096) / 365
  let dayOfYear := dayOfEra - (365 * yearOfEra + yearOfEra / 4 - yearOfEra / 100)
  let shifted := (5 * dayOfYear + 2) / 153
  let month := if shifted < 10 then shifted + 3 else shifted - 9
  let time := (seconds % 86400).toNat
  { year := yearOfEra + era * 400 + (if month ≤ 2 then 1 else 0)
    month
    day := dayOfYear - (153 * shifted + 2) / 5 + 1
    hour := time / 3600
    minute := time % 3600 / 60
    second := time % 60 }

def padded (width n : Nat) : List Char :=
  let ds := Nat.toDigits 10 n
  List.replicate (width - ds.length) '0' ++ ds

/-- A year with more than four digits gets a sign. -/
def yearText (m : Moment) : List Char :=
  (if 9999 < m.year then ['+'] else []) ++ padded 4 m.year

/-- `20240131T235959Z` -/
def basicText (m : Moment) : String :=
  String.ofList (m.yearText ++ padded 2 m.month ++ padded 2 m.day ++ 'T' :: padded 2 m.hour ++
    padded 2 m.minute ++ padded 2 m.second ++ ['Z'])

/-- `20240131` -/
def dayText (m : Moment) : String :=
  String.ofList (m.yearText ++ padded 2 m.month ++ padded 2 m.day)

def isLeapYear (year : Nat) : Bool := year % 4 == 0 && (year % 100 != 0 || year % 400 == 0)

/-- The days of a year without a leap day that come before each month. -/
def daysBefore : List Nat := [0, 31, 59, 90, 120, 151, 181, 212, 243, 273, 304, 334]

/-- Counted from one. -/
def dayOfYear (m : Moment) : Nat :=
  daysBefore.getD (m.month - 1) 0 + m.day + (if isLeapYear m.year && 2 < m.month then 1 else 0)

end Moment
end RequestLang

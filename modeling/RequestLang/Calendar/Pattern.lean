import RequestLang.Calendar

/-! Dates written by patterns, in which a percent sign and a name behind it stand for a part of the date. -/
namespace RequestLang

/-- What a clock shows at some place: seconds since 1970, how much of the next one is over, and how many
seconds the time of day there is ahead of universal time. -/
structure Clock where
  seconds : Nat
  nanosecond : Fin 1000000000 := 0
  offset : Int := 0
  deriving DecidableEq, Repr

/-- A full second of universal time. -/
instance (n : Nat) : OfNat Clock n := ⟨{ seconds := n }⟩

namespace Clock

def localSeconds (c : Clock) : Int := c.seconds + c.offset

def moment (c : Clock) : Moment := Moment.ofSeconds c.localSeconds

/-- Counted from Sunday. 1970 began on a Thursday. -/
def weekday (c : Clock) : Nat := ((c.localSeconds / 86400 + 4) % 7).toNat

/-- Counted from Monday. -/
def daysSinceMonday (c : Clock) : Nat := (c.weekday + 6) % 7

/-- The Thursday of the same week. A week belongs to the year that its Thursday lies in. -/
def thursday (c : Clock) : Moment :=
  Moment.ofSeconds (c.localSeconds + 86400 * (3 - (c.daysSinceMonday : Int)))

end Clock

/-- What stands before the digits of a number that is too short. -/
inductive Filling where
  | none | zeros | blanks
  deriving DecidableEq, Repr

/-- The numbers of a date. -/
inductive DateNumber where
  | year | century | yearOfCentury | weekYear | weekYearOfCentury
  | quarter | month | day | dayOfYear
  | week | weekFromSunday | weekFromMonday | dayFromSunday | dayFromMonday
  | hour | hourOfHalf | minute | second | nanosecond | timestamp
  deriving DecidableEq, Repr

namespace DateNumber

def value (c : Clock) : DateNumber → Nat
  | year => c.moment.year
  | century => c.moment.year / 100
  | yearOfCentury => c.moment.year % 100
  | weekYear => c.thursday.year
  | weekYearOfCentury => c.thursday.year % 100
  | quarter => (c.moment.month + 2) / 3
  | month => c.moment.month
  | day => c.moment.day
  | dayOfYear => c.moment.dayOfYear
  | week => (c.thursday.dayOfYear + 6) / 7
  | weekFromSunday => (c.moment.dayOfYear + 6 - c.weekday) / 7
  | weekFromMonday => (c.moment.dayOfYear + 6 - c.daysSinceMonday) / 7
  | dayFromSunday => c.weekday
  | dayFromMonday => c.daysSinceMonday + 1
  | hour => c.moment.hour
  | hourOfHalf => if c.moment.hour % 12 = 0 then 12 else c.moment.hour % 12
  | minute => c.moment.minute
  | second => c.moment.second
  | nanosecond => c.nanosecond
  | timestamp => c.seconds

/-- How many digits there are at least, unless nothing fills them up. -/
def width : DateNumber → Nat
  | year | weekYear => 4
  | dayOfYear => 3
  | quarter | dayFromSunday | dayFromMonday => 1
  | nanosecond | timestamp => 9
  | _ => 2

/-- A year with more than four digits gets a sign. -/
def isSigned (c : Clock) (n : DateNumber) : Bool := (n == year || n == weekYear) && 9999 < n.value c

def text (c : Clock) (filling : Filling) (n : DateNumber) : List Char :=
  let ds := Nat.toDigits 10 (n.value c)
  let missing := n.width - ds.length
  let before :=
    match filling with
    | .none => []
    | .zeros => List.replicate missing '0'
    | .blanks => List.replicate missing ' '
  (if n.isSigned c then ['+'] else []) ++ before ++ ds

end DateNumber

/-- How far a distance from universal time is written. Minutes are rounded, hours are not. -/
inductive OffsetUnit where
  | hours | minutes | seconds
  /-- Seconds only where they are not zero. -/
  | exact
  deriving DecidableEq, Repr

/-- A part of a pattern. -/
inductive DateItem where
  | plain (cs : List Char)
  | number (n : DateNumber) (filling : Filling)
  | monthName (short : Bool)
  | weekdayName (short : Bool)
  | halfOfDay (capital : Bool)
  /-- A point and so many digits of the second; three, six or nine if it is not told, or nothing. -/
  | fraction (digits : Option Nat)
  | fractionDigits (digits : Nat)
  | offset (unit : OffsetUnit) (colons : Bool)
  deriving DecidableEq, Repr

namespace DateItem

def monthNames : List String :=
  ["January", "February", "March", "April", "May", "June", "July", "August", "September", "October",
    "November", "December"]

/-- From Sunday on. -/
def weekdayNames : List String :=
  ["Sunday", "Monday", "Tuesday", "Wednesday", "Thursday", "Friday", "Saturday"]

/-- A name or the first three letters of it. -/
def nameText (names : List String) (index : Nat) (short : Bool) : List Char :=
  let name := (names.getD index "").toList
  if short then name.take 3 else name

def leadingDigits (c : Clock) (digits : Nat) : List Char :=
  (DateNumber.text c .zeros .nanosecond).take digits

/-- The fewest of three, six and nine digits that leave nothing out. -/
def enoughDigits (nanosecond : Nat) : Nat :=
  if nanosecond % 1000000 = 0 then 3 else if nanosecond % 1000 = 0 then 6 else 9

def fractionText (c : Clock) : Option Nat → List Char
  | some n => '.' :: leadingDigits c n
  | none => if c.nanosecond = 0 then [] else '.' :: leadingDigits c (enoughDigits c.nanosecond)

def offsetText (offset : Int) (unit : OffsetUnit) (colons : Bool) : List Char :=
  let size := offset.natAbs
  let two := Moment.padded 2
  let colon := if colons then [':'] else []
  let sign := if offset < 0 then '-' else '+'
  let minutes := two (size / 3600) ++ colon ++ two (size / 60 % 60)
  let seconds := minutes ++ colon ++ two (size % 60)
  sign ::
    match unit with
    | .hours => two (size / 3600)
    | .minutes => two ((size + 30) / 3600) ++ colon ++ two ((size + 30) / 60 % 60)
    | .seconds => seconds
    | .exact => if size % 60 = 0 then minutes else seconds

def halfText (c : Clock) (capital : Bool) : List Char :=
  let letters := if c.moment.hour < 12 then ['a', 'm'] else ['p', 'm']
  if capital then letters.map Char.toUpper else letters

def text (c : Clock) : DateItem → List Char
  | plain cs => cs
  | number n filling => n.text c filling
  | monthName short => nameText monthNames (c.moment.month - 1) short
  | weekdayName short => nameText weekdayNames c.weekday short
  | halfOfDay capital => halfText c capital
  | fraction digits => fractionText c digits
  | fractionDigits digits => leadingDigits c digits
  | offset unit colons => offsetText c.offset unit colons

end DateItem

namespace DatePattern
open DateItem

def filled (n : DateNumber) : DateItem := number n .zeros

def mark (c : Char) : DateItem := plain [c]

def dayParts : List DateItem := [filled .month, mark '/', filled .day, mark '/', filled .yearOfCentury]

def timeParts : List DateItem := [filled .hour, mark ':', filled .minute, mark ':', filled .second]

def monthParts : List DateItem := [filled .year, mark '-', filled .month, mark '-', filled .day]

/-- The names that may stand behind a percent sign. -/
def names : List (String × List DateItem) :=
  [("Y", [filled .year]), ("C", [filled .century]), ("y", [filled .yearOfCentury]), ("q", [number .quarter .none]),
    ("m", [filled .month]), ("b", [monthName true]), ("h", [monthName true]), ("B", [monthName false]),
    ("d", [filled .day]), ("e", [number .day .blanks]), ("a", [weekdayName true]), ("A", [weekdayName false]),
    ("w", [number .dayFromSunday .none]), ("u", [number .dayFromMonday .none]), ("U", [filled .weekFromSunday]),
    ("W", [filled .weekFromMonday]), ("G", [filled .weekYear]), ("g", [filled .weekYearOfCentury]),
    ("V", [filled .week]), ("j", [filled .dayOfYear]), ("D", dayParts), ("x", dayParts), ("F", monthParts),
    ("v", [number .day .blanks, mark '-', monthName true, mark '-', filled .year]),
    ("H", [filled .hour]), ("k", [number .hour .blanks]), ("I", [filled .hourOfHalf]),
    ("l", [number .hourOfHalf .blanks]), ("P", [halfOfDay false]), ("p", [halfOfDay true]),
    ("M", [filled .minute]), ("S", [filled .second]), ("f", [filled .nanosecond]), (".f", [fraction none]),
    (".3f", [fraction (some 3)]), (".6f", [fraction (some 6)]), (".9f", [fraction (some 9)]),
    ("3f", [fractionDigits 3]), ("6f", [fractionDigits 6]), ("9f", [fractionDigits 9]),
    ("R", [filled .hour, mark ':', filled .minute]), ("T", timeParts), ("X", timeParts),
    ("r", [filled .hourOfHalf, mark ':', filled .minute, mark ':', filled .second, mark ' ', halfOfDay true]),
    ("Z", [offset .exact true]), ("z", [offset .minutes false]), (":z", [offset .minutes true]),
    ("::z", [offset .seconds true]), (":::z", [offset .hours false]),
    ("c", [weekdayName true, mark ' ', monthName true, mark ' ', number .day .blanks, mark ' '] ++ timeParts ++
      [mark ' ', filled .year]),
    ("+", monthParts ++ mark 'T' :: timeParts ++ [fraction none, offset .minutes true]),
    ("s", [number .timestamp .none]), ("t", [mark '\t']), ("n", [mark '\n']), ("%", [mark '%'])]

def fillings : List (Char × Filling) := [('-', .none), ('0', .zeros), ('_', .blanks)]

/-- The name of a single number may have a mark before it that tells how the number is filled up. -/
def refilled : List (String × List DateItem) :=
  fillings.flatMap fun (c, filling) =>
    names.filterMap fun (name, items) =>
      match items with
      | [.number n _] => some (String.singleton c ++ name, [.number n filling])
      | _ => none

/-- The length of the name that a text begins with, and what it stands for. -/
def named? (cs : List Char) : Option (Nat × List DateItem) :=
  ((names ++ refilled).find? fun e => e.1.toList.isPrefixOf cs).map fun e => (e.1.length, e.2)

/-- The parts of a pattern, unless what follows some percent sign is no name. `skip` is how many
characters of the name last found are still to be passed. -/
def read? (skip : Nat) : List Char → Option (List DateItem)
  | [] => some []
  | c :: cs =>
    match skip with
    | n + 1 => read? n cs
    | 0 =>
      if c = '%' then do
        let (length, items) ← named? cs
        return items ++ (← read? length cs)
      else do return .plain [c] :: (← read? 0 cs)

end DatePattern

/-- A date by a pattern. -/
def Clock.text? (c : Clock) (pattern : List Char) : Option (List Char) :=
  (DatePattern.read? 0 pattern).map fun items => items.flatMap (·.text c)

end RequestLang

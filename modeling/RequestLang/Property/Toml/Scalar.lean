import RequestLang.Calendar
import RequestLang.Number.Decimal
import RequestLang.Property.Scalar

/-! Strings and keys of configuration tables. -/
namespace RequestLang.Toml

/-- Strings and comments hold no control characters but tabs. -/
def isPlainChar (c : Char) : Bool := c == '\t' || (32 ≤ c.toNat && c.toNat ≠ 127)

def skipBlanks (cs : List Char) : List Char := cs.dropWhile fun c => c == ' ' || c == '\t'

def isBareChar (c : Char) : Bool := c.isAlphanum || c == '_' || c == '-'

/-- The character of an escape, after its backslash. -/
def escape? : List Char → Option (Char × List Char)
  | 'u' :: cs => Scalar.codePoint? 4 cs
  | 'U' :: cs => Scalar.codePoint? 8 cs
  | c :: cs => if c = '/' then none else (Json.simpleEscape? c).map (·, cs)
  | [] => none

/-- Reads up to the double quote at the end of a line's string. -/
def readBasic : Nat → List Char → Option (List Char × List Char)
  | 0, _ => none
  | _ + 1, [] => none
  | n + 1, c :: cs =>
    if c = '"' then some ([], cs)
    else do
      let (d, rest) ← if c = '\\' then escape? cs else if isPlainChar c then some (c, cs) else none
      let (text, rest) ← readBasic n rest
      return (d :: text, rest)

def basic? (cs : List Char) : Option (List Char × List Char) := readBasic (cs.length + 1) cs

/-- Reads up to a single quote. Nothing is an escape. -/
def literal? : List Char → Option (List Char × List Char)
  | [] => none
  | c :: cs =>
    if c = '\'' then some ([], cs)
    else if isPlainChar c then (literal? cs).map fun (text, rest) => (c :: text, rest)
    else none

/-- Three quotes end a string of lines. One or two right before them belong to it. -/
def closing? (quote : Char) (cs : List Char) : Option (List Char × List Char) :=
  let run := min (cs.takeWhile (· == quote)).length 5
  if run < 3 then none else some (List.replicate (run - 3) quote, cs.drop run)

def isLineChar (c : Char) : Bool := c == '\n' || isPlainChar c

/-- A backslash at the end of a line joins it to the next word. -/
def readLines : Nat → List Char → Option (List Char × List Char)
  | 0, _ => none
  | n + 1, cs =>
    match closing? '"' cs, cs with
    | some ending, _ => some ending
    | none, [] => none
    | none, '\\' :: cs => do
      let after := skipBlanks cs
      if after.head? = some '\n' then
        readLines n (after.dropWhile fun c => c == ' ' || c == '\t' || c == '\n')
      else
        let (c, cs) ← escape? cs
        let (text, rest) ← readLines n cs
        return (c :: text, rest)
    | none, c :: cs =>
      if isLineChar c then (readLines n cs).map fun (text, rest) => (c :: text, rest) else none

def readLiteralLines : Nat → List Char → Option (List Char × List Char)
  | 0, _ => none
  | n + 1, cs =>
    match closing? '\'' cs, cs with
    | some ending, _ => some ending
    | none, [] => none
    | none, c :: cs =>
      if isLineChar c then (readLiteralLines n cs).map fun (text, rest) => (c :: text, rest)
      else none

/-- A line feed right after the opening quotes is not part of the string. -/
def dropFirstLineFeed : List Char → List Char
  | '\n' :: cs => cs
  | cs => cs

def string? : List Char → Option (List Char × List Char)
  | '"' :: '"' :: '"' :: cs => readLines (cs.length + 1) (dropFirstLineFeed cs)
  | '\'' :: '\'' :: '\'' :: cs => readLiteralLines (cs.length + 1) (dropFirstLineFeed cs)
  | '"' :: cs => basic? cs
  | '\'' :: cs => literal? cs
  | _ => none

def keyPart? : List Char → Option (List Char × List Char)
  | '"' :: cs => basic? cs
  | '\'' :: cs => literal? cs
  | cs =>
    let word := cs.takeWhile isBareChar
    if word.isEmpty then none else some (word, cs.drop word.length)

/-- Words or strings joined by points. -/
def readKey : Nat → List Char → Option (List String × List Char)
  | 0, _ => none
  | n + 1, cs => do
    let (part, cs) ← keyPart? (skipBlanks cs)
    match skipBlanks cs with
    | '.' :: cs =>
      let (parts, cs) ← readKey n cs
      return (String.ofList part :: parts, cs)
    | cs => return ([String.ofList part], cs)

def key? (cs : List Char) : Option (List String × List Char) := readKey (cs.length + 1) cs

/-! Numbers, dates and times of configuration tables. -/

/-- Digits, between which single underscores may stand. -/
def digits? (isDigit : Char → Bool) : List Char → Option (List Char)
  | [] => none
  | [d] => if isDigit d then some [d] else none
  | d :: '_' :: cs => if isDigit d then (digits? isDigit cs).map (d :: ·) else none
  | d :: cs => if isDigit d then (digits? isDigit cs).map (d :: ·) else none

/-- No zero leads the other digits. -/
def whole? (cs : List Char) : Option (List Char) :=
  match digits? Char.isDigit cs with
  | some ('0' :: _ :: _) => none
  | ds => ds

def radix? (base : Nat) (cs : List Char) : Option Int := do
  let ds ← digits? (fun c => (Json.hexValue? c).any (· < base)) cs
  return (← Scalar.digits? base ds : Nat)

/-- A sign, and what follows it. -/
def splitSign : List Char → List Char × List Char
  | '-' :: cs => (['-'], cs)
  | '+' :: cs => (['+'], cs)
  | cs => ([], cs)

def integer? (cs : List Char) : Option Int :=
  match cs with
  | '0' :: 'x' :: ds => radix? 16 ds
  | '0' :: 'o' :: ds => radix? 8 ds
  | '0' :: 'b' :: ds => radix? 2 ds
  | cs => do
    let (sign, body) := splitSign cs
    let n ← Scalar.digits? 10 (← whole? body)
    return if sign = ['-'] then -(n : Int) else n

def isRunChar (c : Char) : Bool := c.isDigit || c == '_'

def fraction? : List Char → Option (List Char × List Char)
  | '.' :: cs => do
    let ds ← digits? Char.isDigit (cs.takeWhile isRunChar)
    return ('.' :: ds, cs.dropWhile isRunChar)
  | cs => some ([], cs)

def exponent? : List Char → Option (List Char)
  | [] => some []
  | e :: cs => do
    if e ≠ 'e' ∧ e ≠ 'E' then none
    let (sign, body) := splitSign cs
    return 'e' :: (sign ++ (← digits? Char.isDigit body))

/-- A number with a fraction or an exponent. One that is too large is none. -/
def float? (cs : List Char) : Option Json := do
  let (sign, body) := splitSign cs
  let whole ← whole? (body.takeWhile isRunChar)
  let (fraction, rest) ← fraction? (body.dropWhile isRunChar)
  let x := (← Numeral.read? (sign ++ whole ++ fraction ++ (← exponent? rest))).toFloat
  if x.isInf ∧ 0 < x then none else some (Scalar.ofFloat x)

/-- Exactly that many digits, as a number. -/
def field? (width : Nat) (cs : List Char) : Option (Nat × List Char) :=
  let ds := cs.take width
  if ds.length = width ∧ ds.all Char.isDigit then some (Numeral.ofDigits ds, cs.drop width) else none

def mark? (mark : Char) : List Char → Option (List Char)
  | c :: cs => if c = mark then some cs else none
  | [] => none

def isLeap (year : Nat) : Bool := year % 4 == 0 && (year % 100 != 0 || year % 400 == 0)

def daysIn (year : Nat) : Nat → Nat
  | 2 => if isLeap year then 29 else 28
  | 4 | 6 | 9 | 11 => 30
  | _ => 31

/-- A day of the calendar, as it is written. -/
def date? (cs : List Char) : Option (List Char × List Char) := do
  let (year, rest) ← field? 4 cs
  let (month, rest) ← field? 2 (← mark? '-' rest)
  let (day, rest) ← field? 2 (← mark? '-' rest)
  if month = 0 ∨ 12 < month ∨ day = 0 ∨ daysIn year month < day then none
  else some (cs.take 10, rest)

/-- Parts of a second after their point: nine digits at most, without zeros at the end. -/
def secondsPart? : List Char → Option (List Char × List Char)
  | '.' :: cs =>
    let ds := cs.takeWhile Char.isDigit
    if ds.isEmpty then none
    else
      let kept := ((ds.take 9).reverse.dropWhile (· == '0')).reverse
      some (if kept.isEmpty then [] else '.' :: kept, cs.drop ds.length)
  | cs => some ([], cs)

/-- A time of day. A leap second may be the sixtieth. -/
def time? (cs : List Char) : Option (List Char × List Char) := do
  let (hour, rest) ← field? 2 cs
  let (minute, rest) ← field? 2 (← mark? ':' rest)
  let (second, rest) ← field? 2 (← mark? ':' rest)
  if 23 < hour ∨ 59 < minute ∨ 60 < second then none
  let (part, rest) ← secondsPart? rest
  return (cs.take 8 ++ part, rest)

/-- The distance from universal time, if one is given. -/
def offset? : List Char → Option (List Char × List Char)
  | 'Z' :: cs | 'z' :: cs => some (['Z'], cs)
  | c :: cs =>
    if c = '+' ∨ c = '-' then do
      let (hour, rest) ← field? 2 cs
      let (minute, rest) ← field? 2 (← mark? ':' rest)
      if 23 < hour ∨ 59 < minute then none
      let sign := if hour = 0 ∧ minute = 0 then '+' else c
      return (sign :: Moment.padded 2 hour ++ ':' :: Moment.padded 2 minute, rest)
    else some ([], c :: cs)
  | [] => some ([], [])

def isTimeMark (c : Char) : Bool := c == 'T' || c == 't' || c == ' '

/-- A date, a time, or both with a mark between them. -/
def moment? (cs : List Char) : Option (List Char × List Char) :=
  match date? cs with
  | some (date, c :: rest) =>
    if isTimeMark c && (field? 2 rest).isSome then do
      let (time, rest) ← time? rest
      let (offset, rest) ← offset? rest
      return (date ++ 'T' :: time ++ offset, rest)
    else some (date, c :: rest)
  | some (date, []) => some (date, [])
  | none => time? cs

def momentKey : String := "$__toml_private_datetime"

def words : List (String × Json) :=
  [("true", .bool true), ("false", .bool false)] ++
    (["inf", "+inf", "-inf", "nan", "+nan", "-nan"].map (·, .null))

def isScalarChar (c : Char) : Bool := c.isAlphanum || ['+', '-', '_', '.', ':'].contains c

/-- A value that is one word, or a date and a time. What is beyond all numbers is null. -/
def scalar? (cs : List Char) : Option (Json × List Char) :=
  match moment? cs with
  | some (text, rest) => some (.obj [(momentKey, .str (String.ofList text))], rest)
  | none =>
    let word := cs.takeWhile isScalarChar
    let value :=
      match getKey? (String.ofList word) words, integer? word with
      | some v, _ => some v
      | none, some i => if fitsSigned i then some (.int i) else none
      | none, none => float? word
    value.map (·, cs.drop word.length)

end RequestLang.Toml

import RequestLang.Json.Value
import RequestLang.Number.Decimal
import RequestLang.Text.Place

/-! Why a text is no JSON, and where. -/
namespace RequestLang.Json

inductive Cause where
  | endInValue | endInList | endInObject | endInString
  | noColon | noListEnd | noObjectEnd | badWord | noValue | noKey
  | badEscape | badNumber | outOfRange | controlCharacter | loneSurrogate | halfPair
  | trailingComma | trailing | tooDeep
  deriving DecidableEq, Repr

def Cause.message : Cause → String
  | endInValue => "EOF while parsing a value"
  | endInList => "EOF while parsing a list"
  | endInObject => "EOF while parsing an object"
  | endInString => "EOF while parsing a string"
  | noColon => "expected `:`"
  | noListEnd => "expected `,` or `]`"
  | noObjectEnd => "expected `,` or `\x7d`"
  | badWord => "expected ident"
  | noValue => "expected value"
  | noKey => "key must be a string"
  | badEscape => "invalid escape"
  | badNumber => "invalid number"
  | outOfRange => "number out of range"
  | controlCharacter => "control character (\\u0000-\\u001F) found while parsing a string"
  | loneSurrogate => "lone leading surrogate in hex escape"
  | halfPair => "unexpected end of hex escape"
  | trailingComma => "trailing comma"
  | trailing => "trailing characters"
  | tooDeep => "recursion limit exceeded"

/-- A cause with how many bytes of the text lie behind the place where it was found. -/
structure Located (α : Type) where
  cause : α
  left : Nat
  deriving DecidableEq, Repr

abbrev Fault := Located Cause

/-- A cause that is found before `cs`. -/
def before {α β : Type} (cause : α) (cs : List Char) : Except (Located α) β :=
  .error ⟨cause, Text.byteSize cs⟩

/-- A cause that is found with the first byte of `cs`, or at the end of the text. -/
def within {α β : Type} (cause : α) (cs : List Char) : Except (Located α) β :=
  .error ⟨cause, Text.byteSize cs - 1⟩

/-- Lines count from one. A column is the number of bytes up to the place. -/
def placeText (text : String) (left : Nat) : String :=
  let read := text.utf8ByteSize - left
  let bytes := text.toUTF8.toList.take read
  let line := bytes.count 10 + 1
  let column := (bytes.reverse.takeWhile (· != 10)).length
  " at line " ++ toString line ++ " column " ++ toString column

def Located.message {α : Type} (causeText : α → String) (text : String) (f : Located α) : String :=
  causeText f.cause ++ placeText text f.left

/-! Reading JSON. -/

def isSpace (c : Char) : Bool := c == ' ' || c == '\n' || c == '\t' || c == '\r'

def skipSpace (cs : List Char) : List Char := cs.dropWhile isSpace

namespace Number

def limit : Nat := wordEnd - 1

/-- Digits are taken up as long as the value stays within sixty-four bits. -/
def accumulate : Nat → List Char → Nat × List Char
  | n, [] => (n, [])
  | n, d :: ds =>
    let next := 10 * n + Numeral.digitValue d
    if next ≤ limit then accumulate next ds else (n, d :: ds)

/-- Exponents are kept below thirty-two bits with a sign. -/
def exponentEnd : Int := 0x80000000

def powerOfTen (n : Nat) : Float := Float.ofScientific 1 false n

/-- Scales by at most `10 ^ 308` at a time. `none` when the value overflows. -/
def scaled : Nat → Float → Int → Option Float
  | 0, x, _ => some x
  | n + 1, x, e =>
    if e.natAbs ≤ 308 then
      if 0 ≤ e then
        let y := x * powerOfTen e.natAbs
        if y.isInf then none else some y
      else some (x / powerOfTen e.natAbs)
    else if x == 0.0 then some x
    else if 0 ≤ e then none
    else scaled n (x / powerOfTen 308) (e + 308)

/-- A number with what follows it, if it is not too large. -/
def ofParts (negative : Bool) (significand : Nat) (e : Int) (rest : List Char) :
    Except Fault (Number × List Char) :=
  let e := max (min e exponentEnd) (-exponentEnd)
  let steps := e.natAbs / 308 + 2
  match scaled (min steps 8) significand.toUInt64.toFloat e with
  | some x => .ok (.float (if negative then -x else x), rest)
  | none => before .outOfRange rest

/-- Where digits of an exponent have become too many. -/
def pastExponent : Nat → List Char → List Char
  | _, [] => []
  | n, d :: ds =>
    let n := 10 * n + Numeral.digitValue d
    if exponentEnd ≤ n then ds else pastExponent n ds

/-- The exponent of a number: digits after an optional sign. -/
def readExponent (negative : Bool) (significand : Nat) (start : Int) (cs : List Char) :
    Except Fault (Number × List Char) :=
  let (down, cs) :=
    match cs with
    | '+' :: cs => (false, cs)
    | '-' :: cs => (true, cs)
    | cs => (false, cs)
  let ds := cs.takeWhile Char.isDigit
  if ds.isEmpty then within (if cs.isEmpty then .endInValue else .badNumber) cs
  else
    let n := Numeral.ofDigits ds
    let rest := cs.dropWhile Char.isDigit
    if exponentEnd ≤ n then
      if significand ≠ 0 ∧ !down then before .outOfRange (pastExponent 0 cs)
      else .ok (.float (if negative then -0.0 else 0.0), rest)
    else ofParts negative significand (if down then start - n else start + n) rest

def finish (negative : Bool) (significand : Nat) (e : Int) (cs : List Char) :
    Except Fault (Number × List Char) :=
  match cs with
  | c :: rest =>
    if c = 'e' ∨ c = 'E' then readExponent negative significand e rest
    else ofParts negative significand e cs
  | [] => ofParts negative significand e cs

/-- The digits after the point, of which one at least has to stand there. -/
def readFraction (negative : Bool) (significand : Nat) (e : Int) (cs : List Char) :
    Except Fault (Number × List Char) :=
  let ds := cs.takeWhile Char.isDigit
  if ds.isEmpty then within (if cs.isEmpty then .endInValue else .badNumber) cs
  else
    let (significand, left) := accumulate significand ds
    finish negative significand (e - (ds.length - left.length : Nat)) (cs.dropWhile Char.isDigit)

/-- A number after its sign. No zero leads other digits. -/
def readUnsigned (negative : Bool) (cs : List Char) : Except Fault (Number × List Char) :=
  let ds := cs.takeWhile Char.isDigit
  let rest := cs.dropWhile Char.isDigit
  if ds.isEmpty then within (if cs.isEmpty then .endInValue else .badNumber) cs
  else if ds.head? = some '0' ∧ 1 < ds.length then within .badNumber (cs.drop 1)
  else
    let (significand, left) := accumulate 0 ds
    match rest with
    | '.' :: after => readFraction negative significand left.length after
    | c :: _ =>
      if c = 'e' ∨ c = 'E' ∨ !left.isEmpty then finish negative significand left.length rest
      else .ok (whole significand, rest)
    | [] =>
      if left.isEmpty then .ok (whole significand, rest)
      else finish negative significand left.length rest
where
  /-- A negative whole number below the range of sixty-four bits, and minus zero, are floats. -/
  whole (n : Nat) : Number :=
    if negative then
      if n = 0 ∨ signedEnd < n then .float (-n.toUInt64.toFloat) else .int (-(n : Int))
    else .int n

def read (cs : List Char) : Except Fault (Number × List Char) :=
  match cs with
  | '-' :: cs => readUnsigned true cs
  | cs => readUnsigned false cs

/-- A text that is a number and nothing more. -/
def parse? (s : String) : Option Number :=
  match read s.toList with
  | .ok (n, []) => some n
  | _ => none

end Number

def hexValue? (c : Char) : Option Nat :=
  if '0' ≤ c ∧ c ≤ '9' then some (c.toNat - '0'.toNat)
  else if 'a' ≤ c ∧ c ≤ 'f' then some (c.toNat - 'a'.toNat + 10)
  else if 'A' ≤ c ∧ c ≤ 'F' then some (c.toNat - 'A'.toNat + 10)
  else none

def hex4? : List Char → Option (Nat × List Char)
  | a :: b :: c :: d :: rest => do
    let n := ((← hexValue? a) * 16 + (← hexValue? b)) * 256 + (← hexValue? c) * 16 + (← hexValue? d)
    return (n, rest)
  | _ => none

def simpleEscape? : Char → Option Char
  | '"' => some '"'
  | '\\' => some '\\'
  | '/' => some '/'
  | 'b' => some '\x08'
  | 'f' => some '\x0c'
  | 'n' => some '\n'
  | 'r' => some '\r'
  | 't' => some '\t'
  | _ => none

/-- The four digits of a code unit. -/
def readHex4 (cs : List Char) : Except Fault (Nat × List Char) :=
  if Text.byteSize cs < 4 then before .endInString []
  else
    match hex4? cs with
    | some found => .ok found
    | none => .error ⟨.badEscape, Text.byteSize cs - 4⟩

/-- A character that has to stand between the two halves of a pair. -/
def readBetween (c : Char) (cs : List Char) : Except Fault (List Char) :=
  match cs with
  | [] => before .endInString []
  | d :: rest => if d = c then .ok rest else within .halfPair cs

def isHighSurrogate (n : Nat) : Bool := 0xD800 ≤ n && n ≤ 0xDBFF

def isLowSurrogate (n : Nat) : Bool := 0xDC00 ≤ n && n ≤ 0xDFFF

/-- Reads a code unit escape after its letter, and the second half of a pair. -/
def readUnicode (cs : List Char) : Except Fault (Char × List Char) := do
  let (high, rest) ← readHex4 cs
  if isLowSurrogate high then before .loneSurrogate rest
  else if isHighSurrogate high then
    let (low, rest) ← readHex4 (← readBetween 'u' (← readBetween '\\' rest))
    if isLowSurrogate low then
      return (Char.ofNat (0x10000 + (high - 0xD800) * 0x400 + (low - 0xDC00)), rest)
    else before .loneSurrogate rest
  else return (Char.ofNat high, rest)

/-- Reads an escape after its backslash. -/
def readEscape : List Char → Except Fault (Char × List Char)
  | [] => before .endInString []
  | 'u' :: cs => readUnicode cs
  | e :: cs =>
    match simpleEscape? e with
    | some d => .ok (d, cs)
    | none => within .badEscape (e :: cs)

/-- Reads up to the closing quote. The first argument bounds the number of characters. -/
def readString : Nat → List Char → Except Fault (List Char × List Char)
  | 0, cs => before .endInString cs
  | _ + 1, [] => before .endInString []
  | n + 1, c :: cs =>
    if c = '"' then .ok ([], cs)
    else if c.toNat < 32 then within .controlCharacter (c :: cs)
    else do
      let (d, cs) ← if c = '\\' then readEscape cs else .ok (c, cs)
      let (ds, cs) ← readString n cs
      return (d :: ds, cs)

/-- The string after an opening quote. -/
def readText (cs : List Char) : Except Fault (String × List Char) := do
  let (s, cs) ← readString (cs.length + 1) cs
  return (String.ofList s, cs)

/-- The rest of a word of which the first letter has been read. -/
def readWord : List Char → List Char → Except Fault (List Char)
  | [], cs => .ok cs
  | _, [] => before .endInValue []
  | w :: ws, c :: cs => if c = w then readWord ws cs else within .badWord (c :: cs)

/-- What is left after the colon behind a key. -/
def readColon (cs : List Char) : Except Fault (List Char) :=
  match skipSpace cs with
  | [] => before .endInObject []
  | ':' :: cs => .ok cs
  | cs => within .noColon cs

/-- Whether a list goes on after a value, with what is left after the comma or the bracket. -/
def readListGap (cs : List Char) : Except Fault (Bool × List Char) :=
  match skipSpace cs with
  | [] => before .endInList []
  | ']' :: cs => .ok (false, cs)
  | ',' :: cs =>
    match skipSpace cs with
    | [] => before .endInValue []
    | ']' :: cs => within .trailingComma (']' :: cs)
    | cs => .ok (true, cs)
  | cs => within .noListEnd cs

/-- Whether an object goes on after a value, with what is left after the opening quote of the next
key or after the brace. -/
def readObjectGap (cs : List Char) : Except Fault (Bool × List Char) :=
  match skipSpace cs with
  | [] => before .endInObject []
  | ',' :: cs =>
    match skipSpace cs with
    | [] => before .endInValue []
    | '"' :: cs => .ok (true, cs)
    | '}' :: cs => within .trailingComma ('}' :: cs)
    | cs => within .noKey cs
  | '}' :: cs => .ok (false, cs)
  | cs => within .noObjectEnd cs

/-- Whether an object has a first member. -/
def readObjectStart (cs : List Char) : Except Fault (Bool × List Char) :=
  match skipSpace cs with
  | [] => before .endInObject []
  | '"' :: cs => .ok (true, cs)
  | '}' :: cs => .ok (false, cs)
  | cs => within .noKey cs

/-- Whether a list has a first item. -/
def readListStart (cs : List Char) : Except Fault (Bool × List Char) :=
  match skipSpace cs with
  | [] => before .endInList []
  | ']' :: cs => .ok (false, cs)
  | cs => .ok (true, cs)

mutual

/-- The first argument bounds the work, the second the nesting that is still allowed. -/
def readValue : Nat → Nat → List Char → Except Fault (Json × List Char)
  | 0, _, cs => before .endInValue cs
  | n + 1, depth, cs =>
    match skipSpace cs with
    | [] => before .endInValue []
    | '"' :: cs => do
      let (s, cs) ← readText cs
      return (.str s, cs)
    | '[' :: cs => do
      if depth = 0 then before .tooDeep cs
      else
        let (more, cs) ← readListStart cs
        let (items, cs) ← if more then readItems n (depth - 1) cs else .ok ([], cs)
        return (.arr items, cs)
    | '{' :: cs => do
      if depth = 0 then before .tooDeep cs
      else
        let (more, cs) ← readObjectStart cs
        let (members, cs) ← if more then readMembers n (depth - 1) cs else .ok ([], cs)
        return (.obj members, cs)
    | 't' :: cs => do return (.bool true, ← readWord ['r', 'u', 'e'] cs)
    | 'f' :: cs => do return (.bool false, ← readWord ['a', 'l', 's', 'e'] cs)
    | 'n' :: cs => do return (.null, ← readWord ['u', 'l', 'l'] cs)
    | c :: cs => do
      if c = '-' ∨ c.isDigit then
        let (x, cs) ← Number.read (c :: cs)
        return (.number x, cs)
      else within .noValue (c :: cs)

def readItems : Nat → Nat → List Char → Except Fault (List Json × List Char)
  | 0, _, cs => before .endInList cs
  | n + 1, depth, cs => do
    let (v, cs) ← readValue n depth cs
    let (more, cs) ← readListGap cs
    if more then
      let (vs, cs) ← readItems n depth cs
      return (v :: vs, cs)
    else return ([v], cs)

/-- The members from the first key on, after its opening quote. -/
def readMembers : Nat → Nat → List Char → Except Fault (List (String × Json) × List Char)
  | 0, _, cs => before .endInObject cs
  | n + 1, depth, cs => do
    let (k, cs) ← readText cs
    let (v, cs) ← readValue n depth (← readColon cs)
    let (more, cs) ← readObjectGap cs
    if more then
      let (ms, cs) ← readMembers n depth cs
      return ((k, v) :: ms, cs)
    else return ([(k, v)], cs)

end

def maxDepth : Nat := 127

/-- Blanks alone may follow a value. -/
def readEnd (cs : List Char) : Except Fault Unit :=
  match skipSpace cs with
  | [] => .ok ()
  | cs => within .trailing cs

/-- A text that is one value, with blanks around it at most. Members are kept as they are written,
so that a key may come again. -/
def readAsWritten (s : String) : Except Fault Json := do
  let cs := s.toList
  let (v, rest) ← readValue (2 * cs.length + 2) maxDepth cs
  readEnd rest
  return v

mutual

/-- A key that comes again keeps its place and takes the later value. -/
def merged : Json → Json
  | .arr items => .arr (mergedItems items)
  | .obj members => .obj (mergedMembers [] members)
  | v => v

def mergedItems : List Json → List Json
  | [] => []
  | v :: vs => merged v :: mergedItems vs

def mergedMembers (acc : List (String × Json)) : List (String × Json) → List (String × Json)
  | [] => acc
  | (k, v) :: ms => mergedMembers (setKey k (merged v) acc) ms

end

def read (s : String) : Except Fault Json := (readAsWritten s).map merged

def parse? (s : String) : Option Json := (read s).toOption

end RequestLang.Json

import RequestLang.Json.Reader

/-! Escapes and numbers that the readable configuration formats share. -/
namespace RequestLang.Scalar

def hexNumber? (cs : List Char) : Option Nat :=
  cs.foldlM (fun n c => (Json.hexValue? c).map (16 * n + ·)) 0

/-- A character from its hexadecimal number of a given width, with what follows. -/
def codePoint? (width : Nat) (cs : List Char) : Option (Char × List Char) := do
  let digits := cs.take width
  if digits.length ≠ width then none
  let n ← hexNumber? digits
  if n.isValidChar then some (Char.ofNat n, cs.drop width) else none

/-- Reads up to a closing double quote, with the escapes of the readable formats. -/
def readEscaped : Nat → List Char → Option (List Char × List Char)
  | 0, _ => none
  | _ + 1, [] => none
  | n + 1, '\\' :: cs => do
    let (c, cs) ←
      match cs with
      | 'x' :: cs => codePoint? 2 cs
      | 'u' :: cs => codePoint? 4 cs
      | 'U' :: cs => codePoint? 8 cs
      | '0' :: cs => some ('\x00', cs)
      | 'a' :: cs => some ('\x07', cs)
      | 'v' :: cs => some ('\x0b', cs)
      | 'e' :: cs => some ('\x1b', cs)
      | ' ' :: cs => some (' ', cs)
      | c :: cs => (Json.simpleEscape? c).map (·, cs)
      | [] => none
    let (rest, cs) ← readEscaped n cs
    return (c :: rest, cs)
  | n + 1, c :: cs =>
    if c = '"' then some ([], cs)
    else do
      let (rest, cs) ← readEscaped n cs
      return (c :: rest, cs)

/-- The value of digits in a base. -/
def digits? (base : Nat) (cs : List Char) : Option Nat :=
  if cs.isEmpty then none
  else cs.foldlM (fun n c => do
    let d ← Json.hexValue? c
    if d < base then some (base * n + d) else none) 0

/-- A number with a mark for its base, or a decimal one without a leading zero. -/
def integer? (cs : List Char) : Option Int :=
  let (negative, body) :=
    match cs with
    | '-' :: cs => (true, cs)
    | '+' :: cs => (false, cs)
    | cs => (false, cs)
  let magnitude :=
    match body with
    | '0' :: 'x' :: ds => digits? 16 ds
    | '0' :: 'o' :: ds => digits? 8 ds
    | '0' :: 'b' :: ds => digits? 2 ds
    | '0' :: _ :: _ => none
    | ds => if ds.all Char.isDigit then digits? 10 ds else none
  magnitude.map fun n => if negative then -(n : Int) else n

def ofFloat (x : Float) : Json := if x.isNaN || x.isInf then .null else .number (.float x)

end RequestLang.Scalar

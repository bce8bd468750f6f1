import RequestLang.Json.Value
import RequestLang.Number.Shortest

/-! Writing JSON: on one line, or with members and items on lines of their own. -/
namespace RequestLang.Json

namespace Number

/-- The fewest digits that read back, positional from `1e-5` up to below `1e16`. -/
def floatText (x : Float) : String :=
  let (m, e) := Shortest.digits x
  let count : Int := (Nat.toDigits 10 m).length
  let point := count + e
  let body :=
    if m = 0 then "0.0"
    else if -5 < point ∧ point ≤ 16 then
      let text := Shortest.positional m e
      if 0 ≤ e then text ++ ".0" else text
    else
      let ds := Nat.toDigits 10 m
      let head := String.ofList (ds.take 1)
      let tail := ds.drop 1
      let mantissa := if tail.isEmpty then head else head ++ "." ++ String.ofList tail
      let power := point - 1
      mantissa ++ "e" ++ (if power < 0 then "-" else "+") ++ toString power.natAbs
  if Shortest.isNegative x then "-" ++ body else body

def text : Number → String
  | .int i => toString i
  | .float x => if x.isNaN || x.isInf then "null" else floatText x

end Number

def hexDigit (n : Nat) : Char := (Nat.toDigits 16 (n % 16)).headD '0'

/-- Quotes, backslashes and control characters are escaped. -/
def escapeChar (c : Char) : List Char :=
  if c = '"' then ['\\', '"']
  else if c = '\\' then ['\\', '\\']
  else if c = '\n' then ['\\', 'n']
  else if c = '\r' then ['\\', 'r']
  else if c = '\t' then ['\\', 't']
  else if c = '\x08' then ['\\', 'b']
  else if c = '\x0c' then ['\\', 'f']
  else if c.toNat < 32 then ['\\', 'u', '0', '0', hexDigit (c.toNat / 16), hexDigit c.toNat]
  else [c]

def quoted (s : String) : String := String.ofList ('"' :: s.toList.flatMap escapeChar ++ ['"'])

/-- How the parts of arrays and objects are set apart. -/
structure Layout where
  comma : String
  colon : String
  /-- Blanks before each item for each level, on a line of its own. -/
  step : Option Nat

namespace Layout

def compact : Layout := ⟨",", ":", none⟩

def spaced : Layout := ⟨", ", ": ", none⟩

def pretty (step : Nat) : Layout := ⟨",", ": ", some step⟩

def newline (l : Layout) (depth : Nat) : String :=
  match l.step with
  | some step => "\n" ++ String.ofList (List.replicate (step * depth) ' ')
  | none => ""

def enclose (l : Layout) (opening closing : String) (depth : Nat) (parts : List String) : String :=
  if parts.isEmpty then opening ++ closing
  else
    opening ++ l.newline (depth + 1) ++ (l.comma ++ l.newline (depth + 1)).intercalate parts ++
      l.newline depth ++ closing

end Layout

mutual

def write (l : Layout) (depth : Nat) : Json → String
  | .null => "null"
  | .bool b => if b then "true" else "false"
  | .number n => n.text
  | .str s => quoted s
  | .arr items => l.enclose "[" "]" depth (writeItems l (depth + 1) items)
  | .obj members => l.enclose "\x7b" "\x7d" depth (writeMembers l (depth + 1) members)

def writeItems (l : Layout) (depth : Nat) : List Json → List String
  | [] => []
  | v :: vs => write l depth v :: writeItems l depth vs

def writeMembers (l : Layout) (depth : Nat) : List (String × Json) → List String
  | [] => []
  | (k, v) :: ms => (quoted k ++ l.colon ++ write l depth v) :: writeMembers l depth ms

end

def compact (v : Json) : String := v.write .compact 0

def spaced (v : Json) : String := v.write .spaced 0

/-- A string stands for itself, everything else for its text. -/
def plainText : Json → String
  | .str s => s
  | v => v.compact

def pretty (step : Nat) (v : Json) : String := v.write (.pretty step) 0

end RequestLang.Json

import RequestLang.Json.Value
import RequestLang.Text.Search
import RequestLang.Text.Utf8

/-! Percent-encoding of bytes. -/
namespace RequestLang.Percent

/-- Hexadecimal digits in capitals. -/
def digit (n : Nat) : Char := if n < 10 then Char.ofNat (48 + n) else Char.ofNat (55 + n)

def ofByte (b : UInt8) : List Char := ['%', digit (b.toNat / 16), digit (b.toNat % 16)]

/-- Encodes the bytes that are not kept. Only ASCII bytes may be kept. -/
def encode (keep : Char → Bool) (bs : Bytes) : List Char :=
  bs.flatMap fun b =>
    let c := Char.ofNat b.toNat
    if b < 0x80 && keep c then [c] else ofByte b

def digitValue? (c : Char) : Option Nat :=
  if c.isDigit then some (c.toNat - 48)
  else if 'a' ≤ c ∧ c ≤ 'f' then some (c.toNat - 87)
  else if 'A' ≤ c ∧ c ≤ 'F' then some (c.toNat - 55)
  else none

def byte? (high low : UInt8) : Option UInt8 := do
  let h ← digitValue? (Char.ofNat high.toNat)
  let l ← digitValue? (Char.ofNat low.toNat)
  return (16 * h + l).toUInt8

/-- Puts a byte for each percent sign with two digits. Everything else stays. -/
def decode : Bytes → Bytes
  | 0x25 :: h :: l :: bs =>
    match byte? h l with
    | some b => b :: decode bs
    | none => 0x25 :: decode (h :: l :: bs)
  | b :: bs => b :: decode bs
  | [] => []

def isUnreserved (c : Char) : Bool := c.isAlphanum || c == '-' || c == '_' || c == '.' || c == '~'

/-- Keeps letters, digits and four marks. -/
def encodeStrictly (s : String) : String := String.ofList (encode isUnreserved (Bytes.ofString s))

end RequestLang.Percent

/-! Pairs of names and values as `name=value&name=value`, as in forms and queries. -/
namespace RequestLang.Form

def keeps (c : Char) : Bool := c.isAlphanum || c == '*' || c == '-' || c == '.' || c == '_'

/-- A blank is written as a plus sign. -/
def encodePiece (s : String) : List Char :=
  (Bytes.ofString s).flatMap fun b => if b = 0x20 then ['+'] else Percent.encode keeps [b]

def encodePair (p : String × String) : List Char := encodePiece p.1 ++ '=' :: encodePiece p.2

def encode (pairs : List (String × String)) : String :=
  String.ofList (List.intercalate ['&'] (pairs.map encodePair))

def decodePiece (cs : List Char) : String :=
  (Percent.decode (Bytes.ofChars (cs.map fun c => if c = '+' then ' ' else c))).lossyText

/-- A name without an equals sign has an empty value. -/
def decodePair (cs : List Char) : String × String :=
  match Text.splitOnce? '=' cs with
  | some (name, value) => (decodePiece name, decodePiece value)
  | none => (decodePiece cs, "")

def decode (s : String) : List (String × String) :=
  (((s.splitOn "&").map String.toList).filter (!·.isEmpty)).map decodePair

/-- A map from names to lists of values, with the values of a name side by side. -/
abbrev Fields := List (String × List String)

def Fields.pairs (fields : Fields) : List (String × String) :=
  fields.flatMap fun (name, values) => values.map (name, ·)

/-- Puts a value behind those of its name. -/
def Fields.add (fields : Fields) (name value : String) : Fields :=
  setKey name (((getKey? name fields).getD []) ++ [value]) fields

end RequestLang.Form

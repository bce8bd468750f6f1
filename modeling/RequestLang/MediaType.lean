import RequestLang.Json.Reader
import RequestLang.Path
import RequestLang.Text.Blank
import RequestLang.Text.Utf8

/-! Media types: of a file by its extension, of inline text by its look, and without parameters. -/
namespace RequestLang.MediaType

def json : String := "application/json"

def formUrlencoded : String := "application/x-www-form-urlencoded"

def plainText : String := "text/plain"

def byExtension : List (String × String) := [
  ("json", json), ("txt", plainText), ("html", "text/html"), ("htm", "text/html"),
  ("xml", "text/xml"), ("csv", "text/csv"), ("png", "image/png"), ("jpg", "image/jpeg"),
  ("jpeg", "image/jpeg"), ("gif", "image/gif"), ("pdf", "application/pdf"),
  ("zip", "application/zip"), ("gz", "application/gzip"), ("js", "text/javascript"),
  ("css", "text/css"), ("svg", "image/svg+xml"), ("bin", "application/octet-stream"),
  ("md", "text/markdown"), ("mp4", "video/mp4"), ("yaml", "text/x-yaml"), ("toml", "text/x-toml")]

/-- The case of an extension does not matter. -/
def ofPath? (path : String) : Option String := do
  let extension ← Path.extension? path
  getKey? extension.toLower byExtension

/-- Text between a pair of braces or of brackets. -/
def looksLikeJson (text : String) : Bool :=
  let cs := Text.trimChars text.toList
  (cs.head? == some '{' && cs.getLast? == some '}') ||
    (cs.head? == some '[' && cs.getLast? == some ']')

/-- Empty text has no media type. -/
def ofContent? (text : String) : Option String :=
  if text.isEmpty then none
  else if looksLikeJson text && (Json.parse? text).isSome then some json
  else some plainText

/-- The type before its parameters. -/
def essence (value : String) : String :=
  String.ofList (Text.trimChars (value.toList.takeWhile (· != ';')))

/-! The grammar of media types: two tokens around a slash, then parameters. -/

inductive Fault where
  | noSlash
  | noEquals
  | openQuote
  | badByte (byte : UInt8) (position : Nat)
  deriving DecidableEq, Repr

def Fault.message : Fault → String
  | .noSlash => "a slash (/) was missing between the type and subtype"
  | .noEquals => "an equals sign (=) was missing between a parameter and its value"
  | .openQuote => "a quote (\") was missing from a parameter value"
  | .badByte byte position =>
    "an invalid token was encountered, " ++
      (String.ofList (Nat.toDigits 16 byte.toNat)).toUpper ++ " at position " ++ toString position

/-- Letters, digits and the marks that stand in tokens of a header. -/
def isTokenChar (c : Char) : Bool :=
  c.isAlphanum || ['!', '#', '$', '%', '&', '\'', '*', '+', '-', '.', '^', '_', Char.ofNat 96, '|', '~'].contains c

/-- The part of a media type that a byte belongs to. -/
inductive Place where
  | type | subtype | name | value | quoted | afterQuote
  deriving DecidableEq, Repr

/-- The part that a byte leads to, and whether a part begins behind the byte. -/
def Place.next? (p : Place) (first : Bool) (b : UInt8) : Option (Place × Bool) :=
  let c := Char.ofNat b.toNat
  match p with
  | .type =>
    if isTokenChar c then some (.type, false)
    else if c = '/' ∧ !first then some (.subtype, true)
    else none
  | .subtype =>
    if isTokenChar c then some (.subtype, false)
    else if c = ';' ∧ !first then some (.name, true)
    else none
  | .name =>
    if c = ' ' ∧ first then some (.name, true)
    else if isTokenChar c then some (.name, false)
    else if c = '=' ∧ !first then some (.value, true)
    else none
  | .value =>
    if c = '"' ∧ first then some (.quoted, true)
    else if isTokenChar c then some (.value, false)
    else if c = ';' ∧ !first then some (.name, true)
    else none
  | .quoted =>
    if c = '"' ∧ !first then some (.afterQuote, false)
    else if 31 < b.toNat ∧ b.toNat ≠ 127 then some (.quoted, false)
    else none
  | .afterQuote =>
    if c = ';' then some (.name, true)
    else if c = ' ' then some (.afterQuote, false)
    else none

/-- What is missing where a text ends in a part. -/
def Place.missing? : Place → Bool → Option Fault
  | .type, _ => some .noSlash
  | .name, false => some .noEquals
  | .quoted, _ => some .openQuote
  | _, _ => none

def faultFrom (p : Place) (first : Bool) (position : Nat) : Bytes → Option Fault
  | [] => p.missing? first
  | b :: bs =>
    match p.next? first b with
    | some (q, first) => faultFrom q first (position + 1) bs
    | none => some (.badByte b position)

/-- Why a text is no media type. -/
def fault? (text : String) : Option Fault := faultFrom .type true 0 (Bytes.ofString text)

end RequestLang.MediaType

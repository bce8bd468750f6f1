import RequestLang.Failure
import RequestLang.Hash
import RequestLang.Json.Value
import RequestLang.Text.Base64
import RequestLang.Text.Blank

/-! Answers to digest challenges. -/
namespace RequestLang.Digest

inductive Algorithm where
  | md5 | sha256
  deriving DecidableEq, Repr

namespace Algorithm

def name : Algorithm → String
  | md5 => "MD5"
  | sha256 => "SHA-256"

/-- The case of the name does not matter, and without a name it is the older one. -/
def ofName? : Option String → Option Algorithm
  | none => some md5
  | some name => [md5, sha256].find? (·.name == name.toUpper)

/-- The hash of a text in hexadecimal digits. -/
def hash (a : Algorithm) (text : String) : String :=
  match a with
  | md5 => (Md5.digest (Bytes.ofString text)).hexText
  | sha256 => (Sha256.digest (Bytes.ofString text)).hexText

end Algorithm

def isNameChar (c : Char) : Bool := c.isAlphanum || c == '_' || c == '-'

structure Parameter where
  name : String
  value : String
  deriving DecidableEq, Repr

/-- A value in quotes, or up to a comma or a blank, with the number of characters it takes. -/
def valueOf (cs : List Char) : String × Nat :=
  let bare :=
    let value := cs.takeWhile fun c => !(c == ',' || Text.isBlank c)
    (String.ofList value, value.length)
  match cs with
  | '"' :: rest =>
    let value := rest.takeWhile (· != '"')
    if value.length < rest.length then (String.ofList value, value.length + 2) else bare
  | _ => bare

/-- A parameter at the head of `cs`, with the number of characters it takes. -/
def parameterAt? (cs : List Char) : Option (Parameter × Nat) :=
  match cs with
  | c :: _ =>
    if c.isAlpha then
      let name := cs.takeWhile isNameChar
      let rest := cs.dropWhile isNameChar
      match Text.trimLeft rest with
      | '=' :: after =>
        let start := Text.trimLeft after
        let (value, size) := valueOf start
        some (⟨(String.ofList name).toLower, value⟩, cs.length - start.length + size)
      | _ => none
    else none
  | [] => none

/-- Parameters from left to right. The first argument is how many characters of the one last found
are still to be passed. -/
def scan : Nat → List Char → List Parameter
  | _, [] => []
  | n + 1, _ :: cs => scan n cs
  | 0, c :: cs =>
    match parameterAt? (c :: cs) with
    | some (p, size) => p :: scan (size - 1) cs
    | none => scan 0 cs

/-- The parameters after the name of the scheme, if it is this one. -/
def parameters? (challenge : String) : Option (List Parameter) :=
  let cs := Text.trimChars challenge.toList
  let scheme := cs.takeWhile (!Text.isBlank ·)
  match cs.dropWhile (!Text.isBlank ·) with
  | _ :: rest => if (String.ofList scheme).toLower = "digest" then some (scan 0 rest) else none
  | [] => none

/-- Of parameters with one name the last counts. -/
def find? (ps : List Parameter) (name : String) : Option String :=
  (ps.reverse.find? (·.name == name)).map Parameter.value

def offersAuth (ps : List Parameter) : Bool :=
  match find? ps "qop" with
  | some offered => (offered.splitOn ",").any fun v => Text.trim v == "auth"
  | none => false

def nonceCount : String := "00000001"

structure Attempt where
  user : String
  password : String
  method : String
  uri : String
  clientNonce : String
  deriving DecidableEq, Repr

/-- The proof that the password is known. -/
def response (a : Algorithm) (t : Attempt) (realm nonce : String) (auth : Bool) : String :=
  let ha1 := a.hash (t.user ++ ":" ++ realm ++ ":" ++ t.password)
  let ha2 := a.hash (t.method ++ ":" ++ t.uri)
  if auth then
    a.hash (ha1 ++ ":" ++ nonce ++ ":" ++ nonceCount ++ ":" ++ t.clientNonce ++ ":auth:" ++ ha2)
  else a.hash (ha1 ++ ":" ++ nonce ++ ":" ++ ha2)

def quoted (name value : String) : String := name ++ "=\"" ++ value ++ "\""

/-- The header that answers a challenge, if it is one of this scheme. -/
def answer (t : Attempt) (challenge : String) : Except Failure (Option String) :=
  match parameters? challenge with
  | none => .ok none
  | some ps =>
    match find? ps "nonce" with
    | none => .error (.network "digest challenge without a nonce")
    | some nonce =>
      match Algorithm.ofName? (find? ps "algorithm") with
      | none =>
        .error (.network
          ("unsupported digest algorithm `" ++ ((find? ps "algorithm").getD "") ++ "`"))
      | some a =>
        let realm := (find? ps "realm").getD ""
        let auth := offersAuth ps
        let fields :=
          [quoted "username" t.user, quoted "realm" realm, quoted "nonce" nonce,
            quoted "uri" t.uri, quoted "response" (response a t realm nonce auth),
            "algorithm=" ++ a.name] ++
          (if auth then ["qop=auth", "nc=" ++ nonceCount, quoted "cnonce" t.clientNonce] else []) ++
          ((find? ps "opaque").map (quoted "opaque")).toList
        .ok (some ("Digest " ++ ", ".intercalate fields))

end RequestLang.Digest

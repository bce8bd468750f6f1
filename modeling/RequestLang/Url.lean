import RequestLang.Url.Percent
import RequestLang.Url.Host

/-! Absolute URLs: their parts, and reading them. -/
namespace RequestLang

structure Url where
  scheme : String
  username : String := ""
  password : String := ""
  host : Option String := none
  /-- Only a port that is not the usual one of the scheme. -/
  port : Option Nat := none
  path : String := ""
  query : Option String := none
  fragment : Option String := none
  deriving DecidableEq, Repr

namespace Url

def usualPort? : String → Option Nat
  | "http" | "ws" => some 80
  | "https" | "wss" => some 443
  | "ftp" => some 21
  | _ => none

def isSpecial (scheme : String) : Bool := (usualPort? scheme).isSome

def portOrUsual? (u : Url) : Option Nat := u.port.or (usualPort? u.scheme)

/-- The path with the query. -/
def resource (u : Url) : String :=
  match u.query with
  | some q => u.path ++ "?" ++ q
  | none => u.path

def queryPairs (u : Url) : List (String × String) := Form.decode (u.query.getD "")

def authorityText (u : Url) (host : String) : String :=
  let user :=
    if u.username.isEmpty && u.password.isEmpty then ""
    else u.username ++ (if u.password.isEmpty then "" else ":" ++ u.password) ++ "@"
  let port :=
    match u.port with
    | some p => ":" ++ toString p
    | none => ""
  "//" ++ user ++ host ++ port

def text (u : Url) : String :=
  let fragment :=
    match u.fragment with
    | some f => "#" ++ f
    | none => ""
  u.scheme ++ ":" ++ ((u.host.map u.authorityText).getD "") ++ u.resource ++ fragment

def withoutUser (u : Url) : Url := { u with username := "", password := "" }

/-! Which characters stay as they are. -/

def isPlain (c : Char) : Bool := 32 ≤ c.toNat && c.toNat < 127

def keptInFragment (c : Char) : Bool :=
  isPlain c && !(c == ' ' || c == '"' || c == '<' || c == '>' || c.toNat == 96)

def keptInPath (c : Char) : Bool :=
  keptInFragment c && !(c == '#' || c == '?' || c == '{' || c == '}')

def keptInUser (c : Char) : Bool :=
  keptInPath c && !(['/', ':', ';', '=', '@', '[', '\\', ']', '^', '|'].contains c)

def keptInQuery (special : Bool) (c : Char) : Bool :=
  isPlain c && !(c == ' ' || c == '"' || c == '#' || c == '<' || c == '>' || (special && c == '\''))

def encode (keep : Char → Bool) (cs : List Char) : String :=
  String.ofList (Percent.encode keep (Bytes.ofChars cs))

/-! Paths as lists of segments, the last of which has no slash after it. -/

def isSingleDot (segment : List Char) : Bool :=
  [".", "%2e"].contains (String.ofList segment).toLower

def isDoubleDot (segment : List Char) : Bool :=
  ["..", ".%2e", "%2e.", "%2e%2e"].contains (String.ofList segment).toLower

/-- A letter with a colon or a bar names a drive. -/
def isDrive : List Char → Bool
  | [a, b] => a.isAlpha && (b == ':' || b == '|')
  | _ => false

/-- Goes up one segment, but not above a drive. -/
def leave (back : List (List Char)) : List (List Char) :=
  match back with
  | segment :: rest => if isDrive segment then segment :: rest else rest
  | [] => []

/-- Follows the segments. `back` holds those behind, the nearest first. -/
def resolveDots (back : List (List Char)) : List (List Char) → List (List Char)
  | [] => back.reverse
  | [last] =>
    if isDoubleDot last then ([] :: leave back).reverse
    else if isSingleDot last then ([] :: back).reverse
    else (last :: back).reverse
  | s :: rest =>
    if isDoubleDot s then resolveDots (leave back) rest
    else if isSingleDot s then resolveDots back rest
    else resolveDots (s :: back) rest

/-- The text of a path. Without a scheme that is known a path may be empty. -/
def pathText (special : Bool) (cs : List Char) : String :=
  let cs := if special then cs.map fun c => if c = '\\' then '/' else c else cs
  if cs.isEmpty then (if special then "/" else "")
  else
    let body :=
      match cs with
      | '/' :: body => body
      | body => body
    let segments := (Host.splitChars '/' body).map fun s => (encode keptInPath s).toList
    "/" ++ String.ofList (List.intercalate ['/'] (resolveDots [] segments))

/-! Cutting a text into parts. -/

/-- The text up to the first character of a class, and the rest. -/
def upTo (stop : Char → Bool) (cs : List Char) : List Char × List Char :=
  (cs.takeWhile (!stop ·), cs.dropWhile (!stop ·))

def isSchemeChar (c : Char) : Bool := c.isAlphanum || c == '+' || c == '-' || c == '.'

def scheme? (cs : List Char) : Option (String × List Char) :=
  match cs.head?, cs.dropWhile isSchemeChar with
  | some c, ':' :: rest =>
    if c.isAlpha then some ((String.ofList (cs.takeWhile isSchemeChar)).toLower, rest) else none
  | _, _ => none

/-- The user is what stands before the last at sign. -/
def splitUser (cs : List Char) : Option (List Char) × List Char :=
  match cs.reverse.dropWhile (· != '@') with
  | _ :: before => (some before.reverse, (cs.reverse.takeWhile (· != '@')).reverse)
  | [] => (none, cs)

/-- A host ends at a colon outside brackets. -/
def splitHost (inBrackets : Bool) : List Char → List Char × List Char
  | [] => ([], [])
  | c :: cs =>
    if c = ':' && !inBrackets then ([], c :: cs)
    else
      let (host, rest) := splitHost (if c = '[' then true else if c = ']' then false else inBrackets) cs
      (c :: host, rest)

/-- A port is a number below `2 ^ 16` that is not written when it is the usual one. -/
def readPort (scheme : String) (cs : List Char) : Except UrlFault (Option Nat) :=
  match cs with
  | ':' :: ds =>
    if ds.isEmpty then .ok none
    else
      let n := ds.foldl (fun n d => 10 * n + (d.toNat - 48)) 0
      if !ds.all Char.isDigit || n ≥ 65536 then .error .badPort
      else if usualPort? scheme = some n then .ok none
      else .ok (some n)
  | _ => .ok none

structure Tail where
  path : List Char
  query : Option (List Char)
  fragment : Option (List Char)

def splitTail (cs : List Char) : Tail :=
  let (front, fragment) := upTo (· == '#') cs
  let (path, query) := upTo (· == '?') front
  ⟨path, query.tail?, fragment.tail?⟩

/-- Reads what follows the double slash. -/
def readAuthority (scheme : String) (cs : List Char) : Except UrlFault Url := do
  let special := isSpecial scheme
  let (authority, rest) :=
    upTo (fun c => c == '/' || c == '?' || c == '#' || (special && c == '\\')) cs
  let (user, place) := splitUser authority
  if user = some [] && place.isEmpty && !rest.isEmpty then throw .emptyHost
  let (name, password) :=
    match user with
    | some u => upTo (· == ':') u
    | none => ([], [])
  let (hostText, portText) := splitHost false place
  if special && hostText.isEmpty then throw .emptyHost
  let host ← if special then Host.ofDomain hostText else Host.ofOpaque hostText
  if host.isEmpty && !portText.isEmpty then throw .emptyHost
  let port ← readPort scheme portText
  let hasUser := !name.isEmpty || password.length > 1
  if host.isEmpty && hasUser then throw .emptyHost
  let tail := splitTail rest
  return {
    scheme
    username := encode keptInUser name
    password := encode keptInUser (password.drop 1)
    host := some (String.ofList host)
    port
    path := pathText special tail.path
    query := tail.query.map (encode (keptInQuery special))
    fragment := tail.fragment.map (encode keptInFragment) }

/-- A URL of a scheme that is not known and has no host. -/
def readPlain (scheme : String) (cs : List Char) : Url :=
  let tail := splitTail cs
  { scheme
    path :=
      match tail.path with
      | '/' :: _ => pathText false tail.path
      | opaquePath => encode isPlain opaquePath
    query := tail.query.map (encode (keptInQuery false))
    fragment := tail.fragment.map (encode keptInFragment) }

/-- Blanks and control characters around a text do not count, nor do line breaks and tabs. -/
def cleaned (s : String) : List Char :=
  let cs := s.toList.dropWhile (·.toNat ≤ 32)
  let cs := (cs.reverse.dropWhile (·.toNat ≤ 32)).reverse
  cs.filter fun c => c != '\t' && c != '\n' && c != '\r'

/-- Reads an absolute URL. After a known scheme any number of slashes opens the authority. -/
def read (s : String) : Except UrlFault Url :=
  match scheme? (cleaned s) with
  | none => .error .relative
  | some (scheme, rest) =>
    if isSpecial scheme then
      readAuthority scheme (rest.dropWhile fun c => c == '/' || c == '\\')
    else
      match rest with
      | '/' :: '/' :: rest => readAuthority scheme rest
      | rest => .ok (readPlain scheme rest)

end Url
end RequestLang

import RequestLang.Files
import RequestLang.Json.Printer
import RequestLang.Json.Skip
import RequestLang.Number.Decimal

/-! Access tokens in a file, under keys and with a time at which they end. -/
namespace RequestLang

structure CachedToken where
  accessToken : String
  /-- In seconds. -/
  expiresOn : Int
  deriving DecidableEq, Repr

abbrev TokenCache := List (String × CachedToken)

def Json.int64? : Json → Option Int
  | .number (.int i) => if fitsSigned i then some i else none
  | _ => none

namespace CachedToken

/-- A token is used only while this many seconds are left. -/
def margin : Int := 60

def isValid (t : CachedToken) (now : Int) : Bool := now + margin < t.expiresOn

def members (t : CachedToken) : List (String × Json) :=
  [("access_token", .str t.accessToken), ("expires_on", .int t.expiresOn)]

def json (t : CachedToken) : Json := .obj t.members

/-- The keys of the members that matter. -/
def fields : List String := ["access_token", "expires_on"]

/-- Each field comes once. -/
def ofJson? : Json → Option CachedToken
  | .obj members => do
    let token ← (← Json.sole? "access_token" members).string?
    let time ← (← Json.sole? "expires_on" members).int64?
    return ⟨token, time⟩
  | .arr [token, time] => do return ⟨← token.string?, ← time.int64?⟩
  | _ => none

end CachedToken

namespace TokenCache

def json (c : TokenCache) : Json := .obj (c.map fun (key, t) => (key, t.json))

def text (c : TokenCache) : String := (json c).pretty 2

def store (c : TokenCache) (key : String) (t : CachedToken) : TokenCache := setKey key t c

/-- The entries of a text, each of which has to be one. -/
def ofText? (text : String) : Option TokenCache := do
  let members ← (← (Json.readWhole (Json.readRecords CachedToken.fields) text).toOption).members?
  members.foldlM (fun (c : TokenCache) (key, v) => do return c.store key (← CachedToken.ofJson? v)) []

/-- A file that is missing or cannot be read holds no tokens. -/
def ofFile (fs : Files) (path : String) : TokenCache :=
  (((fs.read? path).bind Bytes.text?).bind ofText?).getD []

/-- The token of a key that is still good. -/
def get? (c : TokenCache) (now : Int) (key : String) : Option String :=
  ((getKey? key c).filter (·.isValid now)).map CachedToken.accessToken

/-- Puts a token into the file beside those that it holds. -/
def storeIn? (fs : Files) (path key : String) (t : CachedToken) : Option Files :=
  fs.write? path (Bytes.ofString ((ofFile fs path).store key t).text)

end TokenCache
end RequestLang

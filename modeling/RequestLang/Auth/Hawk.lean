import RequestLang.Auth.Outgoing
import RequestLang.Hash
import RequestLang.Text.Base64

/-! Headers with a code over the request, a time and a nonce. -/
namespace RequestLang.Hawk

structure Keys where
  id : String
  key : String
  /-- In lower case. -/
  algorithm : String
  deriving DecidableEq, Repr

def digest? (algorithm : String) : Except Failure (Bytes → Bytes) :=
  match algorithm with
  | "sha256" => .ok Sha256.digest
  | "sha1" => .ok Sha1.digest
  | other =>
    .error (.authIncomplete
      ("hawk algorithm `" ++ other ++ "` is not supported, use sha256 or sha1"))

def lines (parts : List String) : String := String.join (parts.map (· ++ "\n"))

/-- The hash of a body with its media type. -/
def payloadHash (digest : Bytes → Bytes) (contentType : String) (body : Bytes) : String :=
  let head := Bytes.ofString (lines ["hawk.1.payload", contentType])
  (digest (head ++ body ++ [0x0A])).base64Text

/-- What the code is computed over. -/
def normalized (o : Outgoing) (url : Url) (time : Int) (nonce : String) (hash : Option String) :
    String :=
  lines ["hawk.1.header", toString time, nonce, o.method.name, url.resource, url.host.getD "",
    toString (url.portOrUsual?.getD 80), hash.getD "", ""]

def header (k : Keys) (o : Outgoing) (time : Int) (nonce : String) : Except Failure String := do
  let url ← o.readUrl
  let digest ← digest? k.algorithm
  let hash := o.body.map
    (payloadHash digest (((o.headers.get? "content-type").map MediaType.essence).getD ""))
  let code := hmac digest (Bytes.ofString k.key) (Bytes.ofString (normalized o url time nonce hash))
  let quoted (name value : String) : String := name ++ "=\"" ++ value ++ "\""
  let fields :=
    [quoted "id" k.id, quoted "ts" (toString time), quoted "nonce" nonce] ++
      (hash.map (quoted "hash")).toList ++ [quoted "mac" code.base64Text]
  return "Hawk " ++ ", ".intercalate fields

end RequestLang.Hawk

import RequestLang.Auth.Outgoing
import RequestLang.Json.Printer
import RequestLang.Json.Reader
import RequestLang.MediaType
import RequestLang.Text.Utf8

/-! Responses, and how they are shown. -/
namespace RequestLang

structure Response where
  status : Nat
  reason : String
  version : String
  url : String
  /-- Fields in order. A name may come more than once. -/
  headers : List (String × String)
  body : Bytes
  deriving DecidableEq, Repr

namespace Response

def text (r : Response) : String := r.body.lossyText

/-- The first field of a name, whose case does not matter. -/
def header? (r : Response) (name : String) : Option String :=
  (r.headers.find? (·.1.toLower == name.toLower)).map Prod.snd

def isJson (r : Response) : Bool :=
  match r.header? "content-type" with
  | some value => MediaType.essence value == MediaType.json
  | none => false

/-- The body as it is shown on a terminal: JSON is laid out. -/
def display (r : Response) : String :=
  if r.isJson then
    match (r.body.text?.bind Json.parse?) with
    | some v => v.pretty 2
    | none => r.text
  else r.text

/-- The values of a name that comes again are joined by commas. -/
def joinFields (fields : List (String × String)) : List (String × String) :=
  fields.foldl (fun acc (name, value) =>
    match getKey? name acc with
    | some old => setKey name (old ++ ", " ++ value) acc
    | none => acc ++ [(name, value)]) []

/-- A response as JSON. -/
def view (r : Response) : Json :=
  .obj [("status", .nat r.status), ("reason", .str r.reason), ("url", .str r.url),
    ("headers", .obj ((joinFields r.headers).map fun (k, v) => (k, .str v))),
    ("body", .str r.text)]

end Response

/-! What is sent over a network, and what comes back. -/

/-- A request and how it travels. -/
structure Message where
  request : Outgoing
  /-- The parts of a multipart body. -/
  parts : Option (List Part) := none
  proxy : Proxy := {}
  certificate : Option Certificate := none
  /-- Whether certificates of others are believed without a check. -/
  trusting : Bool := false
  /-- Whether cookies go with it, and whether those of the response are kept. -/
  cookies : Bool := false
  deriving DecidableEq, Repr

/-- The world beyond this machine. -/
structure Network where
  /-- What comes back for a message, or why nothing does. -/
  exchange : Message → Except String Response
  /-- What the command line of Azure prints for a scope, or why nothing. -/
  azureCommand : String → Except String String

namespace Network

/-- A name that stands for this machine, or an address. -/
def isAddress (host : String) : Bool :=
  host == "localhost" || host.toList.head? == some '[' || host.toList.all fun c => c.isDigit || c == '.'

/-- The host of a URL or of a place that is written without a scheme. -/
def hostOf (text : String) : String :=
  match Url.read text with
  | .ok u =>
    match u.host with
    | some host => host
    | none => (((Url.read ("http://" ++ text)).toOption.bind Url.host).getD "")
  | .error _ => (((Url.read ("http://" ++ text)).toOption.bind Url.host).getD "")

/-- The host to connect to first: that of the proxy, if there is one for the scheme. -/
def nearestHost (m : Message) : String :=
  let proxy? :=
    match Url.read m.request.url with
    | .ok u => if u.scheme = "http" then m.proxy.http else m.proxy.https
    | .error _ => none
  hostOf (proxy?.getD m.request.url)

/-- A machine without a network: no name is found and no address is reached. -/
def unreachable : Network where
  exchange m :=
    if isAddress (nearestHost m) then
      .error "error trying to connect: tcp connect error: Network is unreachable (os error 101)"
    else
      .error ("error trying to connect: dns error: failed to lookup address information: " ++
        "Temporary failure in name resolution")
  azureCommand _ := .error "No such file or directory (os error 2)"

end Network
end RequestLang

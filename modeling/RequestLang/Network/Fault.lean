import RequestLang.MediaType
import RequestLang.Network

/-! Messages that are refused before anything is sent, and why. -/
namespace RequestLang

def isFieldName (name : String) : Bool :=
  !name.isEmpty && name.toList.all MediaType.isTokenChar

/-- Values hold no control characters other than tabs. -/
def isFieldValue (value : String) : Bool :=
  value.toList.all fun c => c == '\t' || (32 ≤ c.toNat && c.toNat ≠ 127)

/-- Causes in the order in which they are found. -/
inductive MessageFault where
  | mediaType (fault : MediaType.Fault)
  | url (fault : UrlFault)
  | fieldName
  | fieldValue
  /-- The URL has no host, or its scheme is not one of the web. -/
  | scheme (place : String)
  | proxyScheme
  | proxy (fault : MessageFault)
  deriving DecidableEq, Repr

def MessageFault.reason : MessageFault → String
  | .mediaType fault => ": mime parse error: " ++ fault.message
  | .url fault => ": " ++ fault.message
  | .fieldName => ": invalid HTTP header name"
  | .fieldValue => ": failed to parse header value"
  | .scheme place => " for url (" ++ place ++ "): URL scheme is not allowed"
  | .proxyScheme => ": unknown proxy scheme"
  | .proxy fault => ": builder error" ++ fault.reason

def MessageFault.message (f : MessageFault) : String := "builder error" ++ f.reason

namespace Url

def isWeb (u : Url) : Bool := u.scheme == "http" || u.scheme == "https"

/-- Reads a URL that names a host. -/
def readHosted (text : String) : Except MessageFault Url :=
  match read text with
  | .error fault => .error (.url fault)
  | .ok u => if (u.host.getD "").isEmpty then .error (.scheme u.text) else .ok u

end Url

/-- The scheme of a proxy may be left out. -/
def checkProxy (text : String) : Except MessageFault Unit := do
  let url ←
    match Url.readHosted text with
    | .ok u => pure u
    | .error (.url .relative) =>
      match Url.readHosted ("http://" ++ text) with
      | .ok u => pure u
      | .error _ => throw (.proxy (.url .relative))
    | .error (.scheme plain) =>
      match Url.readHosted ("http://" ++ text) with
      | .ok u => pure u
      | .error _ => throw (.proxy (.scheme plain))
    | .error fault => throw (.proxy fault)
  if !url.isWeb then throw .proxyScheme

def Proxy.check (p : Proxy) : Except MessageFault Unit := do
  p.http.toList.forM checkProxy
  p.https.toList.forM checkProxy

def checkPart (p : Part) : Except MessageFault Unit :=
  match p.mime.bind MediaType.fault? with
  | some fault => .error (.mediaType fault)
  | none => .ok ()

def checkField (field : String × String) : Except MessageFault Unit :=
  if !isFieldName field.1 then .error .fieldName
  else if !isFieldValue field.2 then .error .fieldValue
  else .ok ()

/-- What cannot be sent at all is refused before anything is sent. -/
def Message.check (m : Message) : Except MessageFault Unit := do
  (m.parts.getD []).forM checkPart
  let url ← Url.readHosted m.request.url
  m.request.headers.toList.forM checkField
  if !url.isWeb then throw (.scheme url.text)

end RequestLang

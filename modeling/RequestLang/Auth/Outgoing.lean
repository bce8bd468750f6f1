import RequestLang.Definition
import RequestLang.Failure
import RequestLang.Url

/-! A request as it goes out, which credentials are put into. -/
namespace RequestLang

structure Outgoing where
  method : Method
  url : String
  headers : Headers
  /-- None for a request without a body and for a multipart one. -/
  body : Option Bytes
  deriving DecidableEq, Repr

def Definition.outgoing (d : Definition) : Outgoing :=
  ⟨d.method, d.fullUrl, d.headers, d.body?⟩

namespace Outgoing

def readUrl (o : Outgoing) : Except Failure Url :=
  match Url.read o.url with
  | .ok u => .ok u
  | .error fault => .error (.network ("invalid url `" ++ o.url ++ "`: " ++ fault.message))

def withHeader (o : Outgoing) (name value : String) : Outgoing :=
  { o with headers := o.headers.insert name value }

def authorize (o : Outgoing) (value : String) : Outgoing := o.withHeader "authorization" value

end Outgoing
end RequestLang

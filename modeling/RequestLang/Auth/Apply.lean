import RequestLang.Auth.Aws
import RequestLang.Auth.Azure
import RequestLang.Auth.Digest
import RequestLang.Auth.Hawk
import RequestLang.Text.Base64

/-! A name and a password in one header. -/
namespace RequestLang.Basic

def headerValue (user password : String) : String :=
  "Basic " ++ (Bytes.ofString (user ++ ":" ++ password)).base64Text

end RequestLang.Basic

/-! Putting credentials into a request, before it is sent and after it was refused. -/
namespace RequestLang.Auth

def hawkKeys (id key : String) (algorithm : Option String) : Hawk.Keys :=
  ⟨id, key, (algorithm.getD usualHawkAlgorithm).toLower⟩

def awsKeys (accessId secretKey : String) (service region sessionToken : Option String) : Aws.Keys :=
  ⟨accessId, secretKey, service.getD "", region.getD AwsHost.usualRegion, sessionToken⟩

/-- Nothing is known to a digest before it is asked for. -/
def apply (n : Network) (s : Azure.Setting) (a : Auth) (o : Outgoing) : Act Outgoing :=
  match a with
  | .basic user password => return o.authorize (Basic.headerValue user password)
  | .digest .. => return o
  | .ntlm .. =>
    throw (.network "ntlm authentication is not supported by this transport, use --curl")
  | .hawk id key algorithm => do
    let now := (← get).surroundings.now.seconds
    let nonce ← Act.draw (Generator.drawStr (some 6))
    let header ← Act.ofExcept (Hawk.header (hawkKeys id key algorithm) o now (String.ofList nonce))
    return o.authorize header
  | .aws accessId secretKey service region sessionToken => do
    let now := Moment.ofSeconds (← get).surroundings.now.seconds
    Act.ofExcept
      (Aws.sign .usual (awsKeys accessId secretKey service region sessionToken) now o)
  | .azure flow => do return o.authorize ("Bearer " ++ (← Azure.accessToken n s flow))

/-- The request to be sent again after a refusal, where the credentials know an answer to it. -/
def answer (a : Auth) (challenge : String) (o : Outgoing) : Act (Option Outgoing) :=
  match a with
  | .digest user password => do
    let url ← Act.ofExcept o.readUrl
    let clientNonce ← Act.draw (Draw.times 16 (Draw.oneOf Generator.hexDigits))
    let attempt : Digest.Attempt :=
      ⟨user, password, o.method.name, url.resource, String.ofList clientNonce⟩
    return (← Act.ofExcept (Digest.answer attempt challenge)).map o.authorize
  | _ => return none

end RequestLang.Auth

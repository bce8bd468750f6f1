import RequestLang.Auth.AwsHost
import RequestLang.Compile.Payload

/-! Credentials and certificates with every placeholder expanded and every default filled in. -/
namespace RequestLang

namespace Resolve

/-- An empty text counts as none. -/
def expandGiven (text : Option String) : Resolve (Option String) := do
  return (← expandOptional text).filter (!·.isEmpty)

/-- The path of a certificate that is there. -/
def certificatePath (fs : Files) (source : Option String) (path : String) : Resolve String := do
  let written ← expand path
  let path := Path.relativeTo source written
  let _ ← contentOf fs .certificate written path
  return path

end Resolve

namespace AzureFlow

def usualScope : String := "https://management.azure.com/.default"

def expandScope (scope : Option String) : Resolve (Option String) := do
  return some ((← Resolve.expandGiven scope).getD usualScope)

def expand (fs : Files) (source : Option String) : AzureFlow → Resolve AzureFlow
  | .secret tenant client clientSecret scope => do
    let tenant ← Resolve.expand tenant
    let client ← Resolve.expand client
    let clientSecret ← Resolve.expand clientSecret
    return .secret tenant client clientSecret (← expandScope scope)
  | .certificate tenant client path password scope => do
    let path ← Resolve.certificatePath fs source path
    let tenant ← Resolve.expand tenant
    let client ← Resolve.expand client
    let password ← Resolve.expandGiven password
    return .certificate tenant client path password (← expandScope scope)
  | .cli scope => do return .cli (← expandScope scope)
  | .device scope => do return .device (← expandScope scope)

end AzureFlow

namespace Auth

def usualHawkAlgorithm : String := "sha256"

/-- The credentials of a request to `url` that stands in the file `source`. -/
def expand (fs : Files) (url : String) (source : Option String) : Auth → Resolve Auth
  | .basic user password => do
    let user ← Resolve.expand user
    return .basic user (← Resolve.expand password)
  | .digest user password => do
    let user ← Resolve.expand user
    return .digest user (← Resolve.expand password)
  | .ntlm user password => do
    let user ← Resolve.expand user
    return .ntlm user (← Resolve.expand password)
  | .hawk id key algorithm => do
    let id ← Resolve.expand id
    let key ← Resolve.expand key
    return .hawk id key (some ((← Resolve.expandGiven algorithm).getD usualHawkAlgorithm))
  | .aws accessId secretKey service region sessionToken => do
    let accessId ← Resolve.expand accessId
    let secretKey ← Resolve.expand secretKey
    if accessId.isEmpty || secretKey.isEmpty then
      throw (.authIncomplete "aws auth requires access_id and secret_key")
    let service ← Resolve.expandGiven service
    let region ← Resolve.expandGiven region
    let (service, region) := AwsHost.complete url service region
    if service.isEmpty then
      throw (.authIncomplete "aws service could not be derived from the url")
    return .aws accessId secretKey (some service) (some region) (← Resolve.expandGiven sessionToken)
  | .azure flow => do return .azure (← flow.expand fs source)

end Auth

def Certificate.expand (fs : Files) (source : Option String) : Certificate → Resolve Certificate
  | .pem certificate key => do
    let certificate ← Resolve.certificatePath fs source certificate
    match key with
    | none => return .pem certificate none
    | some key => return .pem certificate (some (← Resolve.certificatePath fs source key))
  | .p12 file password => do
    let file ← Resolve.certificatePath fs source file
    return .p12 file (← Resolve.expandOptional password)

end RequestLang

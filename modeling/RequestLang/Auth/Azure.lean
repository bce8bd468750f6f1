import RequestLang.Auth.TokenCache
import RequestLang.Compile.Credentials
import RequestLang.Network
import RequestLang.Text.Base64
import RequestLang.Text.Blank
import RequestLang.Text.Search
import RequestLang.World

/-! Blocks of bytes in a text, between a mark that begins one and a mark that ends it. -/
namespace RequestLang.Pem

structure Block where
  label : String
  contents : Bytes
  deriving DecidableEq, Repr

/-- Why a block is none. -/
inductive Fault where
  | noBeginLabel
  | noEndLabel
  | labelsDiffer (first last : String)
  | contents (fault : Base64.Fault)
  | header (line : String)
  deriving DecidableEq, Repr

def Fault.text : Fault → String
  | .noBeginLabel => "missing BEGIN tag"
  | .noEndLabel => "missing END tag"
  | .labelsDiffer first last =>
    "mismatching BEGIN (\"" ++ first ++ "\") and END (\"" ++ last ++ "\") tags"
  | .contents fault => "invalid data: " ++ fault.text
  | .header line => "invalid header: " ++ line

/-- What stands before a mark, and what follows it. -/
def around? (mark : String) (cs : List Char) : Option (List Char × List Char) :=
  (Text.through? mark.toList cs).map fun n => (cs.take (n - mark.length), cs.drop n)

/-- A block as it stands in a text: both labels, and what is between them. -/
structure Framed where
  first : List Char
  body : List Char
  last : List Char

def dropGap (cs : List Char) : List Char := cs.dropWhile " \t\n\r".toList.contains

/-- The first block, and what follows it. -/
def framed? (cs : List Char) : Option (Framed × List Char) := do
  let (_, cs) ← around? "-----BEGIN " cs
  let (first, cs) ← around? "-----" cs
  let (body, cs) ← around? "-----END " (dropGap cs)
  let (last, cs) ← around? "-----" cs
  return (⟨first, body, last⟩, dropGap cs)

/-- All blocks in order. The first argument bounds their number. -/
def framedFrom : Nat → List Char → List Framed
  | 0, _ => []
  | n + 1, cs =>
    match framed? cs with
    | none => []
    | some (f, rest) => f :: framedFrom n rest

def linesOf (cs : List Char) : List String := (String.ofList cs).splitOn "\n"

/-- An empty line parts the headers from the contents. -/
def Framed.headersAndData (f : Framed) : List Char × List Char :=
  ((around? "\n\n" f.body).orElse fun _ => around? "\r\n\r\n" f.body).getD ([], f.body)

def Framed.block (f : Framed) : Except Fault Block := do
  if f.first.isEmpty then throw .noBeginLabel
  if f.last.isEmpty then throw .noEndLabel
  if f.first ≠ f.last then throw (.labelsDiffer (String.ofList f.first) (String.ofList f.last))
  let (headers, data) := f.headersAndData
  let data := String.join ((linesOf data).map Text.trimEnd)
  let contents ← (Base64.decode (Bytes.ofString data)).mapError .contents
  if let some line := (linesOf headers).find? fun l => !l.isEmpty && !l.toList.contains ':' then
    throw (.header (Text.trimEnd line))
  return ⟨String.ofList f.first, contents⟩

/-- The blocks of a text, all of which have to be whole. -/
def read (text : String) : Except Fault (List Block) :=
  (framedFrom text.length text.toList).mapM Framed.block

def isBundle (text : String) : Bool := Text.holds "-----BEGIN".toList text.toList

end RequestLang.Pem

/-! Access tokens for Azure: from a file, from the authority, or from its command line. -/
namespace RequestLang.Azure

/-- Whom to ask for tokens, and the files that keep them. -/
structure Setting where
  authority : String
  principals : String
  commandLine : String
  deriving DecidableEq, Repr

def usualAuthority : String := "https://login.microsoftonline.com"

def Setting.usual (home : String) : Setting where
  authority := usualAuthority
  principals := Path.join home ".dothttp.msal_token_cache.json"
  commandLine := Path.join home ".dothttp.azure-cli.json"

def failure (reason : String) : Failure := .network ("azure auth failed: " ++ reason)

def tokenUrl (s : Setting) (tenant : String) : String :=
  String.ofList (s.authority.toList.reverse.dropWhile (· == '/')).reverse ++ "/" ++ tenant ++
    "/oauth2/v2.0/token"

def usualLifetime : Int := 300

/-- What proves who the client is. -/
inductive Proof where
  | secret (text : String)
  | assertion (text : String)
  deriving DecidableEq, Repr

def Proof.fields : Proof → List (String × String)
  | .secret text => [("client_secret", text)]
  | .assertion text =>
    [("client_assertion_type", "urn:ietf:params:oauth:client-assertion-type:jwt-bearer"),
      ("client_assertion", text)]

/-- The request that asks the authority for a token. -/
def tokenRequest (url client scope : String) (proof : Proof) : Message where
  request :=
    { method := .POST
      url
      headers := Headers.ofList [("content-type", MediaType.formUrlencoded)]
      body := some (Bytes.ofString (Form.encode
        ([("grant_type", "client_credentials"), ("client_id", client), ("scope", scope)] ++
          proof.fields))) }

def unsendable (m : Message) (reason : String) : Failure :=
  let url :=
    match Url.read m.request.url with
    | .ok u => u.withoutUser.text
    | .error _ => m.request.url
  .network ("error sending request for url (" ++ url ++ "): " ++ reason)

/-- Keeps a token. That the file cannot be written does no harm. -/
def remember (path key : String) (t : CachedToken) : Act Unit := do
  let w ← get
  match TokenCache.storeIn? w.files path key t with
  | some files => set { w with files }
  | none => return ()

def cached? (path key : String) : Act (Option String) := do
  let w ← get
  return (TokenCache.ofFile w.files path).get? w.surroundings.now.seconds key

def statusText (r : Response) : String :=
  toString r.status ++ " " ++ (if r.reason.isEmpty then "<unknown status code>" else r.reason)

/-- A token with the seconds that it lasts. -/
def ofReply? : Json → Option (String × Int)
  | .obj members => do
    let token ← (← Json.sole? "access_token" members).string?
    match ← Json.atMostOne? "expires_in" members with
    | none => return (token, usualLifetime)
    | some time => return (token, ← time.int64?)
  | .arr [token] | .arr [token, .null] => do return (← token.string?, usualLifetime)
  | .arr [token, time] => do return (← token.string?, ← time.int64?)
  | _ => none

/-- What the authority says in a text. -/
def replied? (text : String) : Option (String × Int) :=
  (Json.readWhole (Json.readRecord ["access_token", "expires_in"]) text).toOption.bind ofReply?

def clientCredentials (n : Network) (s : Setting) (tenant client scope : String) (proof : Proof) :
    Act String := do
  let key := tenant ++ ":" ++ client ++ ":" ++ scope
  if let some token ← cached? s.principals key then return token
  let url := tokenUrl s tenant
  let message := tokenRequest url client scope proof
  match n.exchange message with
  | .error reason => throw (unsendable message reason)
  | .ok reply =>
    if reply.status < 200 ∨ 300 ≤ reply.status then
      throw (failure ("token request to " ++ url ++ " for client " ++ client ++ " returned " ++
        statusText reply ++ ": " ++ reply.text))
    match reply.body.text?.bind replied? with
    | none => throw (.network "error decoding response body")
    | some (token, lifetime) =>
      remember s.principals key ⟨token, (← get).surroundings.now.seconds + lifetime⟩
      return token

/-- The command line tells when a token ends, or the token lasts the usual time. -/
def ofPrinted? : Json → Option (String × Option Int)
  | .obj members => do
    let token ← (← Json.sole? "accessToken" members).string?
    match ← Json.atMostOne? "expires_on" members with
    | none => return (token, none)
    | some time => return (token, some (← time.int64?))
  | .arr [token] | .arr [token, .null] => do return (← token.string?, none)
  | .arr [token, time] => do return (← token.string?, some (← time.int64?))
  | _ => none

def printed? (text : String) : Option (String × Option Int) :=
  (Json.readWhole (Json.readRecord ["accessToken", "expires_on"]) text).toOption.bind ofPrinted?

def commandLineToken (n : Network) (s : Setting) (scope : String) : Act String := do
  if let some token ← cached? s.commandLine scope then return token
  match n.azureCommand scope with
  | .error reason => throw (failure ("could not run `az`: " ++ reason))
  | .ok text =>
    match printed? text with
    | none => throw (failure "unexpected `az` output")
    | some (token, time) =>
      remember s.commandLine scope
        ⟨token, time.getD ((← get).surroundings.now.seconds + usualLifetime)⟩
      return token

/-- A file in blocks has to hold a certificate and a key. Signing with a key is not done here, so
every key is taken for one of the wrong form. -/
def assertion (path : String) : Act Proof := do
  let w ← get
  match w.files.read? path with
  | none => throw (.fileNotFound .certificate path)
  | some content =>
    let text := content.lossyText
    if !Pem.isBundle text then throw (failure "failed to parse P12")
    match Pem.read text with
    | .error fault => throw (failure ("failed to parse PEM file: " ++ fault.text))
    | .ok blocks =>
      if !blocks.any fun b => b.label == "CERTIFICATE" then
        throw (failure "no CERTIFICATE found in PEM file")
      if !blocks.any fun b => Text.holds "PRIVATE KEY".toList b.label.toList then
        throw (failure "no unencrypted PRIVATE KEY found in PEM file")
      throw (failure "failed to load private key: InvalidKeyFormat")

def accessToken (n : Network) (s : Setting) : AzureFlow → Act String
  | .secret tenant client secret scope =>
    clientCredentials n s tenant client (scope.getD AzureFlow.usualScope) (.secret secret)
  | .certificate tenant client path _ scope => do
    let proof ← assertion path
    clientCredentials n s tenant client (scope.getD AzureFlow.usualScope) proof
  | .cli scope => commandLineToken n s (scope.getD AzureFlow.usualScope)
  | .device scope => commandLineToken n s (scope.getD AzureFlow.usualScope)

end RequestLang.Azure

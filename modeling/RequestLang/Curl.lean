import RequestLang.Auth.Apply
import RequestLang.Session
import RequestLang.Shell.Words

/-! A definition as a command line for `curl`. -/
namespace RequestLang.Curl

/-- An option of the command, alone or with a value. -/
inductive Switch where
  | bare (name : String)
  | valued (name value : String)
  deriving DecidableEq, Repr

def Switch.words : Switch → List String
  | .bare name => [name]
  | .valued name value => [name, value]

structure Command where
  method : Method
  url : String
  switches : List Switch
  deriving DecidableEq, Repr

namespace Command

/-- The words of the command, as the shell hands them on. -/
def words (c : Command) : List String :=
  ["curl", "-X", c.method.name, "--url", c.url] ++ c.switches.flatMap Switch.words

def lineText (words : List String) : String := " ".intercalate (words.map Shell.quote)

/-- Each option stands on a line of its own, and a backslash leads from line to line. -/
def text (c : Command) : String :=
  " \\\n".intercalate
    (lineText ["curl", "-X", c.method.name, "--url", c.url] ::
      c.switches.map fun s => lineText s.words)

end Command

def headerSwitch (field : String × String) : Switch :=
  .valued "-H" (field.1 ++ ": " ++ field.2)

/-! Sockets. -/

/-- The byte that two digits write. A plus sign may stand for the first digit. -/
def socketByte? (high low : UInt8) : Option UInt8 :=
  if high = 0x2B then Percent.byte? 0x30 low else Percent.byte? high low

def socketBytes : Bytes → Bytes
  | 0x25 :: h :: l :: bs =>
    match socketByte? h l with
    | some b => b :: socketBytes bs
    | none => 0x25 :: socketBytes (h :: l :: bs)
  | b :: bs => b :: socketBytes bs
  | [] => []

def socketPath (cs : List Char) : String := (socketBytes (Bytes.ofChars cs)).lossyText

/-- The path of the socket, and the URL to be asked for there. -/
def splitSocket? (url : String) : Option (String × String) :=
  let cs := url.toList
  if unixScheme.toList.isPrefixOf cs then
    let rest := cs.drop unixScheme.length
    let isEnd (c : Char) : Bool := c == '/' || c == '?' || c == '#'
    let path := rest.dropWhile (!isEnd ·)
    let path := if path.isEmpty || path.head? == some '/' then path else '/' :: path
    some (socketPath (rest.takeWhile (!isEnd ·)), "http://localhost" ++ String.ofList path)
  else none

/-! The options, part by part. -/

/-- The fields that signing adds. -/
def isSigning (name : String) : Bool :=
  name.toLower.startsWith "x-amz" || name.toLower == "authorization"

def authSwitches (now : Nat) (d : Definition) : Except Failure (List Switch) :=
  match d.auth with
  | some (.digest user password) =>
    .ok [.bare "--digest", .valued "--user" (user ++ ":" ++ password)]
  | some (.basic user password) => .ok [.valued "--user" (user ++ ":" ++ password)]
  | some (.aws accessId secretKey service region sessionToken) => do
    let keys := Auth.awsKeys accessId secretKey service region sessionToken
    let signed ← Aws.sign .usual keys (Moment.ofSeconds now) d.outgoing
    return (signed.headers.toList.filter (isSigning ·.1)).map headerSwitch
  | _ => .ok []

def certificateSwitches : Option Certificate → List Switch
  | some (.pem certificate key) =>
    .valued "--cert" certificate :: (key.map (.valued "--key")).toList
  | some (.p12 file password) =>
    [.valued "--cert" (file ++ ":" ++ password.getD ""), .valued "--cert-type" "P12"]
  | none => []

/-- A part that was read from a file names the file. -/
def partText (p : Part) : String :=
  match p.filename with
  | some _ => p.name ++ "=@" ++ p.source
  | none => p.name ++ "=" ++ p.source

def payloadSwitches : Option Payload → List Switch
  | some (.file path _ _) => [.valued "--data" ("@" ++ path)]
  | some (.multipart parts) => parts.map fun p => .valued "--form" (partText p)
  | some (.json value) => [.valued "-d" (value.pretty 4)]
  | some (.form fields) => [.valued "-d" (Form.encode fields.pairs)]
  | some (.raw body _) => [.valued "-d" body]
  | none => []

/-- The command that does what sending the definition at `now` does. -/
def command (now : Nat) (d : Definition) : Except Failure Command := do
  let auth ← authSwitches now d
  let insecure := if d.flags.insecure then [Switch.bare "-k"] else []
  let headers := (Aws.sorted d.headers.toList).map headerSwitch
  let (socket, url) :=
    match splitSocket? d.fullUrl with
    | some (path, url) => ([Switch.valued "--unix-socket" path], url)
    | none => ([], d.fullUrl)
  return {
    method := d.method
    url
    switches :=
      auth ++ certificateSwitches d.certificate ++ insecure ++ headers ++ socket ++
        payloadSwitches d.payload }

end RequestLang.Curl

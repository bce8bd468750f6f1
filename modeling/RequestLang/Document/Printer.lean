import RequestLang.Document
import RequestLang.Number.Decimal
import RequestLang.Text.Place

/-! The canonical text of a request file. -/
namespace RequestLang

def indent (depth : Nat) : String := String.ofList (List.replicate (4 * depth) ' ')

def JsonKey.written : JsonKey → String
  | .literal l => l.written
  | .reference text => text

namespace JsonTerm

def block (opening closing : String) (depth : Nat) (lines : List String) : String :=
  if lines.isEmpty then opening ++ closing
  else
    opening ++ "\n" ++ ",\n".intercalate (lines.map (indent (depth + 1) ++ ·)) ++ "\n" ++
      indent depth ++ closing

mutual

/-- Members and items stand on lines of their own, four blanks deeper than what holds them. -/
def written (depth : Nat) : JsonTerm → String
  | .null => "null"
  | .bool b => if b then "true" else "false"
  | .number text => text
  | .literal l => l.written
  | .reference text => text
  | .arithmetic text => text
  | .array items => block "[" "]" depth (writtenItems (depth + 1) items)
  | .object members => block "\x7b" "\x7d" depth (writtenMembers (depth + 1) members)

def writtenItems (depth : Nat) : List JsonTerm → List String
  | [] => []
  | t :: ts => written depth t :: writtenItems depth ts

def writtenMembers (depth : Nat) : List (JsonKey × JsonTerm) → List String
  | [] => []
  | (k, t) :: ms => (k.written ++ ": " ++ written depth t) :: writtenMembers depth ms

end

end JsonTerm

def callText (function : String) (args : List String) : String :=
  function ++ "(" ++ ", ".intercalate args ++ ")"

/-- Arguments with their names, without those that are missing. -/
def namedArguments (args : List (String × Option String)) : List String :=
  args.filterMap fun (name, value) => value.map fun v => name ++ "=" ++ quoteText v

namespace Auth

def written : Auth → String
  | .basic user password => callText "basicauth" [quoteText user, quoteText password]
  | .digest user password => callText "digestauth" [quoteText user, quoteText password]
  | .ntlm user password => callText "ntlmauth" [quoteText user, quoteText password]
  | .hawk id key algorithm =>
    callText "hawkauth" ([quoteText id, quoteText key] ++ (algorithm.map quoteText).toList)
  | .aws accessId secretKey service region sessionToken =>
    callText "awsauth" (namedArguments [("access_id", some accessId), ("secret_key", some secretKey),
      ("service", service), ("region", region), ("session_token", sessionToken)])
  | .azure (.secret tenant client secret scope) =>
    callText "azurespsecret" (namedArguments [("tenant_id", some tenant), ("client_id", some client),
      ("client_secret", some secret), ("scope", scope)])
  | .azure (.certificate tenant client path password scope) =>
    callText "azurespcert" (namedArguments [("tenant_id", some tenant), ("client_id", some client),
      ("certificate_path", some path), ("certificate_password", password), ("scope", scope)])
  | .azure (.cli scope) => callText "azurecli" (namedArguments [("scope", scope)])
  | .azure (.device scope) => callText "azuredevicecode" (namedArguments [("scope", scope)])

end Auth

def Certificate.written : Certificate → String
  | .pem certificate key =>
    callText "certificate" (namedArguments [("cert", some certificate), ("key", key)])
  | .p12 file password =>
    callText "p12" (namedArguments [("file", some file), ("password", password)])

def PartTerm.written (p : PartTerm) : String :=
  indent 1 ++ quoteText p.name ++ " < " ++ quoteText p.source ++
    (match p.mime with
      | some mime => " ; " ++ quoteText mime
      | none => "") ++ ",\n"

def PayloadTerm.written : PayloadTerm → String
  | .raw chunks mime =>
    callText "data" (" ".intercalate (chunks.map Literal.written) :: (mime.map quoteText).toList)
  | .form term => "urlencoded(" ++ term.written 0 ++ ")"
  | .json term => "json(" ++ term.written 0 ++ ")"
  | .file path mime => callText "fileinput" (quoteText path :: (mime.map quoteText).toList)
  | .multipart parts => "files(\n" ++ String.join (parts.map PartTerm.written) ++ ")"

/-- The block opens with the language unless it is the usual one. -/
def Script.written (s : Script) : String :=
  let language := if s.language = .python then " python" else ""
  "> \x7b%" ++ language ++ "\n" ++ s.source ++ "\n%\x7d"

namespace Request

def nameLine (r : Request) : List String :=
  match r.name with
  | some name =>
    [callText "@name" [quoteText name] ++
      (match r.base with
        | some base => " : " ++ quoteText base
        | none => "")]
  | none => []

def flagLines (f : Flags) : List String :=
  (if f.clear then ["@clear"] else []) ++ (if f.insecure then ["@insecure"] else []) ++
    (if f.noParentScript then ["@no-parent-script"] else [])

def targetLine (r : Request) : String :=
  match r.method with
  | some m => m.name ++ " " ++ quoteText r.url
  | none => quoteText r.url

def headLines (r : Request) : List String :=
  let description :=
    match r.description with
    | some text => (Text.splitLines text.toList).map fun line => "// " ++ String.ofList line
    | none => []
  description ++ r.nameLine ++ flagLines r.flags ++
    r.tags.map (fun (key, value) => callText ("@" ++ key) [quoteText value]) ++
    [r.targetLine]

def clauseLines (r : Request) : List String :=
  (r.auth.map Auth.written).toList ++ (r.certificate.map Certificate.written).toList ++
    r.headers.map (fun (k, v) => quoteText k ++ ": " ++ quoteText v) ++
    r.queries.map (fun (k, v) => "? " ++ quoteText k ++ "= " ++ quoteText v) ++
    (r.payload.map PayloadTerm.written).toList ++
    (r.output.map fun path => callText "output" [quoteText path]).toList ++
    (r.script.map Script.written).toList

/-- Every line ends, and two blank lines close the request. -/
def written (r : Request) : String :=
  String.join ((r.headLines ++ r.clauseLines).map (· ++ "\n")) ++ "\n\n"

end Request

/-- An argument that reads as a number or a placeholder stands bare. -/
def argumentText (value : String) : String :=
  if Numeral.isNumeral value || ['{', '{'].isPrefixOf value.toList then value else quoteText value

def VariableBody.written : VariableBody → String
  | .value term => term.written 0
  | .call function args => callText ("$" ++ function) (args.map argumentText)
  | .template text => "p" ++ quoteText text

/-- Imports come first, then variables, then requests. -/
def Document.written (d : Document) : String :=
  let head := d.imports.map (fun i => "import " ++ quoteText i.path ++ ";\n") ++
    d.vars.map fun v => "var " ++ v.name ++ " = " ++ v.body.written ++ ";\n"
  String.join head ++ (if head.isEmpty then "" else "\n") ++
    String.join (d.requests.map Request.written)

end RequestLang

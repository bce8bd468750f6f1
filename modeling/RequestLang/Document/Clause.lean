import RequestLang.Document.Term

/-! Reading the clauses of a request: what may stand below its URL. -/
namespace RequestLang

/-- A string literal or a placeholder, which keeps its braces. -/
def Cursor.textValue (c : Cursor) (what : String) : Except Fault (String × Cursor) := do
  let t ← c.expect (fun t => t.isString || t.kind == .placeholder) what
  return (if t.kind = .placeholder then t.text else t.literal.value, c.advance)

/-- An argument of a call, with the name it may have been given. -/
structure Argument where
  name : Option String
  value : String
  deriving DecidableEq, Repr

namespace Argument

def isNamed (c : Cursor) : Bool :=
  match c.token? with
  | some t =>
    t.kind == .identifier &&
      (c.nextSignificant?.map fun n => n.isOp "=" || n.text == ":").getD false
  | none => false

def readName (c : Cursor) : Option String × Cursor :=
  if isNamed c then (c.token?.map Token.text, c.advance.skip.advance.skip) else (none, c)

/-- Arguments up to the closing parenthesis. -/
def readWithin : Nat → Cursor → Except Fault (List Argument × Cursor)
  | 0, c => .error (c.endFault (.expected "')'"))
  | n + 1, c => do
    let c := c.skip
    if c.isPunct ")" then return ([], c.advance)
    let (name, c) := readName c
    let (value, c) ← c.textValue "string argument"
    let c := c.skip
    if c.isPunct "," then
      let (rest, c) ← readWithin n c.advance
      return (⟨name, value⟩ :: rest, c)
    if c.isPunct ")" then return ([⟨name, value⟩], c.advance)
    if c.atEnd then throw (c.endFault (.expected "')'"))
    throw (c.faultHere (.expected "',' or ')'"))

def readAll (c : Cursor) : Except Fault (List Argument × Cursor) := do
  let c ← c.expectPunct "(" "'('"
  readWithin (c.ahead.length + 1) c

/-- The argument of that name, or else the one at that place among the unnamed ones. -/
def pick (args : List Argument) (name : String) (place : Nat) : Option String :=
  match args.find? (·.name == some name) with
  | some a => some a.value
  | none => ((args.filter (·.name.isNone))[place]?).map Argument.value

def pickRequired (args : List Argument) (call : Token) (name : String) (place : Nat) :
    Except Fault String :=
  match pick args name place with
  | some value => .ok value
  | none => .error (Cursor.fault (.missingArgument call.text name) call.span)

end Argument

def isCallOf (names : List String) (c : Cursor) : Bool :=
  match c.token? with
  | some t =>
    t.kind == .identifier && names.contains t.text &&
      (c.nextSignificant?.map (·.isPunct "(")).getD false
  | none => false

namespace Auth

def calls : List String :=
  ["basicauth", "digestauth", "ntlmauth", "hawkauth", "awsauth", "azurespsecret", "azurespcert",
    "azurecli", "azuredevicecode"]

def ofArguments (call : Token) (args : List Argument) : Except Fault Auth := do
  let required := Argument.pickRequired args call
  let optional := Argument.pick args
  match call.text with
  | "basicauth" => return .basic (← required "username" 0) (← required "password" 1)
  | "digestauth" => return .digest (← required "username" 0) (← required "password" 1)
  | "ntlmauth" => return .ntlm (← required "username" 0) (← required "password" 1)
  | "hawkauth" => return .hawk (← required "id" 0) (← required "key" 1) (optional "algorithm" 2)
  | "awsauth" =>
    return .aws (← required "access_id" 0) (← required "secret_key" 1) (optional "service" 2)
      (optional "region" 3) (optional "session_token" 4)
  | "azurespsecret" =>
    return .azure (.secret (← required "tenant_id" 0) (← required "client_id" 1)
      (← required "client_secret" 2) (optional "scope" 3))
  | "azurespcert" =>
    return .azure (.certificate (← required "tenant_id" 0) (← required "client_id" 1)
      (← required "certificate_path" 2) (optional "certificate_password" 3) (optional "scope" 4))
  | "azurecli" => return .azure (.cli (optional "scope" 0))
  | _ => return .azure (.device (optional "scope" 0))

end Auth

namespace Certificate

def calls : List String := ["certificate", "p12"]

def ofArguments (call : Token) (args : List Argument) : Except Fault Certificate := do
  if call.text = "p12" then
    return .p12 (← Argument.pickRequired args call "file" 0) (Argument.pick args "password" 1)
  return .pem (← Argument.pickRequired args call "cert" 0) (Argument.pick args "key" 1)

end Certificate

/-- A call and what its arguments make. -/
def Cursor.readCall {α : Type} (c : Cursor)
    (make : Token → List Argument → Except Fault α) : Except Fault (α × Cursor) := do
  let call ← c.expect (·.kind == .identifier) "call"
  let (args, c) ← Argument.readAll c.advance.skip
  return (← make call args, c)

namespace PayloadTerm

def calls : List String :=
  ["text", "data", "urlencoded", "json", "fileinput", "multipart", "files"]

/-- A separator and a media type, if the separator follows. -/
def readMime (separator : String) (c : Cursor) : Except Fault (Option String × Cursor) := do
  let c := c.skipInline
  if c.isPunct separator then
    let (mime, c) ← c.advance.skipInline.textValue "mime type"
    return (some mime, c)
  return (none, c)

/-- String literals one after another, with the cursor where the next one would stand. -/
def chunksWithin : Nat → Cursor → List Literal × Cursor
  | 0, c => ([], c)
  | n + 1, c =>
    let c := c.skip
    match c.token? with
    | some t =>
      if t.isString then
        let (chunks, c) := chunksWithin n c.advance
        (t.literal :: chunks, c)
      else ([], c)
    | none => ([], c)

def readRaw (c : Cursor) : Except Fault (PayloadTerm × Cursor) := do
  let (chunks, c) := chunksWithin (c.ahead.length + 1) c
  if chunks.isEmpty then throw (c.faultHere (.expected "text"))
  let (mime, c) ← readMime "," c
  return (.raw chunks mime, c)

/-- Parts up to the closing parenthesis, which stays. -/
def partsWithin : Nat → Cursor → Except Fault (List PartTerm × Cursor)
  | 0, c => .ok ([], c)
  | n + 1, c => do
    let c := c.skip
    if c.isPunct ")" || c.atEnd then return ([], c)
    let (name, c) ← c.textValue "multipart field name"
    let c := c.skip
    let _ ← c.expect (·.isOp "<") "'<'"
    let (source, c) ← c.advance.skip.textValue "file path or content"
    let (mime, c) ← readMime ";" c
    let c := c.skip
    if c.isPunct "," then
      let (parts, c) ← partsWithin n c.advance
      return (⟨name, source, mime⟩ :: parts, c)
    return ([⟨name, source, mime⟩], c)

def readBody (call : String) (c : Cursor) : Except Fault (PayloadTerm × Cursor) := do
  let term (make : JsonTerm → PayloadTerm) : Except Fault (PayloadTerm × Cursor) := do
    let (t, c) ← JsonTerm.read c
    return (make t, c)
  match call with
  | "json" => term .json
  | "urlencoded" => term .form
  | "data" => if c.isPunct "\x7b" then term .form else readRaw c
  | "text" => readRaw c
  | "fileinput" =>
    let (path, c) ← c.textValue "file path"
    let (mime, c) ← readMime "," c
    return (.file path mime, c)
  | _ =>
    let (parts, c) ← partsWithin (c.ahead.length + 1) c
    return (.multipart parts, c)

def startsAt (c : Cursor) : Bool := isCallOf calls c || (c.token?.map (·.isOp "<")).getD false

def read (c : Cursor) : Except Fault (PayloadTerm × Cursor) := do
  let call ← c.expect (fun _ => true) "payload"
  if call.isOp "<" then
    let (path, c) ← c.advance.skipInline.textValue "file path"
    let (mime, c) ← readMime ";" c
    return (.file path mime, c)
  let c ← c.advance.skip.expectPunct "(" "'('"
  let (payload, c) ← readBody call.text c.skip
  let c ← c.skip.expectPunct ")" "')'"
  return (payload, c)

end PayloadTerm

namespace Script

def languageOf? (word : String) : Option ScriptLanguage :=
  if word = "javascript" ∨ word = "js" then some .javascript
  else if word = "python" ∨ word = "py" then some .python
  else none

/-- What stands between the marks of a script block. -/
def innerChars (block : List Char) : List Char :=
  match block with
  | '{' :: '%' :: rest =>
    match rest.reverse with
    | '}' :: '%' :: back => back.reverse
    | _ => block
  | _ => block

/-- Blank lines before the first line and all blanks after the last are left out. -/
def tidy (body : List Char) : List Char :=
  let lines := (Text.splitLines body).dropWhile fun line => (Text.trimLeft line).isEmpty
  Text.trimRight (List.intercalate ['\n'] lines)

/-- A block may name its language in its first word. -/
def ofBlock (block : String) : Script :=
  let inner := innerChars block.toList
  let trimmed := Text.trimLeft inner
  let word := trimmed.takeWhile (!Text.isBlank ·)
  match languageOf? (String.ofList word) with
  | some language => ⟨language, String.ofList (tidy (trimmed.drop word.length))⟩
  | none => ⟨.javascript, String.ofList (tidy inner)⟩

end Script

/-- A quoted path, or the text up to the end of the line. -/
def Cursor.barePath (c : Cursor) : Except Fault (String × Cursor) :=
  if (c.token?.map Token.isString).getD false then c.textValue "output path"
  else
    let run := c.ahead.takeWhile fun t => t.kind != .newline && t.kind != .comment
    let path := Text.trimChars (JsonTerm.runText run)
    if path.isEmpty then .error (c.endFault (.expected "output path"))
    else .ok (String.ofList path,
      { c with behind := run.reverse ++ c.behind, ahead := c.ahead.drop run.length })

inductive ClauseKind where
  | auth | certificate | query | header | payload | output | redirect | script
  deriving DecidableEq, Repr

inductive Clause where
  | auth (a : Auth)
  | certificate (c : Certificate)
  | query (key value : String)
  | header (key value : String)
  | payload (p : PayloadTerm)
  | output (path : String)
  | script (s : Script)
  deriving Repr

/-- A string with a colon after it opens a header. -/
def Cursor.opensHeader (c : Cursor) : Bool := (c.nextSignificant?.map (·.isPunct ":")).getD false

namespace ClauseKind

/-- The kind of clause that the current token opens. -/
def at? (c : Cursor) : Option ClauseKind := do
  let t ← c.token?
  if isCallOf Auth.calls c then some .auth
  else if isCallOf Certificate.calls c then some .certificate
  else if t.isOp "?" then some .query
  else if t.isString && c.opensHeader then some .header
  else if PayloadTerm.startsAt c then some .payload
  else if t.kind = .identifier ∧ t.text = "output" ∧ (c.next?.map (·.isPunct "(")).getD false then
    some .output
  else if t.isOp ">>" then some .redirect
  else if t.isOp ">" then some .script
  else none

end ClauseKind

namespace Clause

def readQuery (c : Cursor) : Except Fault (Clause × Cursor) := do
  let (key, c) ← c.advance.skipInline.textValue "query key"
  let c := c.skipInline
  let _ ← c.expect (fun t => t.isOp "=" || t.isPunct ":") "'='"
  let (value, c) ← c.advance.skipInline.textValue "query value"
  return (.query key value, c)

def readHeader (c : Cursor) : Except Fault (Clause × Cursor) := do
  let key ← c.expect Token.isString "header name"
  let (value, c) ← c.advance.skip.advance.skipInline.textValue "header value"
  return (.header key.literal.value value, c)

def readOutput (c : Cursor) : Except Fault (Clause × Cursor) := do
  let (path, c) ← c.advance.advance.skip.textValue "output path"
  let c ← c.skip.expectPunct ")" "')'"
  return (.output path, c)

/-- A word after the block that names a language wins over one inside. -/
def readScript (c : Cursor) : Except Fault (Clause × Cursor) := do
  let c := c.advance.skipInline
  let block ← c.expect (·.kind == .script) "script block '\x7b% ... %\x7d'"
  let script := Script.ofBlock block.text
  let c := c.advance.skipInline
  let trailing := (c.token?.filter (·.kind == .identifier)).bind (Script.languageOf? ·.text)
  match trailing with
  | some language => return (.script { script with language }, c.advance)
  | none => return (.script script, c)

def read (kind : ClauseKind) (c : Cursor) : Except Fault (Clause × Cursor) :=
  match kind with
  | .auth => do
    let (a, c) ← c.readCall Auth.ofArguments
    return (.auth a, c)
  | .certificate => do
    let (a, c) ← c.readCall Certificate.ofArguments
    return (.certificate a, c)
  | .query => readQuery c
  | .header => readHeader c
  | .payload => do
    let (p, c) ← PayloadTerm.read c
    return (.payload p, c)
  | .output => readOutput c
  | .redirect => do
    let (path, c) ← c.advance.skipInline.barePath
    return (.output path, c)
  | .script => readScript c

end Clause
end RequestLang

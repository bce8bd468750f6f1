import RequestLang.Document.Clause
import RequestLang.Token.Lexer

/-! Reading a request file. -/
namespace RequestLang
namespace Request

def readName (r : Request) (c : Cursor) : Except Fault (Request × Cursor) := do
  if r.name.isSome then throw (c.faultHere .namedTwice)
  let c ← c.advance.skipInline.expectPunct "(" "'('"
  let c := c.skip
  let start := c.offset
  let (name, c) ← c.textValue "request name"
  let r := { r with name := some name, spans := { r.spans with name := some ⟨start, c.lastEnd⟩ } }
  let c := c.skip
  let (r, c) ←
    if c.isPunct ":" then do
      let (base, c) ← c.advance.skip.textValue "base request name"
      pure ({ r with base := some base }, c.skip)
    else pure (r, c)
  let c ← c.expectPunct ")" "')'"
  let c := c.skipInline
  if r.base.isNone && c.isPunct ":" then
    let (base, c) ← c.advance.skipInline.textValue "base request name"
    return ({ r with base := some base }, c)
  return (r, c)

def readTag (r : Request) (t : Token) (c : Cursor) : Except Fault (Request × Cursor) :=
  match t.text with
  | "@name" => r.readName c
  | "@clear" => .ok ({ r with flags := { r.flags with clear := true } }, c.advance)
  | "@insecure" => .ok ({ r with flags := { r.flags with insecure := true } }, c.advance)
  | "@no-parent-script" =>
    .ok ({ r with flags := { r.flags with noParentScript := true } }, c.advance)
  | other => do
    let c := c.advance
    if !c.isPunct "(" then throw (Cursor.fault (.unknownTag other) t.span)
    let (value, c) ← c.advance.skip.textValue "annotation value"
    let c ← c.skip.expectPunct ")" "')'"
    let key := String.ofList (other.toList.dropWhile (· == '@'))
    return ({ r with
      tags := r.tags ++ [(key, value)]
      spans := { r.spans with tags := r.spans.tags ++ [⟨t.start, c.lastEnd⟩] } }, c)

def readTags : Nat → Request → Cursor → Except Fault (Request × Cursor)
  | 0, r, c => .ok (r, c)
  | n + 1, r, c =>
    match c.token? with
    | some t =>
      if t.kind = .tag then do
        let (r, c) ← r.readTag t c
        readTags n r c.skip
      else .ok (r, c)
    | none => .ok (r, c)

/-- A method, if there is one, and the URL. -/
def readTarget (r : Request) (c : Cursor) : Except Fault (Request × Cursor) := do
  let some t := c.token? | throw (c.endFault (.expected "URL"))
  let (r, c) ←
    if t.kind = .identifier then
      match Method.ofName? t.text with
      | some m => pure ({ r with method := some m }, c.advance.skipInline)
      | none => throw (c.faultHere (.unknownMethod t.text))
    else pure (r, c)
  let start := c.offset
  let (url, c) ← c.textValue "URL"
  return ({ r with url, spans := { r.spans with url := ⟨start, c.lastEnd⟩ } }, c)

/-- Auth, certificate and payload may be given once. -/
def repeated? (r : Request) : ClauseKind → Option String
  | .auth => if r.auth.isSome then some "Auth" else none
  | .certificate => if r.certificate.isSome then some "Certificate" else none
  | .payload => if r.payload.isSome then some "Payload" else none
  | _ => none

def add (r : Request) (clause : Clause) (span : Span) : Request :=
  match clause with
  | .auth a => { r with auth := some a, spans := { r.spans with auth := some span } }
  | .certificate a =>
    { r with certificate := some a, spans := { r.spans with certificate := some span } }
  | .query k v =>
    { r with queries := r.queries ++ [(k, v)], spans := { r.spans with queries := r.spans.queries ++ [span] } }
  | .header k v =>
    { r with headers := r.headers ++ [(k, v)], spans := { r.spans with headers := r.spans.headers ++ [span] } }
  | .payload p => { r with payload := some p, spans := { r.spans with payload := some span } }
  | .output path => { r with output := some path, spans := { r.spans with output := some span } }
  | .script s => { r with script := some s, spans := { r.spans with script := some span } }

/-- Clauses in any order; a script is the last of them. -/
def readClauses : Nat → Request → Cursor → Except Fault (Request × Cursor)
  | 0, r, c => .ok (r, c)
  | n + 1, r, c => do
    let c := c.skip
    match ClauseKind.at? c with
    | none => return (r, c)
    | some kind =>
      if let some clause := r.repeated? kind then throw (c.faultHere (.declaredTwice clause))
      let start := c.offset
      let (clause, c) ← Clause.read kind c
      let r := r.add clause ⟨start, c.lastEnd⟩
      if kind = .script then return (r, c) else readClauses n r c

def startsAt (c : Cursor) : Bool :=
  match c.token? with
  | some t =>
    match t.kind with
    | .tag => true
    | .identifier => (Method.ofName? t.text).isSome
    | .string | .tripleString => !c.opensHeader
    | _ => false
  | none => false

def read (source : Option String) (c : Cursor) : Except Fault (Request × Cursor) := do
  let start := c.offset
  let blank : Request := { description := c.leadingComments?, source }
  let (r, c) ← readTags (c.ahead.length + 1) blank c
  let (r, c) ← r.readTarget c
  let (r, c) ← readClauses (c.ahead.length + 1) r c
  return ({ r with spans := { r.spans with whole := ⟨start, c.lastEnd⟩ } }, c)

end Request

def Import.read (c : Cursor) : Except Fault (Import × Cursor) := do
  let start := c.offset
  let (path, c) ← c.advance.skip.textValue "import path"
  let c := c.skipInline
  let c := if c.isPunct ";" then c.advance else c
  return (⟨path, ⟨start, c.lastEnd⟩⟩, c)

namespace VariableBody

/-- Arguments up to the closing parenthesis; commas between them may be left out. -/
def argumentsWithin : Nat → Cursor → Except Fault (List String × Cursor)
  | 0, c => .error (c.endFault (.expected "')'"))
  | n + 1, c => do
    let c := c.skip
    let some t := c.token? | throw (c.endFault (.expected "')'"))
    if t.isPunct ")" then return ([], c.advance)
    let value ←
      match t.kind with
      | .string | .tripleString => pure t.literal.value
      | .number | .identifier | .placeholder => pure t.text
      | _ => throw (c.faultHere (.expected "function argument"))
    let c := c.advance.skip
    let c := if c.isPunct "," then c.advance else c
    let (rest, c) ← argumentsWithin n c
    return (value :: rest, c)

def read (c : Cursor) : Except Fault (VariableBody × Cursor) := do
  let some t := c.token? | throw (c.endFault (.expected "variable value"))
  if t.kind = .identifier ∧ t.text.startsWith "$" ∧ (c.next?.map (·.isPunct "(")).getD false then
    let c := c.advance.advance
    let (args, c) ← argumentsWithin (c.ahead.length + 1) c
    return (.call (String.ofList (t.text.toList.drop 1)) args, c)
  match c.next? with
  | some n =>
    if t.kind = .identifier ∧ t.text = "p" ∧ n.isString then
      return (.template n.literal.value, c.advance.advance)
  | none => pure ()
  let (term, c) ← JsonTerm.read c
  return (.value term, c)

end VariableBody

def Variable.read (c : Cursor) : Except Fault (Variable × Cursor) := do
  let start := c.offset
  let c := c.advance.skip
  let name ← c.expect (fun t => t.kind == .identifier && !t.text.startsWith "$") "identifier"
  let c := c.advance.skip
  let _ ← c.expect (·.isOp "=") "'='"
  let (body, c) ← VariableBody.read c.advance.skip
  let c ← c.skip.expectPunct ";" "';'"
  return (⟨name.text, body, ⟨start, c.lastEnd⟩⟩, c)

namespace Document

def readWithin (source : Option String) : Nat → Document → Cursor → Except Fault Document
  | 0, doc, _ => .ok doc
  | n + 1, doc, c => do
    let c := c.skip
    let some t := c.token? | return doc
    if c.isKeyword "import" then
      let (i, c) ← Import.read c
      readWithin source n { doc with imports := doc.imports ++ [i] } c
    else if c.isKeyword "var" then
      let (v, c) ← Variable.read c
      readWithin source n { doc with vars := doc.vars ++ [v] } c
    else if Request.startsAt c then
      let (r, c) ← Request.read source c
      readWithin source n { doc with requests := doc.requests ++ [r] } c
    else
      throw (Cursor.fault (.unexpected t.text) t.span)

def ofTokens (source : Option String) (text : String) (tokens : List Token) :
    Except Fault Document :=
  readWithin source (tokens.length + 1) {} (Cursor.ofTokens text tokens)

/-- Line endings are made equal first, so that spans refer to the text with line feeds alone. -/
def parse (text : String) (source : Option String) : Except SyntaxError Document :=
  let text := Text.normalizeLineEndings text
  match Lexer.tokenize text with
  | .error f => .error (.ofFault text source f)
  | .ok tokens =>
    match ofTokens source text tokens with
    | .error f => .error (.ofFault text (source.filter (!·.isEmpty)) f)
    | .ok doc => .ok doc

end Document
end RequestLang

import RequestLang.Document.Printer
import RequestLang.Headers
import RequestLang.Json.Printer
import RequestLang.MediaType
import RequestLang.Url.Percent

/-! Requests in which nothing is left open, ready to be sent or written down. -/
namespace RequestLang

structure Part where
  name : String
  /-- The name of the file that the part was read from. -/
  filename : Option String
  /-- The path of that file, or the content itself. -/
  source : String
  content : Bytes
  mime : Option String
  deriving DecidableEq, Repr

inductive Payload where
  | raw (body : String) (mime : Option String)
  | form (fields : Form.Fields)
  | json (value : Json)
  | file (path : String) (content : Bytes) (mime : Option String)
  | multipart (parts : List Part)
  deriving Repr

namespace Payload

def mime? : Payload → Option String
  | .raw _ mime => mime
  | .form _ => some MediaType.formUrlencoded
  | .json _ => some MediaType.json
  | .file _ _ mime => mime
  | .multipart _ => none

/-- The bytes of the body. Those of a multipart payload depend on a boundary and are left open. -/
def body? : Payload → Option Bytes
  | .raw body _ => some (Bytes.ofString body)
  | .form fields => some (Bytes.ofString (Form.encode fields.pairs))
  | .json value => some (Bytes.ofString value.spaced)
  | .file _ content _ => some content
  | .multipart _ => none

end Payload

structure Proxy where
  http : Option String := none
  https : Option String := none
  deriving DecidableEq, Repr

structure Definition where
  name : String
  description : Option String
  method : Method
  url : String
  headers : Headers
  query : Form.Fields
  payload : Option Payload
  auth : Option Auth
  certificate : Option Certificate
  output : Option String
  proxy : Proxy
  flags : Flags
  script : Option Script
  deriving Repr

mutual

/-- The JSON term that writes a value. -/
def JsonTerm.ofJson : Json → JsonTerm
  | .null => .null
  | .bool b => .bool b
  | .number n => .number n.text
  | .str s => .literal (.double s)
  | .arr items => .array (JsonTerm.ofItems items)
  | .obj members => .object (JsonTerm.ofMembers members)

def JsonTerm.ofItems : List Json → List JsonTerm
  | [] => []
  | v :: vs => JsonTerm.ofJson v :: JsonTerm.ofItems vs

def JsonTerm.ofMembers : List (String × Json) → List (JsonKey × JsonTerm)
  | [] => []
  | (k, v) :: ms => (.literal (.double k), JsonTerm.ofJson v) :: JsonTerm.ofMembers ms

end

/-- A field with one value stands alone, any other number of values as an array. -/
def JsonTerm.ofFields (fields : Form.Fields) : JsonTerm :=
  .object (fields.map fun (name, values) =>
    (.literal (.double name),
      match values with
      | [value] => .literal (.double value)
      | values => .array (values.map fun v => .literal (.double v))))

def Part.term (p : Part) : PartTerm := ⟨p.name, p.source, p.mime⟩

def Payload.term : Payload → PayloadTerm
  | .raw body mime => .raw [.double body] mime
  | .form fields => .form (.ofFields fields)
  | .json value => .json (.ofJson value)
  | .file path _ mime => .file path mime
  | .multipart parts => .multipart (parts.map Part.term)

namespace Definition

/-- The URL with the query behind it. -/
def fullUrl (d : Definition) : String :=
  if d.query.isEmpty then d.url
  else
    let mark := if d.url.toList.contains '?' then "&" else "?"
    d.url ++ mark ++ Form.encode d.query.pairs

def body? (d : Definition) : Option Bytes := d.payload.bind Payload.body?

def proxyTags (p : Proxy) : List (String × String) :=
  (p.http.map ("http.proxy", ·)).toList ++ (p.https.map ("https.proxy", ·)).toList

/-- The request that says all of this by itself. -/
def request (d : Definition) : Request where
  name := some d.name
  description := d.description
  flags := d.flags
  tags := proxyTags d.proxy
  method := some d.method
  url := d.url
  headers := d.headers.toList
  queries := d.query.pairs
  payload := d.payload.map Payload.term
  auth := d.auth
  certificate := d.certificate
  output := d.output
  script := d.script

/-- The text of a request file for the definition. -/
def written (d : Definition) : String := d.request.written

end Definition
end RequestLang

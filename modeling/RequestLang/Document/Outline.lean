import RequestLang.Document

/-! What stands where in a request file: names, URLs and the kind of text at an offset. -/
namespace RequestLang

structure NameEntry where
  name : String
  method : Option String
  span : Span
  deriving DecidableEq, Repr

structure UrlEntry where
  url : String
  method : String
  span : Span
  deriving DecidableEq, Repr

inductive NodeKind where
  | name | extraArgs | url | basicAuth | digestAuth | ntlmAuth | auth | certificate | header
  | urlParams | payloadData | payloadForm | payloadFile | payloadJson | payloadMultipart
  | output | script | comment
  deriving DecidableEq, Repr

def NodeKind.label : NodeKind → String
  | .name => "name"
  | .extraArgs => "extra_args"
  | .url => "url"
  | .basicAuth => "basic_auth"
  | .digestAuth => "digest_auth"
  | .ntlmAuth => "ntlm_auth"
  | .auth => "auth"
  | .certificate => "certificate"
  | .header => "header"
  | .urlParams => "urlparams"
  | .payloadData => "payload_data"
  | .payloadForm => "payload_urlencoded"
  | .payloadFile => "payload_file_input"
  | .payloadJson => "payload_json"
  | .payloadMultipart => "payload_multipart"
  | .output => "output"
  | .script => "script"
  | .comment => "comment"

/-- What an offset lies in. Outside every part of every request all is comment. -/
structure NodeAt where
  kind : NodeKind
  target : Option String := none
  base : Option String := none
  baseStart : Option Nat := none
  span : Option Span := none
  deriving DecidableEq, Repr

def Span.holds (s : Span) (offset : Nat) : Bool := s.start ≤ offset && offset < s.stop

namespace Request

def authKind : Option Auth → NodeKind
  | some (.basic ..) => .basicAuth
  | some (.digest ..) => .digestAuth
  | some (.ntlm ..) => .ntlmAuth
  | _ => .auth

def payloadKind : Option PayloadTerm → NodeKind
  | some (.raw ..) => .payloadData
  | some (.form _) => .payloadForm
  | some (.file ..) => .payloadFile
  | some (.multipart _) => .payloadMultipart
  | _ => .payloadJson

/-- The parts of a request with what they are. -/
def parts (r : Request) : List (Span × NodeKind) :=
  let s := r.spans
  let each (kind : NodeKind) (spans : List Span) := spans.map (·, kind)
  each .name s.name.toList ++ each .extraArgs s.tags ++ [(s.url, .url)] ++
    each (authKind r.auth) s.auth.toList ++ each .certificate s.certificate.toList ++
    each .header s.headers ++ each .urlParams s.queries ++
    each (payloadKind r.payload) s.payload.toList ++ each .output s.output.toList ++
    each .script s.script.toList

def kindAt? (r : Request) (offset : Nat) : Option NodeKind :=
  if r.spans.whole.holds offset then
    (r.parts.find? fun (span, _) => span.holds offset).map Prod.snd
  else none

end Request

namespace Document

def names (d : Document) : List NameEntry :=
  d.requests.zipIdx.map fun (r, i) =>
    ⟨r.displayName i, r.method.map Method.name,
      ⟨(r.spans.name.getD r.spans.url).start, r.spans.whole.stop⟩⟩

def urls (d : Document) : List UrlEntry :=
  d.requests.map fun r => ⟨r.url, (r.method.map Method.name).getD "GET", r.spans.url⟩

/-- Where the first request of that name starts. -/
def startOf? (d : Document) (name : String) : Option Nat :=
  (d.requests.find? (·.name == some name)).map (·.spans.whole.start)

def nodeAt (d : Document) (offset : Nat) : NodeAt :=
  let found := d.requests.zipIdx.findSome? fun (r, i) => (r.kindAt? offset).map fun kind =>
    ({ kind
       target := some (r.displayName i)
       base := r.base
       baseStart := r.base.bind d.startOf?
       span := if kind = .script then r.spans.script else none } : NodeAt)
  found.getD { kind := .comment }

end Document
end RequestLang

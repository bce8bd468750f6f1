import RequestLang.Literal

/-! What a request file says: imports, variables and requests with their clauses. -/
namespace RequestLang

inductive Method where
  | GET | POST | PUT | PATCH | DELETE | HEAD | OPTIONS | CONNECT | TRACE
  deriving DecidableEq, Repr

namespace Method

def all : List Method := [GET, POST, PUT, PATCH, DELETE, HEAD, OPTIONS, CONNECT, TRACE]

def name : Method → String
  | GET => "GET"
  | POST => "POST"
  | PUT => "PUT"
  | PATCH => "PATCH"
  | DELETE => "DELETE"
  | HEAD => "HEAD"
  | OPTIONS => "OPTIONS"
  | CONNECT => "CONNECT"
  | TRACE => "TRACE"

/-- Methods are written in capitals. -/
def ofName? (s : String) : Option Method := all.find? (·.name == s)

theorem ofName?_name (m : Method) : ofName? m.name = some m := by
  cases m <;> decide

end Method

inductive JsonKey where
  | literal (l : Literal)
  /-- A placeholder with its braces. -/
  | reference (text : String)
  deriving DecidableEq, Repr

/-- JSON in which placeholders, bare names and arithmetic may stand for values. -/
inductive JsonTerm where
  | null
  | bool (b : Bool)
  /-- A number as it is written. -/
  | number (text : String)
  | literal (l : Literal)
  /-- A placeholder with its braces, or a bare name. -/
  | reference (text : String)
  /-- Arithmetic over numbers and names, as it is written. -/
  | arithmetic (text : String)
  | array (items : List JsonTerm)
  | object (members : List (JsonKey × JsonTerm))
  deriving Repr

/-- A part of a multipart payload. The source is a path where such a file exists, and content
otherwise. -/
structure PartTerm where
  name : String
  source : String
  mime : Option String
  deriving DecidableEq, Repr

inductive PayloadTerm where
  | raw (chunks : List Literal) (mime : Option String)
  | form (term : JsonTerm)
  | json (term : JsonTerm)
  | file (path : String) (mime : Option String)
  | multipart (parts : List PartTerm)
  deriving Repr

/-- Ways to get a token for Azure. -/
inductive AzureFlow where
  | secret (tenant client secret : String) (scope : Option String)
  | certificate (tenant client path : String) (password scope : Option String)
  | cli (scope : Option String)
  | device (scope : Option String)
  deriving DecidableEq, Repr

inductive Auth where
  | basic (user password : String)
  | digest (user password : String)
  | ntlm (user password : String)
  | hawk (id key : String) (algorithm : Option String)
  | aws (accessId secretKey : String) (service region sessionToken : Option String)
  | azure (flow : AzureFlow)
  deriving DecidableEq, Repr

def Auth.kind : Auth → String
  | .basic .. => "basic"
  | .digest .. => "digest"
  | .ntlm .. => "ntlm"
  | .hawk .. => "hawk"
  | .aws .. => "aws"
  | .azure _ => "azure"

inductive Certificate where
  | pem (certificate : String) (key : Option String)
  | p12 (file : String) (password : Option String)
  deriving DecidableEq, Repr

inductive ScriptLanguage where
  | javascript | python
  deriving DecidableEq, Repr

def ScriptLanguage.name : ScriptLanguage → String
  | .javascript => "javascript"
  | .python => "python"

structure Script where
  language : ScriptLanguage
  source : String
  deriving DecidableEq, Repr

structure Flags where
  clear : Bool := false
  insecure : Bool := false
  noParentScript : Bool := false
  deriving DecidableEq, Repr

/-- Where the parts of a request stand in the text. -/
structure RequestSpans where
  whole : Span := ⟨0, 0⟩
  name : Option Span := none
  tags : List Span := []
  url : Span := ⟨0, 0⟩
  auth : Option Span := none
  certificate : Option Span := none
  headers : List Span := []
  queries : List Span := []
  payload : Option Span := none
  output : Option Span := none
  script : Option Span := none
  deriving DecidableEq, Repr

structure Request where
  name : Option String := none
  base : Option String := none
  description : Option String := none
  flags : Flags := {}
  tags : List (String × String) := []
  method : Option Method := none
  url : String := ""
  headers : List (String × String) := []
  queries : List (String × String) := []
  payload : Option PayloadTerm := none
  auth : Option Auth := none
  certificate : Option Certificate := none
  output : Option String := none
  script : Option Script := none
  spans : RequestSpans := {}
  /-- The file that the request stands in. -/
  source : Option String := none
  deriving Repr

/-- A request goes by its name, or else by its place among the requests, counted from one. -/
def Request.displayName (r : Request) (index : Nat) : String := r.name.getD (toString (index + 1))

structure Import where
  path : String
  span : Span
  deriving DecidableEq, Repr

inductive VariableBody where
  | value (term : JsonTerm)
  | call (function : String) (arguments : List String)
  /-- Text with markers in single braces. -/
  | template (text : String)
  deriving Repr

structure Variable where
  name : String
  body : VariableBody
  span : Span
  deriving Repr

structure Document where
  imports : List Import := []
  vars : List Variable := []
  requests : List Request := []
  deriving Repr

end RequestLang

import RequestLang.Document.Outline
import RequestLang.Execution
import RequestLang.Server.Call

/-! Requests and answers as lines of JSON. -/
namespace RequestLang.Server

namespace Call

def text? (c : Call) (key : String) : Option String := (getKey? key c.params).bind Json.string?

def text (c : Call) (key : String) : Except Failure String :=
  match c.text? key with
  | some s => .ok s
  | none => .error (.generic ("missing parameter `" ++ key ++ "`"))

def flag (c : Call) (key : String) : Bool := ((getKey? key c.params).bind Json.bool?).getD false

/-- A number that is no integer, or is negative, is none. -/
def natural? (c : Call) (key : String) : Option Nat :=
  match getKey? key c.params with
  | some (.number (.int i)) => if 0 ≤ i then some i.toNat else none
  | _ => none

def source (c : Call) (inline : Bool) : Except Failure Source :=
  if inline then do return .text (← c.text "content") (c.text? "file")
  else do return .file (← c.text "file")

def target (c : Call) : String :=
  match getKey? "target" c.params with
  | some (.str t) => t
  | some (.number n) => n.text
  | _ => "1"

def environments (c : Call) : List String :=
  match getKey? "env" c.params with
  | some (.arr items) => items.map Json.plainText
  | some (.str name) => [name]
  | _ => []

def properties (c : Call) : List (String × String) :=
  match getKey? "properties" c.params with
  | some (.obj members) => members.map fun (k, v) => (k, v.plainText)
  | _ => []

def job (c : Call) (inline : Bool) : Except Failure Job := do
  return {
    source := ← c.source inline
    target := c.target
    environments := c.environments
    properties := c.properties
    propertyFile := c.text? "property-file" }

/-- The text that a call is about. -/
def subject (c : Call) (fs : Files) (inline : Bool) : Except Failure String := do
  if inline then c.text "content" else fs.readText .request (← c.text "file")

def document (text : String) : Except Failure Document := Document.parseNamed text none

def execute (n : Network) (c : Call) (inline : Bool) : Act Json := do
  let job ← Act.ofExcept (c.job inline)
  if c.flag "curl" then return (← Act.ofExcept (job.curl (← get))).json
  else return (← job.run n (!c.flag "nocookie")).json

def formatted (text : String) : Except Failure Json := do
  return .obj [("formatted", .str (← document text).written)]

end Call

def nameJson (n : NameEntry) : Json :=
  .obj [("name", .str n.name), ("method", .ofOption n.method), ("start", .nat n.span.start),
    ("end", .nat n.span.stop)]

def urlJson (u : UrlEntry) : Json :=
  .obj [("url", .str u.url), ("method", .ofOption u.method), ("start", .nat u.span.start),
    ("end", .nat u.span.stop)]

/-- The names and the addresses of a document with their places. -/
def outlineJson (d : Document) : Json :=
  .obj [("names", .arr (d.names.map nameJson)), ("urls", .arr (d.urls.map urlJson))]

/-- What stands at a place, without what is not there. -/
def nodeJson (n : NodeAt) : Json :=
  let field (key : String) (v : Option Json) := (v.map (key, ·)).toList
  .obj (("type", .str n.kind.label) :: (field "target" (n.target.map .str) ++
    field "target_base" (n.base.map .str) ++ field "base_start" (n.baseStart.map .nat) ++
    field "start" (n.span.map (.nat ·.start)) ++ field "end" (n.span.map (.nat ·.stop))))

def Call.outline (text : String) : Except Failure Json := do
  return outlineJson (← Call.document text)

def Call.nodeAt (c : Call) : Except Failure Json := do
  let text ← c.text "content"
  match c.natural? "position" with
  | none => throw (.generic "missing parameter `position`")
  | some position => return nodeJson ((← Call.document text).nodeAt position)

def Call.result (n : Network) (c : Call) : Act Json := do
  let fs := (← get).files
  match c.method with
  | "/file/execute" => c.execute n false
  | "/content/execute" => c.execute n true
  | "/file/format" => Act.ofExcept (c.subject fs false >>= Call.formatted)
  | "/content/format" => Act.ofExcept (c.subject fs true >>= Call.formatted)
  | "/file/names" => Act.ofExcept (c.subject fs false >>= Call.outline)
  | "/content/names" => Act.ofExcept (c.subject fs true >>= Call.outline)
  | "/content/type" => Act.ofExcept c.nodeAt
  | other => throw (.generic ("unknown method `" ++ other ++ "`"))

def errorJson (message : String) : Json :=
  .obj [("error", .bool true), ("error_message", .str message)]

def answerJson (id result : Json) : Json := .obj [("id", id), ("result", result)]

/-- The answer to one line. A line that is no call is answered too. A failure that ends the program
ends what works on the line, so that nothing comes back. -/
def answer? (n : Network) (line : String) : StateM World (Option Json) := do
  match Call.read line with
  | .error fault =>
    return some (answerJson .null (errorJson ("invalid request: " ++ fault.message line)))
  | .ok c =>
    let w ← get
    match ← (c.result n).run with
    | .ok v => return some (answerJson c.id v)
    | .error f =>
      if f.ends then return none
      else return some (answerJson c.id (errorJson (f.message w.files.workingDirText)))

def isBlankLine (line : String) : Bool := (Text.trimChars line.toList).isEmpty

/-- Answers every line that is not blank. -/
def serve (n : Network) : List String → StateM World (List String)
  | [] => return []
  | line :: lines => do
    if isBlankLine line then serve n lines
    else
      let first := (← answer? n line).map Json.compact
      return first.toList ++ (← serve n lines)

end RequestLang.Server

/-! Lines that are answered beside one another, each by a worker of its own. -/
namespace RequestLang

/-- The world as a worker finds it, which has a time and random numbers of its own. -/
def World.found (w : World) (draws : Draws) (now : Clock) : World :=
  { w with draws, surroundings := { w.surroundings with now } }

namespace Server

/-- The lines that are not read yet, those that workers are busy with, what has been written, and the
world that the workers share. -/
structure Service where
  ahead : List String
  busy : List String := []
  written : List String := []
  world : World

/-- What can happen next: a blank line is passed over, any other one is given to a worker, and any of
the workers ends. One that a failure ends writes nothing. -/
inductive Step (n : Network) : Service → Service → Prop
  | pass {line : String} {ahead busy written : List String} {w : World} (h : isBlankLine line) :
      Step n ⟨line :: ahead, busy, written, w⟩ ⟨ahead, busy, written, w⟩
  | spawn {line : String} {ahead busy written : List String} {w : World} (h : isBlankLine line = false) :
      Step n ⟨line :: ahead, busy, written, w⟩ ⟨ahead, line :: busy, written, w⟩
  | finish {line : String} {ahead before after written : List String} {w w' : World} {answer : Option Json}
      (draws : Draws) (now : Clock) (h : (answer? n line).run (w.found draws now) = (answer, w')) :
      Step n ⟨ahead, before ++ line :: after, written, w⟩
        ⟨ahead, before ++ after, written ++ (answer.map Json.compact).toList, w'⟩

/-- Requests are sent by calls that execute without writing them down for `curl`. -/
def Call.sends (c : Call) : Bool :=
  (c.method == "/file/execute" || c.method == "/content/execute") && !c.flag "curl"

/-- What an answer is marked with. A line that is no call has no mark. -/
def markOf (line : String) : Json :=
  match Call.read line with
  | .ok c => c.id
  | .error _ => .null

end Server
end RequestLang

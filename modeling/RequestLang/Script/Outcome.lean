import RequestLang.Definition
import RequestLang.Json.Printer

/-! What came of running a script. -/
namespace RequestLang

structure TestOutcome where
  name : String
  success : Bool
  error : Option String := none
  result : Option String := none
  deriving DecidableEq, Repr

structure ScriptOutcome where
  stdout : String := ""
  error : Option String := none
  properties : List (String × String) := []
  tests : List TestOutcome := []
  compiled : Bool := true
  deriving DecidableEq, Repr

def Json.ofOption : Option String → Json
  | some s => .str s
  | none => .null

namespace TestOutcome

def json (t : TestOutcome) : Json :=
  .obj [("name", .str t.name), ("success", .bool t.success), ("error", .ofOption t.error),
    ("result", .ofOption t.result)]

def line (t : TestOutcome) : String :=
  let status := if t.success then "passed" else "failed"
  let error :=
    match t.error with
    | some e => " (" ++ Text.trim e ++ ")"
    | none => ""
  t.name ++ ": " ++ status ++ error

end TestOutcome

namespace ScriptOutcome

def notCompiled (error : String) : ScriptOutcome := { error := some error, compiled := false }

/-- Scripts of a language that nothing here runs. -/
def unsupported (language : ScriptLanguage) : ScriptOutcome :=
  notCompiled (language.name ++ " scripts are not supported by this build, enable the `" ++
    language.name ++ "` feature")

def isEmpty (o : ScriptOutcome) : Bool :=
  o.stdout.isEmpty && o.error.isNone && o.properties.isEmpty && o.tests.isEmpty

def json (o : ScriptOutcome) : Json :=
  .obj [("stdout", .str o.stdout), ("error", .ofOption o.error),
    ("properties", .obj (o.properties.map fun (k, v) => (k, .str v))),
    ("tests", .arr (o.tests.map TestOutcome.json)), ("compiled", .bool o.compiled)]

/-- A heading with lines below it. Without lines there is no heading. -/
def paragraph (heading : String) (lines : List String) : String :=
  if lines.isEmpty then "" else String.join ((heading :: lines).map (· ++ "\n"))

def display (o : ScriptOutcome) : String :=
  paragraph "##STDOUT" (if o.stdout.isEmpty then [] else [Text.trimEnd o.stdout]) ++
    paragraph "##ERROR" o.error.toList ++
    paragraph "##PROPERTIES" (o.properties.map fun (k, v) => k ++ ": " ++ v) ++
    paragraph "##TESTS" (o.tests.map TestOutcome.line)

end ScriptOutcome

/-- A definition as scripts see it. -/
def Definition.scriptView (d : Definition) : Json :=
  .obj [("url", .str d.fullUrl), ("method", .str d.method.name),
    ("headers", .obj (d.headers.toList.map fun (k, v) => (k, .str v))),
    ("body", .ofOption (d.body?.map Bytes.lossyText))]

end RequestLang

import RequestLang.Failure
import RequestLang.Files
import RequestLang.Json.Printer
import RequestLang.Json.Reader
import RequestLang.Property.Toml
import RequestLang.Property.Yaml
import RequestLang.Text.Blank

/-! Property files: sections of properties, headers and commands. -/
namespace RequestLang

structure PropertyFile where
  path : Option String := none
  sections : List (String × List (String × Json)) := []
  deriving Repr

namespace PropertyFile

/-- The names that are looked for beside a request file, in this order. -/
def usualNames : List String := [".dothttp.json", ".dothttp.yaml", ".dothttp.yml", ".dothttp.toml"]

def discover (fs : Files) (source : Option String) : Option String :=
  let dir :=
    match source.bind Path.parent? with
    | some d => if d.isEmpty then "." else d
    | none => "."
  (usualNames.map (Path.join dir)).find? fs.isFile

inductive Format where
  | json | yaml | toml
  deriving DecidableEq, Repr

/-- The extension tells the format, in any case of letters. -/
def formatOf (path : String) : Format :=
  let name := ((Path.fileName? path).getD "").toLower
  if name.endsWith ".yaml" || name.endsWith ".yml" then .yaml
  else if name.endsWith ".toml" then .toml
  else .json

def readJson (text : String) : Option Json :=
  if (Text.trimChars text.toList).isEmpty then some (.obj []) else Json.parse? text

/-- Every section has to be an object. -/
def sectionsOf : Json → Except PropertyFileFault (List (String × List (String × Json)))
  | .null => .ok []
  | .obj members => members.mapM fun (name, v) =>
    match v with
    | .obj fields => .ok (name, fields)
    | _ => .error (.section_ name)
  | _ => .error .topLevel

def read (fs : Files) (path : String) : Except Failure PropertyFile := do
  let some bytes := fs.read? path | throw (.fileNotFound .property path)
  let some text := bytes.text? | throw Failure.notText
  let parsed :=
    match formatOf path with
    | .json => readJson text
    | .yaml => Yaml.parse? text
    | .toml => Toml.parse? text
  match parsed with
  | none => throw (.propertyFileInvalid path .unreadable)
  | some v =>
    match sectionsOf v with
    | .ok sections => return { path := some path, sections }
    | .error fault => throw (.propertyFileInvalid path fault)

def displayName (f : PropertyFile) : String := f.path.getD "not specified"

/-- The fields of a section as text. -/
def fields (f : PropertyFile) (name : String) : List (String × String) :=
  ((getKey? name f.sections).getD []).map fun (k, v) => (k, v.plainText)

def headers (f : PropertyFile) : List (String × String) := f.fields "headers"

def commands (f : PropertyFile) : List (String × String) := f.fields "$commands"

/-- The section for every environment, then each named one, of which a later one wins. -/
def properties (f : PropertyFile) (environments : List String) : List (String × String) :=
  ("*" :: environments).flatMap f.fields

end PropertyFile
end RequestLang

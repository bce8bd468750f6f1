import RequestLang.Definition
import RequestLang.Files
import RequestLang.Property.Evaluate

/-! Payloads with every placeholder expanded and every file read. -/
namespace RequestLang

namespace Resolve

def expandOptional : Option String → Resolve (Option String)
  | none => return none
  | some text => do return some (← expand text)

/-- The content of the file that a path leads to. A missing file is named as it was written. -/
def contentOf (fs : Files) (role : FileRole) (written path : String) : Resolve Bytes :=
  match fs.read? path with
  | some content => return content
  | none => throw (.fileNotFound role written)

end Resolve

/-- The text of each value of an array, or of the one value. -/
def Json.texts : Json → List String
  | .arr items => items.map Json.plainText
  | v => [v.plainText]

/-- A triple-quoted literal is taken as it stands. -/
def Literal.expand (l : Literal) : Resolve String :=
  if l.quote = .triple then return l.value else Resolve.expand l.value

def PartTerm.expand (fs : Files) (source : Option String) (p : PartTerm) : Resolve Part := do
  let name ← Resolve.expand p.name
  let written ← Resolve.expand p.source
  let mime ← Resolve.expandOptional p.mime
  let path := Path.relativeTo source written
  match if written.isEmpty then none else fs.read? path with
  | some content =>
    return { name, filename := Path.fileName? path, source := path, content
             mime := mime.or (MediaType.ofPath? path) }
  | none => return { name, filename := none, source := written, content := Bytes.ofString written, mime }

/-- The payload of a request that stands in the file `source`. -/
def PayloadTerm.expand (fs : Files) (source : Option String) : PayloadTerm → Resolve Payload
  | .raw chunks mime => do
    let body := String.join (← chunks.mapM Literal.expand)
    let mime ← Resolve.expandOptional mime
    return .raw body (mime.or (MediaType.ofContent? body))
  | .form term => do
    match ← Resolve.evaluate term with
    | .obj members => return .form (members.map fun (name, v) => (name, v.texts))
    | .str body => return .raw body (some MediaType.formUrlencoded)
    | other =>
      throw (.payloadInvalid ("data should be json/str, current: " ++ other.compact))
  | .json term => do return .json (← Resolve.evaluate term)
  | .file path mime => do
    let written ← Resolve.expand path
    let path := Path.relativeTo source written
    let content ← Resolve.contentOf fs .payload written path
    let mime ← Resolve.expandOptional mime
    return .file path content (mime.or (MediaType.ofPath? path))
  | .multipart parts => do return .multipart (← parts.mapM (PartTerm.expand fs source))

end RequestLang

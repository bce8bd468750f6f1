import RequestLang.Document.Reader
import RequestLang.Files
import RequestLang.Property.Evaluate
import RequestLang.Property.Function

/-! Loading a request file with everything it imports. -/
namespace RequestLang

/-- The text of a file that is wanted in some role. -/
def Files.readText (fs : Files) (role : FileRole) (path : String) : Except Failure String := do
  let some bytes := fs.read? path | throw (.fileNotFound role path)
  let some text := bytes.text? | throw Failure.notText
  return text

def Document.parseNamed (text : String) (source : Option String) : Except Failure Document :=
  (Document.parse text source).mapError .syntaxError

namespace Variable

def valueOf (v : Variable) : Resolve String :=
  match v.body with
  | .value term => do return (← Resolve.evaluate term).plainText
  | .call function args => do
    let args ← args.mapM Resolve.expand
    let r ← get
    let (result, r) := r.draw (Function.call r.surroundings.now function args)
    set r
    match result with
    | .ok value => return value
    | .error (.refused reason) => throw (.generic ("var `" ++ v.name ++ "`: " ++ reason))
    | .error .unwritable => throw .unwritableDate
  | .template text => do return (← get).fillTemplate text

/-- Computes a variable once. -/
def define (v : Variable) : Resolve Unit := do
  let value ← v.valueOf
  modify (·.declare v.name value true)

end Variable

namespace Loading

/-- A request goes by its name and by its place, and no two may share either. -/
def checkNamesFrom (seen : List String) (index : Nat) : List Request → Except Failure Unit
  | [] => .ok ()
  | r :: rs =>
    let place := toString (index + 1)
    let own := place :: (r.name.filter (· != place)).toList
    match own.find? seen.contains with
    | some taken => .error (.duplicateTarget taken)
    | none => checkNamesFrom (own ++ seen) (index + 1) rs

def checkNames (requests : List Request) : Except Failure Unit := checkNamesFrom [] 0 requests

/-- An import may leave out the extension of a request file. -/
def importPath (fs : Files) (importer : Option String) (path : String) : Except Failure String :=
  let direct := Path.relativeTo importer path
  let extended := Path.relativeTo importer (path ++ ".http")
  if fs.isFile direct then .ok direct
  else if fs.isFile extended then .ok extended
  else .error (.fileNotFound .imported path)

/-- What is loaded: requests in order, and the files already visited. -/
abbrev Loaded := List Request × List String

/-- Loads each import unless its file was visited before. -/
def loadImports (fs : Files) (load : Document → String → Option String → List String → Resolve Loaded)
    (importer : Option String) : List Import → List String → Resolve Loaded
  | [], visited => return ([], visited)
  | i :: rest, visited => do
    let path ← Resolve.ofExcept (importPath fs importer i.path)
    let file := fs.canonical path
    if visited.contains file then loadImports fs load importer rest visited
    else do
      let text ← Resolve.ofExcept (fs.readText .imported file)
      let doc ← Resolve.ofExcept (Document.parseNamed text (some file))
      let (requests, visited) ← load doc text (some file) (visited ++ [file])
      let (more, visited) ← loadImports fs load importer rest visited
      return (requests ++ more, visited)

/-- Imports come before what the file itself says about properties. The first argument bounds the
depth of imports; more than the number of files is enough. -/
def loadDocument (fs : Files) : Nat → Document → String → Option String → List String → Resolve Loaded
  | 0, _, _, _, _ => throw (.fileAccess "imports are nested too deeply")
  | n + 1, doc, text, source, visited => do
    let (imported, visited) ← loadImports fs (loadDocument fs n) source doc.imports visited
    modify (·.mine text)
    doc.vars.forM Variable.define
    return (doc.requests ++ imported, visited)

/-- Loads a text as if it stood at `source`. -/
def loadContent (fs : Files) (text : String) (source : Option String) : Resolve (List Request) := do
  let doc ← Resolve.ofExcept (Document.parseNamed text source)
  let (requests, _) ← loadDocument fs (fs.contents.length + 2) doc text source (source.map Path.normal).toList
  Resolve.ofExcept (checkNames requests)
  return requests

def loadFile (fs : Files) (path : String) : Resolve (List Request) := do
  let text ← Resolve.ofExcept (fs.readText .request path)
  loadContent fs text (some (fs.canonical path))

end Loading
end RequestLang

import RequestLang.Path
import RequestLang.Text.Utf8

/-! A tree of files below the root, seen from a working directory. -/
namespace RequestLang

structure Files where
  workingDir : List String
  contents : List (List String × Bytes)
  deriving Repr

namespace Files

/-- Directories are those on the way to the working directory or to a file. -/
def isDir (fs : Files) (path : List String) : Bool :=
  path.isPrefixOf fs.workingDir || fs.contents.any fun (p, _) => path.isPrefixOf p.dropLast

def contentOf? (fs : Files) (path : List String) : Option Bytes :=
  (fs.contents.find? (·.1 == path)).map Prod.snd

/-- Follows pieces of a path from a directory. -/
def follow (fs : Files) : List String → List String → Option (List String)
  | here, [] => some here
  | here, p :: ps =>
    if !fs.isDir here then none
    else if p == "" || p == "." then fs.follow here ps
    else if p == ".." then fs.follow here.dropLast ps
    else fs.follow (here ++ [p]) ps

/-- Where a path leads, if there is something. -/
def locate? (fs : Files) (path : String) : Option (List String) := do
  if path.isEmpty then none
  let start := if Path.isAbsolute path then [] else fs.workingDir
  let found ← fs.follow start (Path.pieces path)
  if fs.isDir found || (fs.contentOf? found).isSome then some found else none

def absolute (path : List String) : String := "/" ++ "/".intercalate path

/-- The one path that stands for every spelling of it. -/
def canonical? (fs : Files) (path : String) : Option String := (fs.locate? path).map absolute

def canonical (fs : Files) (path : String) : String := (fs.canonical? path).getD path

def read? (fs : Files) (path : String) : Option Bytes := (fs.locate? path).bind fs.contentOf?

def isFile (fs : Files) (path : String) : Bool := (fs.read? path).isSome

def put (path : List String) (content : Bytes) :
    List (List String × Bytes) → List (List String × Bytes)
  | [] => [(path, content)]
  | (p, c) :: rest => if p = path then (p, content) :: rest else (p, c) :: put path content rest

/-- Writes a file into a directory that is there. -/
def write? (fs : Files) (path : String) (content : Bytes) : Option Files := do
  if path.isEmpty then none
  let start := if Path.isAbsolute path then [] else fs.workingDir
  let target ← fs.follow start (Path.pieces path)
  if fs.isDir target || !fs.isDir target.dropLast then none
  else some { fs with contents := put target content fs.contents }

/-- Where a path leads by its pieces alone, whatever is there. -/
def placeOf (fs : Files) (path : String) : List String :=
  let start := if Path.isAbsolute path then [] else fs.workingDir
  (Path.pieces path).foldl (fun (here : List String) p =>
    if p == "" || p == "." then here else if p == ".." then here.dropLast else here ++ [p]) start

/-- Writes a file together with the directories on the way to it. -/
def writeDeep? (fs : Files) (path : String) (content : Bytes) : Option Files := do
  if path.isEmpty then none
  let place := fs.placeOf path
  if fs.isDir place || fs.contents.any (fun (p, _) => p != place && p.isPrefixOf place) then none
  else some { fs with contents := put place content fs.contents }

def workingDirText (fs : Files) : String := absolute fs.workingDir

end Files
end RequestLang

import RequestLang.Loading
import RequestLang.Property.File
import RequestLang.World

/-! A request file together with what is to be done with it. -/
namespace RequestLang

/-- A file, or a text that may stand for one. -/
inductive Source where
  | file (path : String)
  | text (content : String) (path : Option String)
  deriving DecidableEq, Repr

def Source.path? : Source → Option String
  | .file path => some path
  | .text _ path => path

/-- The requests of a source, with those of all that it imports. -/
def Source.load (fs : Files) : Source → Resolve (List Request)
  | .file path => Loading.loadFile fs path
  | .text content path => Loading.loadContent fs content path

structure Job where
  source : Source
  target : String := "1"
  environments : List String := []
  properties : List (String × String) := []
  propertyFile : Option String := none
  deriving DecidableEq, Repr

structure Loaded where
  requests : List Request
  resolver : Resolver
  headers : List (String × String)

namespace Job

def readProperties (job : Job) (fs : Files) : Except Failure PropertyFile :=
  match job.propertyFile.or (PropertyFile.discover fs job.source.path?) with
  | some path => PropertyFile.read fs path
  | none => .ok {}

/-- The tiers above the request file. -/
def resolver (job : Job) (w : World) (f : PropertyFile) : Resolver :=
  let blank : Resolver :=
    { surroundings := w.surroundings, draws := w.draws, propertyFile := f.path }
  let r := (f.properties job.environments).foldl (fun r (k, v) => r.addEnv k v) blank
  let r := f.commands.foldl (fun r (k, v) => r.addCommand k v) r
  job.properties.foldl (fun r (k, v) => r.addCommandLine k v) r

def load (job : Job) (w : World) : Except Failure Loaded := do
  let f ← job.readProperties w.files
  let (requests, resolver) := (job.source.load w.files).run.run (job.resolver w f)
  return { requests := ← resolver.settle requests, resolver, headers := f.headers }

end Job
end RequestLang

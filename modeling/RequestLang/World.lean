import RequestLang.Files
import RequestLang.Property.Resolver

/-! What lies around a request: files, the process, and chance. -/
namespace RequestLang

structure World where
  files : Files
  surroundings : Surroundings
  draws : Draws
  /-- The directory in which tokens are kept. -/
  home : String := "."

/-- A step that may fail; what it changed in the world before failing stays changed. -/
abbrev Act (α : Type) := ExceptT Failure (StateM World) α

namespace Act

def ofExcept {α : Type} : Except Failure α → Act α
  | .ok a => return a
  | .error f => throw f

def draw {α : Type} (d : Draw α) : Act α := do
  let w ← get
  let (a, draws) := d w.draws
  set { w with draws }
  return a

/-- Writes a file, or leaves the world as it is where that cannot be. -/
def writeFile (path : String) (content : Bytes) : Act Bool := do
  let w ← get
  match w.files.write? path content with
  | some files =>
    set { w with files }
    return true
  | none => return false

end Act
end RequestLang

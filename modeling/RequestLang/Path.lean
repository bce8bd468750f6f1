import RequestLang.Text.Place

/-! Slash-separated paths as text: parent, join, file name, extension and relative form. -/
namespace RequestLang.Path

def isAbsolute (path : String) : Bool := path.toList.head? == some '/'

/-- The pieces between slashes, without the leading slash of an absolute path. -/
def pieces (path : String) : List String :=
  let parts := (path.toList.splitOn '/').map String.ofList
  if isAbsolute path then parts.drop 1 else parts

def ofPieces (absolute : Bool) (parts : List String) : String :=
  (if absolute then "/" else "") ++ "/".intercalate parts

/-- An empty piece says nothing, nor does a dot, unless it opens a relative path. -/
def isFiller (absolute : Bool) (index : Nat) (piece : String) : Bool :=
  piece.isEmpty || (piece == "." && (absolute || index != 0))

def trimTail (absolute : Bool) (parts : List String) : List String :=
  ((parts.zipIdx.reverse.dropWhile fun (p, i) => isFiller absolute i p).reverse).map Prod.fst

def trimHead (absolute : Bool) (parts : List String) : List String :=
  (parts.zipIdx.dropWhile fun (p, i) => isFiller absolute i p).map Prod.fst

/-- The pieces that name something. -/
def components (path : String) : List String :=
  let absolute := isAbsolute path
  ((pieces path).zipIdx.filter fun e => !isFiller absolute e.2 e.1).map Prod.fst

/-- The same path without what says nothing. -/
def normal (path : String) : String := ofPieces (isAbsolute path) (components path)

def parent? (path : String) : Option String :=
  let absolute := isAbsolute path
  match (trimTail absolute (pieces path)).reverse with
  | [] => none
  | _ :: rest => some (ofPieces absolute (trimTail absolute rest.reverse))

def join (dir path : String) : String :=
  if isAbsolute path || dir.isEmpty then path
  else if dir.endsWith "/" then dir ++ path
  else dir ++ "/" ++ path

/-- A relative path is taken from the directory of `source`. -/
def relativeTo (source : Option String) (path : String) : String :=
  if isAbsolute path then path
  else
    match source.bind parent? with
    | some dir => join dir path
    | none => path

def fileName? (path : String) : Option String :=
  match (components path).getLast? with
  | some name => if name == ".." || name == "." then none else some name
  | none => none

/-- What follows the last dot of a file name that does not begin with it. -/
def extension? (path : String) : Option String :=
  match fileName? path with
  | none => none
  | some name =>
    let back := name.toList.reverse
    match back.dropWhile (· != '.') with
    | _ :: _ :: _ => some (String.ofList (back.takeWhile (· != '.')).reverse)
    | _ => none

/-- What is left of a path below `base`. -/
def below? (base path : String) : Option String :=
  if isAbsolute base != isAbsolute path then none
  else
    let absolute := isAbsolute path
    let rec strip : List String → List (String × Nat) → Option (List String)
      | [], rest => some (rest.map Prod.fst)
      | b :: bs, (p, i) :: rest =>
        if isFiller absolute i p then strip (b :: bs) rest
        else if p == b then strip bs rest
        else none
      | _ :: _, [] => none
    (strip (components base) (pieces path).zipIdx).map fun rest =>
      ofPieces false (trimTail true (trimHead true rest))

/-- Paths are shown from the working directory where they lie in it. -/
def shown (workingDir path : String) : String := (below? workingDir path).getD path

end RequestLang.Path

import RequestLang.CommandLine
import RequestLang.Server

/-! The program: what it prints and how it ends for arguments and an input. -/
namespace RequestLang

structure Output where
  code : Nat := 0
  stdout : String := ""
  stderr : String := ""
  deriving DecidableEq, Repr

namespace Program

def versionText : String := "dothttp 0.1.0\n"

def usageError : Output :=
  { code := 2, stderr := "error: invalid arguments\n\nFor more information, try '--help'.\n" }

/-- A failure on the error stream, with a place in the text when it is asked for. What ends the
program at once is not marked as an error. -/
def report (workingDir : String) (debug : Bool) (f : Failure) : Output :=
  let mark := if f.ends then "" else "Error: "
  let hint :=
    match f.hint? with
    | some h => if debug then "  " ++ h ++ "\n" else ""
    | none => ""
  { code := f.exitCode, stderr := mark ++ f.message workingDir ++ "\n" ++ hint }

def requestLines (d : Definition) : List String :=
  ("> " ++ d.method.name ++ " " ++ d.fullUrl) ::
    d.headers.toList.map (fun (k, v) => "> " ++ k ++ ": " ++ v) ++ [">"]

def responseLines (r : Response) : List String :=
  ("< " ++ r.version ++ " " ++ toString r.status ++ " " ++ r.reason) ::
    r.headers.map (fun (k, v) => "< " ++ k ++ ": " ++ v) ++ ["<"]

/-- A saved response is not shown. -/
def shown (e : Execution) (info : Bool) : String :=
  match e.curl with
  | some c => c ++ "\n"
  | none =>
    let request := if info then requestLines e.definition else []
    let response :=
      match e.response with
      | some r =>
        (if info then responseLines r else []) ++
          (if e.definition.output.isNone then [r.display] else [])
      | none => []
    let outcome :=
      match e.outcome with
      | some o => if o.isEmpty && o.compiled then "" else o.display
      | none => ""
    String.join ((request ++ response).map (· ++ "\n")) ++ outcome

/-- The canonical text of a file, printed or written into the file. -/
def format (r : CommandLine.Run) : Act String := do
  let fs := (← get).files
  let text ← Act.ofExcept (fs.readText .request r.file)
  let document ← Act.ofExcept (Document.parseNamed text (some (fs.canonical r.file)))
  if r.stdout then return document.written
  if ← Act.writeFile r.file (Bytes.ofString document.written) then return ""
  else throw (.fileAccess "Permission denied (os error 13)")

def job (r : CommandLine.Run) : Job where
  source := .file r.file
  target := r.target
  environments := r.environments
  properties := r.properties
  propertyFile := r.propertyFile

def run (n : Network) (r : CommandLine.Run) : Act String := do
  if r.format then format r
  else
    let execution ←
      if r.curl then Act.ofExcept ((job r).curl (← get))
      else (job r).run n (!r.noCookie)
    return shown execution r.info

/-- The lines of an input. A carriage return before the end of a line is not part of it. -/
def lines (input : String) : List String :=
  (Text.splitLines input.toList).map String.ofList

/-- What the program does for its arguments and its input. -/
def main (n : Network) (args : List String) (input : String) : StateM World Output := do
  match CommandLine.parse? args with
  | none => return usageError
  | some (.help topic) => return { stdout := topic.text }
  | some .version => return { stdout := versionText }
  | some (.server _) => do
    let answers ← Server.serve n (lines input)
    return { stdout := String.join (answers.map (· ++ "\n")) }
  | some (.run r) => do
    let workingDir := (← get).files.workingDirText
    match ← (run n r).run with
    | .ok text => return { stdout := text }
    | .error f => return report workingDir r.debug f

end Program
end RequestLang

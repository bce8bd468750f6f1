import RequestLang.Program
import RequestLang.Shell.Command

/-! The program in its surroundings. It works on the files below the working directory and below
the directories of the files that it is given, and it knows no network. -/
namespace RequestLang.Main

/-- The names in a directory, and which of them are directories. -/
def listing (directory : String) : IO (List (String × Bool)) := do
  let entries ← ((← IO.currentDir) / directory).readDir
  entries.toList.mapM fun e => do return (e.fileName, (← e.path.symlinkMetadata).type matches .dir)

def readBytes (path : String) : IO Bytes := do return (← IO.FS.readBinFile path).toList

/-- What cannot be read is left out, as are hidden directories. -/
partial def filesBelow (directory : List String) : IO (List (List String × Bytes)) := do
  let found ← (try listing (Files.absolute directory) catch _ => pure [])
  let parts ← found.mapM fun (name, isDir) => do
    let path := directory ++ [name]
    if isDir then
      if "." == String.ofList (name.toList.take 1) then return []
      else filesBelow path
    else
      try return [(path, ← readBytes (Files.absolute path))] catch _ => return []
  return parts.flatten

def loadFile (fs : Files) (path : String) : IO Files := do
  try return (fs.writeDeep? path (← readBytes path)).getD fs catch _ => return fs

/-- The files near one that is named, which may lie outside of the working directory. -/
def loadNear (fs : Files) (path : String) : IO Files := do
  let directory := (fs.placeOf path).dropLast
  if fs.isDir directory then loadFile fs path
  else return { fs with contents := fs.contents ++ (← filesBelow directory) }

/-- A file of the system that holds facts as text. -/
def fact (path : String) : IO String := do
  try return (← readBytes path).lossyText catch _ => return ""

/-- How the variables that hold properties begin. -/
def variableMark : String := "DOTHTTP_ENV_"

/-- The variables of the process. -/
def environment : IO (List (String × String)) := do
  let entries := (← fact "/proc/self/environ").splitOn "\x00"
  return entries.filterMap fun e =>
    (Text.splitOnce? '=' e.toList).map fun (k, v) => (String.ofList k, String.ofList v)

def leadingNumber (text : String) : Nat :=
  (Text.natural? (text.toList.takeWhile Char.isDigit)).getD 0

/-- The second at which the machine was started, and the time since then, which is told to the hundredth.
The place of the machine is not asked for. -/
def now : IO Clock := do
  let started := ((← fact "/proc/stat").splitOn "btime ").getD 1 ""
  let since ← fact "/proc/uptime"
  let hundredths := leadingNumber ((since.splitOn ".").getD 1 "")
  return {
    seconds := leadingNumber started + leadingNumber since
    nanosecond := ⟨10000000 * hundredths % 1000000000, Nat.mod_lt _ (by decide)⟩ }

def seed : IO Nat := do
  return (← IO.getRandomBytes 8).toList.foldl (fun n b => 256 * n + b.toNat) 0

def world (named : List String) : IO World := do
  let known ← environment
  let workingDir := Path.pieces (← IO.currentDir).toString
  let home := (getKey? "HOME" known).getD "/"
  let setting := Azure.Setting.usual home
  let fs : Files := ⟨workingDir, ← filesBelow workingDir⟩
  let fs ← named.foldlM loadNear fs
  let fs ← [setting.principals, setting.commandLine].foldlM loadFile fs
  return {
    files := fs
    surroundings :=
      { environment := fun name => getKey? (variableMark ++ name) known
        runCommand := Shell.run
        now := ← now }
    draws := .ofSeed (← seed)
    home }

/-- Writes the files that are new or not what they were. -/
def save (before after : Files) : IO Unit :=
  after.contents.forM fun (path, content) => do
    if before.contentOf? path != some content then
      IO.FS.writeBinFile (Files.absolute path) content.toByteArray

/-- Answers each line before the next one is read. -/
partial def serve (input output : IO.FS.Stream) : IO Unit := do
  let line ← input.getLine
  if line.isEmpty then return
  let named := (((Server.Call.read line).toOption).bind fun c => c.text? "file").toList
  let before ← world named
  let (answers, after) := (Server.serve .unreachable (Program.lines line)).run before
  save before.files after.files
  output.putStr (String.join (answers.map (· ++ "\n")))
  output.flush
  serve input output

def run (args : List String) : IO UInt32 := do
  let named :=
    match CommandLine.parse? args with
    | some (.run r) => r.file :: r.propertyFile.toList
    | _ => []
  let before ← world named
  let (o, after) := (Program.main .unreachable args "").run before
  save before.files after.files
  IO.print o.stdout
  IO.eprint o.stderr
  return o.code.toUInt32

end RequestLang.Main

open RequestLang in
def main (args : List String) : IO UInt32 := do
  match CommandLine.parse? args with
  | some (.server _) => do
    Main.serve (← IO.getStdin) (← IO.getStdout)
    return 0
  | _ => Main.run args

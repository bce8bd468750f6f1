import RequestLang.Text.Blank
import RequestLang.Text.Search

/-! The texts that explain the arguments. -/
namespace RequestLang.CommandLine

/-- What can be asked about. -/
inductive Topic where
  | run | commands | server | help
  deriving DecidableEq, Repr

/-- A row of a table: what is written, and what it means. -/
structure Row where
  written : String
  meaning : String
  deriving DecidableEq, Repr

/-- The meanings stand below each other, two columns behind the longest entry. -/
def table (title : String) (rows : List Row) : String :=
  let width := rows.foldl (fun n r => max n r.written.length) 0
  title ++ ":\n" ++ String.join (rows.map fun r =>
    "  " ++ r.written ++ String.ofList (List.replicate (width - r.written.length + 2) ' ') ++
      r.meaning ++ "\n")

def page (about usage : String) (tables : List String) : String :=
  about ++ "\n\nUsage: " ++ usage ++ "\n\n" ++ "\n".intercalate tables

def about : String := "Runs requests written in the dothttp request language."

def aboutServer : String := "Serve requests as line-delimited JSON on stdin/stdout"

def aboutHelp : String := "Print this message or the help of the given subcommand(s)"

def helpRow : Row := ⟨"-h, --help", "Print help"⟩

def versionRow : Row := ⟨"-V, --version", "Print version"⟩

def debugRow : Row := ⟨"-d, --debug", "Enable debug logging"⟩

def runRows : List Row := [
  ⟨"-d, --debug", "Enable debug logging and source positions in errors"⟩,
  ⟨"-t, --target <TARGET>", "Request to run, by name or 1-based index [default: 1]"⟩,
  ⟨"-e, --env <ENV>", "Environments from the property file, later ones win"⟩,
  ⟨"-p, --property <NAME=VALUE>", "Property overriding every other source"⟩,
  ⟨"    --property-file <PROPERTY_FILE>",
    "Property file, defaults to .dothttp.json next to the source"⟩,
  ⟨"    --curl", "Print a curl command instead of sending the request"⟩,
  ⟨"    --format", "Rewrite the file in canonical form"⟩,
  ⟨"    --stdout", "With --format, print instead of rewriting"⟩,
  ⟨"    --no-cookie", "Do not send or store cookies"⟩,
  ⟨"-i, --info", "Print request and response lines"⟩,
  helpRow, versionRow]

def Topic.text : Topic → String
  | .run =>
    page about "dothttp [OPTIONS] <FILE>"
      [table "Arguments" [⟨"<FILE>", "Path to the .http file"⟩], table "Options" runRows]
  | .commands =>
    page about "dothttp [OPTIONS] [COMMAND]"
      [table "Commands" [⟨"server", aboutServer⟩, ⟨"help", aboutHelp⟩],
        table "Options" [debugRow, helpRow, versionRow]]
  | .server => page aboutServer "dothttp server [OPTIONS]" [table "Options" [debugRow, helpRow]]
  | .help =>
    page aboutHelp "dothttp help [COMMAND]..."
      [table "Arguments" [⟨"[COMMAND]...", "Print help for the subcommand(s)"⟩]]

/-! Arguments taken apart into switches, options with values, and the rest. -/

inductive Switch where
  | debug | curl | format | stdout | noCookie | info | help | version
  deriving DecidableEq, Repr

inductive Valued where
  | target | environment | property | propertyFile
  deriving DecidableEq, Repr

inductive Name where
  | switch (s : Switch)
  | valued (v : Valued)
  deriving DecidableEq, Repr

def longName? : String → Option Name
  | "debug" => some (.switch .debug)
  | "curl" => some (.switch .curl)
  | "format" => some (.switch .format)
  | "stdout" => some (.switch .stdout)
  | "no-cookie" => some (.switch .noCookie)
  | "info" => some (.switch .info)
  | "help" => some (.switch .help)
  | "version" => some (.switch .version)
  | "target" => some (.valued .target)
  | "env" | "environment" => some (.valued .environment)
  | "property" => some (.valued .property)
  | "property-file" => some (.valued .propertyFile)
  | _ => none

def shortName? : Char → Option Name
  | 'd' => some (.switch .debug)
  | 'i' => some (.switch .info)
  | 'h' => some (.switch .help)
  | 'V' => some (.switch .version)
  | 't' => some (.valued .target)
  | 'e' => some (.valued .environment)
  | 'p' => some (.valued .property)
  | _ => none

inductive Item where
  | switch (s : Switch)
  | valued (v : Valued) (value : String)
  | positional (value : String)
  /-- What cannot be understood. Nothing behind it is read. -/
  | unknown
  deriving DecidableEq, Repr

/-- A group of short names after one dash. -/
structure Group where
  items : List Item
  /-- The last name, if its value has to be the next argument. -/
  pending : Option Valued := none
  deriving DecidableEq, Repr

/-- A name with a value takes what is left of its group, after an equals sign or at once. -/
def Group.read : List Char → Group
  | [] => ⟨[], none⟩
  | c :: cs =>
    match shortName? c with
    | some (.switch s) =>
      let rest := Group.read cs
      ⟨.switch s :: rest.items, rest.pending⟩
    | some (.valued v) =>
      match cs with
      | [] => ⟨[], some v⟩
      | '=' :: value => ⟨[.valued v (String.ofList value)], none⟩
      | value => ⟨[.valued v (String.ofList value)], none⟩
    | none => ⟨[.unknown], none⟩

/-- An argument that can be the value of the option before it. -/
def isValue (arg : String) : Bool := !("-".toList.isPrefixOf arg.toList) || arg = "-"

/-- Takes the arguments apart. After two dashes every argument is positional. -/
def items : List String → List Item
  | [] => []
  | arg :: rest =>
    match arg.toList with
    | ['-', '-'] => rest.map Item.positional
    | '-' :: '-' :: text =>
      let (name, value) :=
        match Text.splitOnce? '=' text with
        | some (name, value) => (name, some (String.ofList value))
        | none => (text, none)
      match longName? (String.ofList name), value, rest with
      | some (.switch s), none, rest => .switch s :: items rest
      | some (.valued v), some value, rest => .valued v value :: items rest
      | some (.valued v), none, value :: rest =>
        if isValue value then .valued v value :: items rest else [.unknown]
      | _, _, _ => [.unknown]
    | '-' :: c :: cs =>
      let group := Group.read (c :: cs)
      match group.pending, rest with
      | none, rest => group.items ++ items rest
      | some v, value :: rest =>
        if isValue value then group.items ++ .valued v value :: items rest
        else group.items ++ [.unknown]
      | some _, [] => group.items ++ [.unknown]
    | _ => .positional arg :: items rest

end RequestLang.CommandLine

/-! The arguments of the program. -/
namespace RequestLang

/-- A property as it is given on the command line, up to its first equals sign and after it. -/
def splitProperty? (text : String) : Option (String × String) :=
  match Text.splitOnce? '=' text.toList with
  | some (key, value) =>
    let key := Text.trimChars key
    if key.isEmpty then none else some (String.ofList key, String.ofList value)
  | none => none

namespace EnvironmentName

def maxBytes : Nat := 50

inductive Fault where
  | tooLong | malformed
  deriving DecidableEq, Repr

def Fault.message : Fault → String
  | .tooLong => "Name must be 50 characters or less"
  | .malformed => "Name must match pattern: ^[a-zA-Z_*][a-zA-Z0-9_./-]*$"

def isFirst (c : Char) : Bool := c.isAlpha || c == '_' || c == '*'

def isLater (c : Char) : Bool := c.isAlphanum || c == '_' || c == '.' || c == '/' || c == '-'

def isName : List Char → Bool
  | [] => false
  | c :: cs => isFirst c && cs.all isLater

/-- The length is looked at first, and is counted in bytes. -/
def check (name : String) : Except Fault String :=
  if name.utf8ByteSize > maxBytes then .error .tooLong
  else if isName name.toList then .ok name
  else .error .malformed

end EnvironmentName

namespace CommandLine

/-- What to run and how. -/
structure Run where
  file : String
  target : String := "1"
  environments : List String := []
  properties : List (String × String) := []
  propertyFile : Option String := none
  curl : Bool := false
  format : Bool := false
  stdout : Bool := false
  noCookie : Bool := false
  info : Bool := false
  debug : Bool := false
  deriving DecidableEq, Repr

inductive Command where
  | run (r : Run)
  | server (debug : Bool)
  | help (topic : Topic)
  | version
  deriving DecidableEq, Repr

/-- What the arguments have said so far. -/
structure Draft where
  switches : List Switch := []
  file : Option String := none
  target : Option String := none
  propertyFile : Option String := none
  environments : List String := []
  properties : List (String × String) := []

namespace Draft

/-- Only environments and properties may come again. -/
def setOnce? (old : Option String) (value : String) : Option (Option String) :=
  if old.isSome then none else some (some value)

def add? (d : Draft) : Item → Option Draft
  | .switch s => if d.switches.contains s then none else some { d with switches := s :: d.switches }
  | .positional file => do
    if file.isEmpty then none
    return { d with file := ← setOnce? d.file file }
  | .valued .target name => do return { d with target := ← setOnce? d.target name }
  | .valued .propertyFile path => do
    if path.isEmpty then none
    return { d with propertyFile := ← setOnce? d.propertyFile path }
  | .valued .environment name => do
    let name ← (EnvironmentName.check name).toOption
    return { d with environments := d.environments ++ [name] }
  | .valued .property text => do
    return { d with properties := d.properties ++ [← splitProperty? text] }
  | .unknown => none

/-- There has to be a file, and printing is a way of formatting. -/
def run? (d : Draft) : Option Run := do
  let file ← d.file
  let has (s : Switch) : Bool := d.switches.contains s
  if has .stdout && !has .format then none
  return {
    file, target := d.target.getD "1", environments := d.environments, properties := d.properties
    propertyFile := d.propertyFile, curl := has .curl, format := has .format
    stdout := has .stdout, noCookie := has .noCookie, info := has .info, debug := has .debug }

/-- Asking for help or for the version ends the reading. -/
def read? (d : Draft) : List Item → Option Command
  | [] => d.run?.map .run
  | .switch .help :: _ => some (.help .run)
  | .switch .version :: _ => some .version
  | i :: is => (d.add? i).bind fun d => d.read? is

end Draft

/-- The server takes no argument but the one for debugging. -/
def readServer? (debug : Bool) : List Item → Option Command
  | [] => some (.server debug)
  | .switch .help :: _ => some (.help .server)
  | .switch .debug :: is => if debug then none else readServer? true is
  | _ :: _ => none

/-- The command that the arguments ask for, unless they cannot be understood. -/
def parse? (args : List String) : Option Command :=
  match args with
  | "server" :: rest => readServer? false (items rest)
  | ["help"] => some (.help .commands)
  | ["help", "server"] => some (.help .server)
  | ["help", "help"] => some (.help .help)
  | "help" :: _ => none
  | args => Draft.read? {} (items args)

end CommandLine
end RequestLang
